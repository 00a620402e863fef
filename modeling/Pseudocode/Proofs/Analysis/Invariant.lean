import Pseudocode.Analysis.Algorithm
import Pseudocode.Proofs.Path.Reach
import Pseudocode.Proofs.Scope.Evolution
import Pseudocode.Proofs.Semantic.Parts

/-!
# Invariants of an analysis

An analysis makes types and values, some of them in answer to a mistake. An `Invariant` says what is
kept true of them, together with the reasons why every operation of the language keeps it true. A
type or a value that answers a mistake is excused by the error that was reported for it, if the
invariant allows for errors at all.

`Yields` is the logic in which one analysis after the other is shown to keep an invariant: whenever
the errors of a trace are allowed for, the types recorded in it and the result are as claimed.
-/

namespace Pseudocode

/-- What is reported under the code is an error. -/
def Code.isError : Code → Bool
  | .divisionByZero | .floatingPointEquality | .unofficialFeature | .redundantCast
  | .expressionValueUnused | .evaluateExpression | .evaluateType => false
  | _ => true

theorem Code.severity_eq_error_iff (c : Code) : c.severity = .error ↔ c.isError = true := by
  cases c <;> decide

/-- An error will be reported for the event. -/
def Event.IsError : Event → Prop
  | .found finding => finding.cause.code.isError = true
  | .notConstant _ => True
  | .overflow _ | .typed .. => False

structure Invariant where
  /-- Errors are allowed for. -/
  excused : Prop
  /-- Kept of the types that type expressions stand for. -/
  type : Ty → Prop
  /-- Kept of the values of expressions. -/
  value : Value → Prop
  /-- Kept of the values that constants are bound to. -/
  constant : Value → Prop
  /-- Kept of the values that braced initializers make. -/
  aggregate : Value → Prop
  /-- Kept of a value and the type of the place it is stored in. -/
  stores : Value → Ty → Prop
  /-- Kept of the types that are recorded for nodes. -/
  recorded : Ty → Prop
  type_unknown (origin : Span) : excused → type (.unknown origin)
  type_basic {t : Ty} : t.isBasic = true → type t
  type_boundedString {n : Nat} :
    0 < n → (n : Int) ≤ Int32.maxValue.toInt → type (.boundedString n)
  type_array {item : Ty} {n : Nat} :
    type item → 0 < n → (n : Int) ≤ Int32.maxValue.toInt → type (.array item n)
  type_struct {components : List (String × Ty)} :
    (∀ c ∈ components, type c.2) → (components.map (·.1)).Nodup → type (.struct components)
  type_aliased (name : String) {t : Ty} : type t → type (.aliased name t)
  type_slot {t u : Ty} {step : Step} : type t → t.slot? step = some u → type u
  distinct_of_type {t : Ty} : type t → t.Distinct
  excused_of_type {t : Ty} : type t → t.isUnknown = true → excused
  value_constant {v : Value} : constant v → value v
  value_literal (literal : Syntax.Literal) : value literal.value
  value_runtime {t : Ty} : type t → value (.runtime t)
  value_invalid (t : Ty) : excused → value (.invalid t)
  value_slot {v w : Value} {step : Step} : value v → v.slot? step = some w → value w
  value_runtime_part {v : Value} {u : Ty} :
    value v → u ∈ v.type.unaliased.parts → value (.runtime u)
  value_binary {op : BinaryOp} {l r : Value} {type : Ty} {a b d : Datum} :
    value l → value r → op.resultType? l.type.operandKind r.type.operandKind = some type →
      l.datum? = some a → r.datum? = some b → op.onData? a b = some d → value (.known type d)
  value_unary {op : UnaryOp} {v : Value} {type : Ty} {a d : Datum} :
    value v → op.resultType? v.type.operandKind = some type → v.datum? = some a →
      op.onDatum? a = some d → value (.known type d)
  value_cast {v : Value} {target : Ty} {a d : Datum} :
    value v → type target → v.datum? = some a → a.cast? target = some d → value (.known target d)
  value_convertTo {v : Value} {target : Ty} :
    value v → type target → v.type.isUnknown = false → target.isUnknown = false →
      v.type.convertible target = true → value (v.convertTo target)
  excused_of_value {v : Value} : value v → v.type.isUnknown = true ∨ v.isInvalid = true → excused
  recorded_type {v : Value} : value v → recorded v.type
  aggregate_initial {t : Ty} : type t → t.isAggregate = true → aggregate t.initial
  aggregate_invalid (t : Ty) : excused → aggregate (.invalid t)
  aggregate_set {v item : Value} {path : Path} :
    aggregate v → path.ValidIn v.type → stores item path.type →
      aggregate (path.set v (item.storedAs path.type))
  stores_value {v : Value} {target : Ty} :
    value v → (v.type.assignable target = false → excused) → stores v target
  stores_aggregate {v : Value} : aggregate v → stores v v.type

namespace Invariant

variable (I : Invariant) {α β : Type}

/-! ### What is kept of events, parts of a tree and symbols -/

def event : Event → Prop
  | .typed _ t => I.recorded t
  | _ => True

/-- What is kept of the value that items make. It is kept of a tree that the analysis made. -/
structure filled (v : Value) (items : List Semantic.Item) : Prop where
  aggregate : I.aggregate v
  sources : ∀ e ∈ Semantic.itemSources items, I.value e.value
  distinct : v.type.Distinct
  analysed : ∃ env site init, (Analysis.initializer env v.type init).result = .braced site v items

def part : Semantic.Part → Prop
  | .expr e => I.value e.value
  | .aggregate v items => I.filled v items
  | .type t => I.type t

def callable (c : Callable) : Prop := (∀ p ∈ c.parameters, I.type p.type) ∧ I.type c.returnType

def symbol : Symbol → Prop
  | .localVariable _ t | .parameter _ t _ | .typeAlias _ t => I.type t
  | .constant _ t v => I.type t ∧ I.constant v ∧ v.type = t
  | .callable c => I.callable c

def table (t : ScopeTable) : Prop := ∀ id, ∀ s ∈ t.symbols id, I.symbol s

/-! ### The logic -/

/-- If the errors of the trace are allowed for, then the invariant is kept of all events, and `post`
holds of the result. -/
def Yields (x : Traced α) (post : α → Prop) : Prop :=
  (∀ e ∈ x.events, e.IsError → I.excused) → (∀ e ∈ x.events, I.event e) ∧ post x.result

variable {I}

theorem yields_pure {a : α} {post : α → Prop} (h : post a) : I.Yields (pure a) post := by
  intro _
  exact ⟨by simp, h⟩

/-- The second of two analyses in sequence starts from the result of the first. -/
theorem Yields.bind_result {x : Traced α} {f : α → Traced β} {mid : α → Prop} {post : β → Prop}
    (hx : I.Yields x mid) (hf : mid x.result → I.Yields (f x.result) post) :
    I.Yields (x >>= f) post := by
  intro herrors
  simp only [Traced.events_bind, List.mem_append] at herrors ⊢
  obtain ⟨hevents, hmid⟩ := hx fun e he => herrors e (.inl he)
  obtain ⟨hevents', hpost⟩ := hf hmid fun e he => herrors e (.inr he)
  refine ⟨?_, hpost⟩
  rintro e (he | he)
  · exact hevents e he
  · exact hevents' e he

theorem Yields.bind {x : Traced α} {f : α → Traced β} {mid : α → Prop} {post : β → Prop}
    (hx : I.Yields x mid) (hf : ∀ a, mid a → I.Yields (f a) post) : I.Yields (x >>= f) post :=
  hx.bind_result (hf x.result)

theorem Yields.imp {x : Traced α} {post post' : α → Prop} (hx : I.Yields x post)
    (h : ∀ a, post a → post' a) : I.Yields x post' := by
  intro herrors
  obtain ⟨hevents, hpost⟩ := hx herrors
  exact ⟨hevents, h _ hpost⟩

/-- After an event that is an error, errors are known to be allowed for. -/
theorem yields_emit {event : Event} (h : I.event event) :
    I.Yields (Traced.emit event) fun _ => event.IsError → I.excused := by
  intro herrors
  refine ⟨by simpa using h, ?_⟩
  simpa using herrors

theorem yields_report (cause : Cause) (span : Span) :
    I.Yields (Traced.report cause span) fun _ => cause.code.isError = true → I.excused :=
  yields_emit trivial

theorem yields_typed (id : Syntax.NodeId) {t : Ty} (h : I.recorded t) :
    I.Yields (Traced.emit (.typed id t)) fun _ => True :=
  Yields.imp (yields_emit h) fun _ _ => trivial

/-- A report that has no part in what follows. -/
theorem yields_report_true (cause : Cause) (span : Span) :
    I.Yields (Traced.report cause span) fun _ => True :=
  (yields_report cause span).imp fun _ _ => trivial

theorem yields_unless {c : Prop} [Decidable c] {x : Traced Unit} {post : Unit → Prop}
    (htrue : c → post ()) (hx : ¬ c → I.Yields x post) : I.Yields (unless c do x) post := by
  by_cases hc : c
  · simpa [hc] using yields_pure (htrue hc)
  · simpa [hc] using hx hc

/-- The rule for a conditional report in front of an analysis. -/
theorem yields_unless_bind {c : Prop} [Decidable c] {x : Traced Unit} {f : Unit → Traced β}
    {mid : Unit → Prop} {post : β → Prop} (htrue : c → mid ()) (hx : ¬ c → I.Yields x mid)
    (hf : ∀ u, mid u → I.Yields (f u) post) : I.Yields (if c then f () else x >>= f) post := by
  by_cases hc : c
  · rw [if_pos hc]
    exact hf () (htrue hc)
  · rw [if_neg hc]
    exact (hx hc).bind hf

theorem yields_report_unless_bind {c : Prop} [Decidable c] {cause : Cause} {span : Span}
    {f : Unit → Traced β} {post : β → Prop} (hf : I.Yields (f ()) post) :
    I.Yields (if c then f () else Traced.report cause span >>= f) post :=
  yields_unless_bind (fun _ => trivial) (fun _ => yields_report_true cause span) fun _ _ => hf

/-- The error that is reported excuses the invalid value that answers it. -/
theorem yields_report_invalid {cause : Cause} (herror : cause.code.isError = true) (span : Span)
    (t : Ty) : I.Yields (Traced.report cause span >>= fun _ => pure (.invalid t)) I.value := by
  refine (yields_report cause span).bind fun _ hexcused => yields_pure ?_
  exact I.value_invalid t (hexcused herror)

end Invariant

end Pseudocode
