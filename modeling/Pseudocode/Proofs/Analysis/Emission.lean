import Pseudocode.Analysis.Algorithm

/-!
# What is picked out of a trace

Different readers pick different things out of a trace: the types of nodes, the component names that
are repeated, what concerns constants. Events have topics, and a reader ignores most of them. Once
it is known which topics each check leaves events on, every reader knows the checks that mean
nothing to it.
-/

namespace Pseudocode

/-! ### Topics -/

/-- `1` for statements, `2` for local bindings, `3` for declarations, `4` for algorithms as a
whole. -/
def Cause.level : Cause → Nat
  | .undefinedCallable .. => 4
  | .secondMainProgram
  | .unbindable (.signatureMismatch ..)
  | .unbindable (.redefined _ (.callable _) _) => 3
  | .unbindable _
  | .unofficial .scalarInitializers => 2
  | .constantAssigned _
  | .returnOutsideBody
  | .returnWithoutValue _
  | .switchOnString
  | .defaultNotLast
  | .unusedValue => 1
  | _ => 0

/-- What an event is about. -/
inductive Topic where
  | finding (level : Nat)
  /-- A component name that is taken. -/
  | repetition
  /-- Something is not constant, or an operation overflows. -/
  | constancy
  /-- The type of a node. -/
  | typing
deriving DecidableEq

def Topic.level : Topic → Nat
  | .finding level => level
  | .repetition | .constancy | .typing => 0

def Cause.topic : Cause → Topic
  | .duplicateComponent _ => .repetition
  | .notConstant _ => .constancy
  | cause => .finding cause.level

theorem Cause.level_topic (cause : Cause) : cause.topic.level = cause.level := by
  unfold topic
  split <;> rfl

theorem Cause.topic_ne_typing (cause : Cause) : cause.topic ≠ .typing := by
  unfold topic
  split <;> nofun

def Event.topic : Event → Topic
  | .found finding => finding.cause.topic
  | .notConstant _ | .overflow _ => .constancy
  | .typed .. => .typing

/-- The reader `f` of events picks nothing on the topic. -/
class Event.Ignores {γ : Type} (f : Event → Option γ) (topic : Topic) : Prop where
  eq_none : ∀ e : Event, e.topic = topic → f e = none

open Event (Ignores)

/-! ### Picking -/

namespace Traced

variable {α β γ : Type} {f : Event → Option γ}

/-- What `f` picks out of the trace, in order. -/
def pick (x : Traced α) (f : Event → Option γ) : List γ := x.events.filterMap f

@[simp]
theorem pick_pure (a : α) : (pure a : Traced α).pick f = [] := rfl

@[simp]
theorem pick_bind (x : Traced α) (g : α → Traced β) :
    (x >>= g).pick f = x.pick f ++ (g x.result).pick f := List.filterMap_append ..

@[simp]
theorem pick_map (g : α → β) (x : Traced α) : (g <$> x).pick f = x.pick f := by
  rw [pick, events_map, pick]

/-- Nothing is picked out of the trace. -/
abbrev Silent (f : Event → Option γ) (x : Traced α) : Prop := x.pick f = []

theorem silent_iff {x : Traced α} : x.Silent f ↔ ∀ e ∈ x.events, f e = none :=
  List.filterMap_eq_nil_iff

theorem silent_pure (a : α) : (pure a : Traced α).Silent f := rfl

/-- The second of two analyses in sequence starts from the result of the first. -/
theorem Silent.bind_result {x : Traced α} {g : α → Traced β} (hx : x.Silent f)
    (hg : (g x.result).Silent f) : (x >>= g).Silent f := by
  rw [Silent, pick_bind, hx, hg, List.append_nil]

theorem Silent.bind {x : Traced α} {g : α → Traced β} (hx : x.Silent f)
    (hg : ∀ a, (g a).Silent f) : (x >>= g).Silent f :=
  hx.bind_result (hg x.result)

/-- The rule for a second analysis that adds nothing. -/
theorem pick_bind_silent {x : Traced α} {g : α → Traced β} (hg : ∀ a, (g a).Silent f) :
    (x >>= g).pick f = x.pick f := by
  rw [pick_bind, hg, List.append_nil]

theorem silent_emit {event : Event} (topic : Topic) [Ignores f topic] (h : event.topic = topic) :
    (emit event).Silent f := by
  rw [silent_iff]
  intro e he
  obtain rfl := List.mem_singleton.mp he
  exact Ignores.eq_none e h

@[simp]
theorem silent_typed [Ignores f .typing] (id : Syntax.NodeId) (type : Ty) :
    (emit (.typed id type)).Silent f :=
  silent_emit .typing rfl

theorem silent_report {cause : Cause} {span : Span} (topic : Topic) [Ignores f topic]
    (h : cause.topic = topic) : (report cause span).Silent f :=
  silent_emit topic h

theorem silent_report_bind {cause : Cause} {span : Span} {g : Unit → Traced β} (topic : Topic)
    [Ignores f topic] (hg : (g ()).Silent f) (h : cause.topic = topic) :
    (report cause span >>= g).Silent f :=
  (silent_report topic h).bind fun _ => hg

/-- The rule for a conditional step in front of an analysis. -/
theorem pick_unless_bind {c : Prop} [Decidable c] {x : Traced Unit} (hx : x.Silent f)
    (y : Traced α) : (if c then y else x >>= fun _ => y).pick f = y.pick f := by
  split
  · rfl
  · rw [pick_bind, hx, List.nil_append]

theorem silent_unless_bind {c : Prop} [Decidable c] {x : Traced Unit} {g : Unit → Traced β}
    (hx : x.Silent f) (hg : (g ()).Silent f) : (if c then g () else x >>= g).Silent f :=
  (pick_unless_bind hx (g ())).trans hg

theorem silent_unless {c : Prop} [Decidable c] {x : Traced Unit} (hx : x.Silent f) :
    (unless c do x).Silent f := by
  by_cases hc : c
  · simpa [hc] using silent_pure ()
  · simpa [hc] using hx

end Traced

open Traced

/-! ### Checks -/

namespace Check

variable {γ : Type} {f : Event → Option γ}

section Findings

variable [Ignores f (.finding 0)]

@[simp]
theorem silent_convertible (e : Semantic.Expr) (target : Ty) : (convertible e target).Silent f := by
  unfold convertible
  split
  · exact silent_pure true
  · exact silent_report_bind (.finding 0) (silent_pure false) rfl

@[simp]
theorem silent_assignable (e : Semantic.Expr) (target : Ty) : (assignable e target).Silent f :=
  silent_unless (silent_report (.finding 0) rfl)

@[simp]
theorem silent_cast (value : Semantic.Expr) (target : Ty) (span : Span) :
    (cast value target span).Silent f := by
  refine silent_report_bind (.finding 0) ?_ rfl
  dsimp only
  split
  · exact silent_pure _
  · exact silent_report_bind (.finding 0) (silent_pure _) rfl
  · exact silent_report_bind (.finding 0) (silent_pure _) rfl

@[simp]
theorem silent_call (env : Env) (callee : Ident) (args : List Semantic.Argument) (span : Span) :
    (call env callee args span).Silent f := by
  unfold call
  split
  · exact silent_report_bind (.finding 0) (silent_pure _) rfl
  · exact silent_unless_bind (silent_report (.finding 0) rfl) (silent_pure _)

@[simp]
theorem silent_name (env : Env) (name : Ident) : (Check.name env name).Silent f := by
  unfold Check.name
  split
  · exact silent_report_bind (.finding 0) (silent_pure _) rfl
  · exact silent_pure _

theorem silent_element (array : Semantic.Expr) (item : Ty) (length : Nat) (n : Int32)
    (span : Span) : (element array item length n span).Silent f := by
  unfold element
  split
  · exact silent_pure _
  · exact silent_report_bind (.finding 0) (silent_pure _) rfl

@[simp]
theorem silent_subscript (array index : Semantic.Expr) (span : Span) :
    (subscript array index span).Silent f := by
  unfold subscript
  refine silent_unless_bind (silent_report (.finding 0) rfl) ?_
  split
  · exact silent_pure _
  · split
    · exact silent_element ..
    · exact silent_pure _
  · exact silent_report_bind (.finding 0) (silent_pure _) rfl

@[simp]
theorem silent_component (base : Semantic.Expr) (name : Ident) (span : Span) :
    (component base name span).Silent f := by
  unfold component
  split
  · exact silent_pure _
  · split
    · exact silent_pure _
    · exact silent_report_bind (.finding 0) (silent_pure _) rfl
  · exact silent_report_bind (.finding 0) (silent_pure _) rfl

end Findings

@[simp]
theorem silent_notConstant [Ignores f .constancy] (v : Value) (span : Span) :
    (notConstant v span).Silent f :=
  silent_unless (silent_emit .constancy rfl)

@[simp]
theorem silent_constant [Ignores f .constancy] (v : Value) (span : Span) :
    (constant v span).Silent f :=
  silent_unless (silent_notConstant v span)

section Operations

variable [Ignores f (.finding 0)] [Ignores f .constancy]

theorem silent_remarks {unsupported : Cause} (h : unsupported.topic = .finding 0) (span : Span)
    (rs : List Remark) : (remarks unsupported span rs).Silent f := by
  induction rs with
  | nil => exact silent_pure ()
  | cons r rest ih =>
    refine Silent.bind ?_ fun _ => ih
    cases r with
    | divisionByZero | floatingPointEquality => exact silent_report (.finding 0) rfl
    | integerOverflow => exact silent_emit .constancy rfl
    | unsupportedOperation => exact silent_report (.finding 0) h

@[simp]
theorem silent_binary (op : BinaryOp) (left right : Semantic.Expr) (span : Span) :
    (binary op left right span).Silent f :=
  (silent_remarks rfl span _).bind fun _ => silent_pure _

@[simp]
theorem silent_unary (op : UnaryOp) (operand : Semantic.Expr) (span : Span) :
    (unary op operand span).Silent f :=
  (silent_remarks rfl span _).bind fun _ => silent_pure _

@[simp]
theorem silent_length (e : Semantic.Expr) : (length e).Silent f := by
  unfold length
  refine (silent_convertible e .integer).bind fun converts => ?_
  split
  · split
    · split
      · exact silent_pure _
      · exact silent_report_bind (.finding 0) (silent_pure none) rfl
    · exact (silent_notConstant _ _).bind fun _ => silent_pure none
  · exact silent_pure none

end Operations

@[simp]
theorem silent_addComponents [Ignores f .repetition] (type : Ty) (names : List Ident)
    (components : List (String × Ty)) : (addComponents type names components).Silent f := by
  induction names generalizing components with
  | nil => exact silent_pure components
  | cons name rest ih =>
    unfold addComponents
    split
    · exact silent_report_bind .repetition (ih components) rfl
    · exact ih _

end Check

namespace Analysis

variable {γ : Type} {f : Event → Option γ}

@[simp]
theorem silent_finish [Ignores f .typing] (env : Env) (id : Syntax.NodeId) (span : Span)
    (value : Value) (kind : Semantic.ExprKind) : (finish env id span value kind).Silent f :=
  (silent_typed ..).bind fun _ => silent_pure _

@[simp]
theorem silent_assertion [Ignores f (.finding 0)] [Ignores f .constancy]
    (condition : Semantic.Expr) (message : Option Semantic.Expr) (span : Span) :
    (assertion condition message span).Silent f := by
  unfold assertion
  split
  · exact silent_pure ()
  · exact silent_report (.finding 0) rfl
  · exact Check.silent_notConstant ..

@[simp]
theorem silent_designatorError [Ignores f (.finding 0)] (aggregate : Ty) (span : Span)
    (error : DesignatorError) : (designatorError aggregate span error).Silent f := by
  cases error <;> exact silent_report (.finding 0) rfl

@[simp]
theorem silent_select_component [Ignores f (.finding 0)] (aggregate : Ty) (site : Semantic.Site)
    (name : Ident) : (select aggregate (.component site name)).Silent f := by
  rw [select]
  split
  · exact silent_pure none
  split
  · exact silent_pure _
  · exact silent_report_bind (.finding 0) (silent_pure none) rfl
  · exact (silent_designatorError ..).bind fun _ => silent_pure none

@[simp]
theorem silent_select [Ignores f (.finding 0)] [Ignores f .constancy] (aggregate : Ty)
    (d : Semantic.Designator) : (select aggregate d).Silent f := by
  cases d with
  | index site e =>
    rw [select]
    split
    · exact silent_pure none
    split
    · exact silent_report_bind (.finding 0) (silent_pure none) rfl
    split
    · exact (Check.silent_notConstant ..).bind fun _ => silent_pure none
    split
    · exact silent_pure _
    · exact (silent_designatorError ..).bind fun _ => silent_pure none
  | component site name => exact silent_select_component aggregate site name

/-! What is picked out of the parts of statements and directives comes from the expressions in
them. -/

section Statements

variable [Ignores f (.finding 0)] (env : Env)

theorem pick_checkedExpr (target : Ty) (e : Syntax.Expr) :
    (checkedExpr env target e).pick f = (expr env e).pick f :=
  pick_bind_silent fun _ => (Check.silent_convertible ..).bind fun _ => silent_pure _

theorem pick_checkedExpr? (target : Ty) (e : Option Syntax.Expr) :
    (checkedExpr? env target e).pick f = (exprs env e.toList).pick f := by
  cases e <;> simp [checkedExpr?, exprs, pick_checkedExpr]

theorem pick_assertionMessage (message : Option Syntax.Expr) :
    (assertionMessage env message).pick f = (exprs env message.toList).pick f := by
  cases message <;> simp [assertionMessage, exprs]

theorem pick_forHeader (variant : Syntax.Lvalue) (start stop : Syntax.Expr)
    (step : Option Syntax.Expr) :
    (forHeader env variant start stop step).pick f =
      (lvalue env variant).pick f ++ ((expr env start).pick f ++
        ((expr env stop).pick f ++ (exprs env step.toList).pick f)) := by
  simp [forHeader, pick_checkedExpr, pick_checkedExpr?]

end Statements

section Statements

variable [Ignores f (.finding 1)] (env : Env)

theorem pick_expressionStmt (e : Syntax.Expr) :
    (expressionStmt env e).pick f = (expr env e).pick f :=
  pick_bind_silent fun _ => silent_unless_bind (silent_report (.finding 1) rfl) (silent_pure _)

theorem pick_scrutinee (e : Syntax.Expr) : (scrutinee env e).pick f = (expr env e).pick f := by
  refine pick_bind_silent fun e => ?_
  dsimp only
  split
  · exact silent_report_bind (.finding 1) (silent_pure e) rfl
  · exact silent_pure e

theorem pick_assignment [Ignores f (.finding 0)] (a : Syntax.Assignment) :
    (assignment env a).pick f = (lvalue env a.target).pick f ++ (expr env a.value).pick f := by
  rw [assignment, pick_bind]
  dsimp only
  split
  · rw [pick_bind, silent_report (.finding 1) rfl]
    simp
  · simp

theorem pick_returnStmt [Ignores f (.finding 0)] (ctx : ReturnContext) (r : Syntax.Return) :
    (returnStmt ctx env r).pick f = (exprs env r.value.toList).pick f := by
  have hvalue : (returnedValue env r.value).pick f = (exprs env r.value.toList).pick f := by
    cases r.value <;> simp [returnedValue, exprs]
  rw [← hvalue]
  refine pick_bind_silent fun value => ?_
  dsimp only
  split
  · exact silent_report_bind (.finding 1) (silent_pure _) rfl
  · exact (Check.silent_convertible ..).bind fun _ => silent_pure _
  · exact silent_unless_bind (silent_report (.finding 1) rfl) (silent_pure _)

end Statements

theorem pick_localInitializer [Ignores f (.finding 2)] (env : Env) (type : Ty)
    (init : Syntax.Initializer) :
    (localInitializer env type (some init)).pick f = (initializer env type init).pick f :=
  pick_bind_silent fun _ => silent_unless_bind (silent_report (.finding 2) rfl) (silent_pure _)

@[simp]
theorem silent_undefinedCallables [Ignores f (.finding 4)] (cs : List Callable) :
    (undefinedCallables cs).Silent f := by
  induction cs with
  | nil => exact silent_pure ()
  | cons c rest ih => exact silent_report_bind (.finding 4) ih rfl

end Analysis

/-! ### Analyses that change the scopes -/

namespace Analyzer

variable {α β γ : Type} {f : Event → Option γ}

@[simp]
theorem pick_pure (a : α) (t : ScopeTable) : ((pure a : Analyzer α) t).pick f = [] := rfl

@[simp]
theorem pick_bind (m : Analyzer α) (k : α → Analyzer β) (t : ScopeTable) :
    ((m >>= k) t).pick f = (m t).pick f ++ (k (m t).result.1 (m t).result.2).pick f :=
  Traced.pick_bind (m t) fun r => k r.1 r.2

@[simp]
theorem pick_lift (x : Traced α) (t : ScopeTable) :
    ((liftM x : Analyzer α) t).pick f = x.pick f := by
  change (x >>= fun a => pure (a, t)).pick f = x.pick f
  simp

@[simp]
theorem pick_reading (scope : ScopeId) (g : Env → Traced α) (t : ScopeTable) :
    (reading scope g t).pick f = (g ⟨t, scope⟩).pick f := by
  change (g ⟨t, scope⟩ >>= fun a => pure (a, t)).pick f = (g ⟨t, scope⟩).pick f
  simp

/-- Nothing is picked out of the trace, whatever the scopes are. -/
def Silent (f : Event → Option γ) (m : Analyzer α) : Prop := ∀ t, (m t).Silent f

theorem silent_pure (a : α) : (pure a : Analyzer α).Silent f := fun _ => rfl

theorem Silent.bind {m : Analyzer α} {k : α → Analyzer β} (hm : m.Silent f)
    (hk : ∀ a, (k a).Silent f) : (m >>= k).Silent f :=
  fun t => Traced.Silent.bind (hm t) fun r => hk r.1 r.2

theorem silent_lift {x : Traced α} (h : x.Silent f) : (liftM x : Analyzer α).Silent f :=
  fun t => (pick_lift x t).trans h

theorem silent_reading {scope : ScopeId} {g : Env → Traced α} (h : ∀ env, (g env).Silent f) :
    (reading scope g).Silent f :=
  fun t => (pick_reading scope g t).trans (h ⟨t, scope⟩)

theorem silent_bindAt (span : Span) {operation : ScopeTable → Except DeclareError ScopeTable}
    (h : ∀ t error, operation t = .error error →
      (Traced.report (.unbindable error) span).Silent f) : (bindAt span operation).Silent f := by
  intro t
  unfold bindAt
  split
  · exact Traced.silent_pure _
  · rename_i error herror
    exact (h t error herror).bind fun _ => Traced.silent_pure _

theorem silent_block (parent : ScopeId) (span : Span)
    {body : ScopeId → Analyzer (List Semantic.Stmt)} (h : ∀ scope, (body scope).Silent f) :
    (block parent span body).Silent f := by
  have hopen : (openScope parent).Silent f := fun _ => rfl
  exact hopen.bind fun scope => (h scope).bind fun _ => silent_pure _

end Analyzer

end Pseudocode
