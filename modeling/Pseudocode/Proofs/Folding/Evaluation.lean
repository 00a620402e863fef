import Pseudocode.Proofs.Analysis.Undefined

/-!
# Closed expressions

An expression of literals and operators on integers and truth values has a value of its own: exact
arithmetic, confined to the integers of the language after every step. Analysis finds that value
if there is one, and leaves the expression to the run of the program if there is none. The only
thing that it reports is a divisor that is zero.
-/

namespace Pseudocode

/-! ### Evaluation -/

/-- What closed expressions are about. -/
inductive Scalar where
  | integer | boolean

namespace Scalar

abbrev Carrier : Scalar → Type
  | .integer => Int
  | .boolean => Bool

def type : Scalar → Ty
  | .integer => .integer
  | .boolean => .boolean

end Scalar

/-- The number, if it is one of 32 bits. -/
def Integer.bounded? (n : Int) : Option Int :=
  if -2147483648 ≤ n ∧ n ≤ 2147483647 then some n else none

/-- Operators from integers to integers. -/
inductive Arithmetic where
  | add | sub | mul | div | mod

namespace Arithmetic

def op : Arithmetic → BinaryOp
  | .add => .add
  | .sub => .sub
  | .mul => .mul
  | .div => .div
  | .mod => .mod

/-- The exact result. Division rounds toward zero. -/
def result? : Arithmetic → Int → Int → Option Int
  | .add, m, n => some (m + n)
  | .sub, m, n => some (m - n)
  | .mul, m, n => some (m * n)
  | .div, m, n => if n = 0 then none else some (m.tdiv n)
  | .mod, m, n => if n = 0 then none else some (m.tmod n)

def eval (a : Arithmetic) (m n : Int) : Option Int := (a.result? m n).bind Integer.bounded?

end Arithmetic

/-- Operators from integers to truth values. -/
inductive Comparison where
  | eq | ne | lt | le | gt | ge

namespace Comparison

def op : Comparison → BinaryOp
  | .eq => .eq
  | .ne => .ne
  | .lt => .lt
  | .le => .le
  | .gt => .gt
  | .ge => .ge

def eval : Comparison → Int → Int → Bool
  | .eq, m, n => m = n
  | .ne, m, n => m ≠ n
  | .lt, m, n => m < n
  | .le, m, n => m ≤ n
  | .gt, m, n => m > n
  | .ge, m, n => m ≥ n

end Comparison

/-- Operators from truth values to truth values. -/
inductive Connective where
  | eq | ne | and | or | xor

namespace Connective

def op : Connective → BinaryOp
  | .eq => .eq
  | .ne => .ne
  | .and => .and
  | .or => .or
  | .xor => .xor

def eval : Connective → Bool → Bool → Bool
  | .eq, p, q => p = q
  | .ne, p, q => p ≠ q
  | .and, p, q => p && q
  | .or, p, q => p || q
  | .xor, p, q => p ^^ q

end Connective

/-- Closed expressions that are well typed. Each operator stands at a place of its own. -/
inductive Closed : Scalar → Type where
  | integer (node : Syntax.Node) (n : Int32) : Closed .integer
  | boolean (node : Syntax.Node) (b : Bool) : Closed .boolean
  | paren {s : Scalar} (node : Syntax.Node) (inner : Closed s) : Closed s
  | minus (node : Syntax.Node) (place : Span) (operand : Closed .integer) : Closed .integer
  | plus (node : Syntax.Node) (place : Span) (operand : Closed .integer) : Closed .integer
  | not (node : Syntax.Node) (place : Span) (operand : Closed .boolean) : Closed .boolean
  | arithmetic (node : Syntax.Node) (place : Span) (a : Arithmetic)
      (left right : Closed .integer) : Closed .integer
  | comparison (node : Syntax.Node) (place : Span) (c : Comparison)
      (left right : Closed .integer) : Closed .boolean
  | connective (node : Syntax.Node) (place : Span) (c : Connective)
      (left right : Closed .boolean) : Closed .boolean

namespace Closed

def expr {s : Scalar} : Closed s → Syntax.Expr
  | .integer node n => node.expr (.literal (.integer n))
  | .boolean node b => node.expr (.literal (.boolean b))
  | .paren node inner => node.expr (.paren inner.expr)
  | .minus node place operand => node.expr (.unary ⟨place, .minus⟩ operand.expr)
  | .plus node place operand => node.expr (.unary ⟨place, .plus⟩ operand.expr)
  | .not node place operand => node.expr (.unary ⟨place, .not⟩ operand.expr)
  | .arithmetic node place a left right => node.expr (.binary ⟨place, a.op⟩ left.expr right.expr)
  | .comparison node place c left right => node.expr (.binary ⟨place, c.op⟩ left.expr right.expr)
  | .connective node place c left right => node.expr (.binary ⟨place, c.op⟩ left.expr right.expr)

/-- Strict evaluation: an operation has a result only if all its operands have one. -/
def eval {s : Scalar} : Closed s → Option s.Carrier
  | .integer _ n => some n.toInt
  | .boolean _ b => some b
  | .paren _ inner => inner.eval
  | .minus _ _ operand => operand.eval.bind fun n => Integer.bounded? (-n)
  | .plus _ _ operand => operand.eval
  | .not _ _ operand => operand.eval.map Bool.not
  | .arithmetic _ _ a left right => left.eval.bind fun m => right.eval.bind (a.eval m)
  | .comparison _ _ c left right => left.eval.bind fun m => right.eval.map (c.eval m)
  | .connective _ _ c left right => left.eval.bind fun p => right.eval.map (c.eval p)

/-- The places of the divisions whose divisor is zero, innermost first. -/
def zeroDivisions {s : Scalar} : Closed s → List Span
  | .integer .. | .boolean .. => []
  | .paren _ inner => inner.zeroDivisions
  | .minus _ _ operand | .plus _ _ operand => operand.zeroDivisions
  | .not _ _ operand => operand.zeroDivisions
  | .arithmetic node _ a left right =>
    left.zeroDivisions ++ right.zeroDivisions ++
      if a.op.isDivision ∧ right.eval = some 0 then [node.span] else []
  | .comparison _ _ _ left right => left.zeroDivisions ++ right.zeroDivisions
  | .connective _ _ _ left right => left.zeroDivisions ++ right.zeroDivisions

end Closed

/-! ### Operations -/

/-- The value is what analysis makes of the result of evaluation. -/
inductive Folded : {s : Scalar} → Option s.Carrier → Value → Prop
  | integer (k : Int32) : Folded (s := .integer) (some k.toInt) (.integer k)
  | boolean (b : Bool) : Folded (s := .boolean) (some b) (.boolean b)
  | runtime (s : Scalar) : Folded (s := s) none (.runtime s.type)

theorem Folded.integer_iff {result : Option Int} {value : Value}
    (h : Folded (s := .integer) result value) :
    (∀ n, result = some n ↔ ∃ k : Int32, k.toInt = n ∧ value = .integer k) ∧
      (result = none ↔ value = .runtime .integer) := by
  cases h with
  | integer k => simp [Value.integer, Value.known, Value.runtime]
  | runtime => simp [Value.integer, Value.known, Value.runtime, Scalar.type]

theorem Folded.boolean_iff {result : Option Bool} {value : Value}
    (h : Folded (s := .boolean) result value) :
    (∀ b, result = some b ↔ value = .boolean b) ∧
      (result = none ↔ value = .runtime .boolean) := by
  cases h with
  | boolean b => simp [Value.boolean, Value.known, Value.runtime]
  | runtime => simp [Value.boolean, Value.known, Value.runtime, Scalar.type]

/-- What is reported on account of the remark. An overflow is no finding of its own. -/
def Remark.cause? (unsupported : Cause) : Remark → Option Cause
  | .divisionByZero => some .divisionByZero
  | .floatingPointEquality => some .floatingPointEquality
  | .integerOverflow => none
  | .unsupportedOperation => some unsupported

/-- The operation agrees with evaluation about the result, and is reported for the causes. -/
structure Operation.Gives {s : Scalar} (o : Operation) (result : Option s.Carrier)
    (causes : List Cause) : Prop where
  folded : Folded result o.value
  causes : ∀ unsupported, o.remarks.filterMap (Remark.cause? unsupported) = causes

theorem Integer.bounded?_eq (n : Int) : bounded? n = (ofInt? n).map Int32.toInt := by
  cases h : ofInt? n with
  | none =>
    have hout : n < -2147483648 ∨ 2147483647 < n := ofInt?_eq_none_iff.mp h
    exact if_neg (by omega)
  | some k =>
    obtain rfl := ofInt?_eq_some_iff.mp h
    exact if_pos ⟨k.minValue_le_toInt, k.toInt_le⟩

/-- An exact result that does not fit is left to the run of the program, without a report. -/
theorem Operation.gives_computed (n : Int) :
    (computed .integer [] ((Integer.ofInt? n).map .integer)).Gives (s := .integer)
      (Integer.bounded? n) [] := by
  rw [Integer.bounded?_eq]
  cases Integer.ofInt? n with
  | none => exact ⟨.runtime .integer, fun _ => rfl⟩
  | some k => exact ⟨.integer k, fun _ => rfl⟩

theorem UnaryOp.gives_minus {n : Option Int} {operand : Value}
    (h : Folded (s := .integer) n operand) (span : Span) :
    (minus.apply operand span).Gives (s := .integer) (n.bind fun n => Integer.bounded? (-n))
      [] := by
  cases h with
  | integer k => exact Operation.gives_computed (-k.toInt)
  | runtime => exact ⟨.runtime .integer, fun _ => rfl⟩

theorem UnaryOp.gives_plus {n : Option Int} {operand : Value}
    (h : Folded (s := .integer) n operand) (span : Span) :
    (plus.apply operand span).Gives (s := .integer) n [] := by
  cases h with
  | integer k => exact ⟨.integer k, fun _ => rfl⟩
  | runtime => exact ⟨.runtime .integer, fun _ => rfl⟩

theorem UnaryOp.gives_not {p : Option Bool} {operand : Value}
    (h : Folded (s := .boolean) p operand) (span : Span) :
    (not.apply operand span).Gives (s := .boolean) (p.map Bool.not) [] := by
  cases h with
  | boolean b => exact ⟨.boolean !b, fun _ => rfl⟩
  | runtime => exact ⟨.runtime .boolean, fun _ => rfl⟩

theorem Value.isZero_integer {k : Int32} : (integer k).isZero = true ↔ k.toInt = 0 := by
  rw [← Int32.toInt_zero, Int32.toInt_inj]
  exact beq_iff_eq

/-- A divisor that is zero is reported whether or not the dividend is known. -/
theorem Arithmetic.gives_of_zero {m : Option Int} {left : Value} {a : Arithmetic}
    (hdivides : a.op.isDivision = true) (hleft : Folded (s := .integer) m left) (span : Span) :
    (a.op.apply left (.integer 0) span).Gives (s := .integer) (m.bind (a.eval · 0))
      [.divisionByZero] := by
  cases a with
  | div | mod => cases hleft <;> exact ⟨.runtime .integer, fun _ => rfl⟩
  | _ => cases hdivides

/-- The same exact result is confined to the integers of the language on both sides. -/
theorem Arithmetic.eval_eq (a : Arithmetic) (j k : Int32)
    (hk : a.op.isDivision = true → k.toInt ≠ 0) :
    ∃ n, a.eval j.toInt k.toInt = Integer.bounded? n ∧
      a.op.onIntegers? j k = (Integer.ofInt? n).map .integer := by
  cases a with
  | add => exact ⟨j.toInt + k.toInt, rfl, rfl⟩
  | sub => exact ⟨j.toInt - k.toInt, rfl, rfl⟩
  | mul => exact ⟨j.toInt * k.toInt, rfl, rfl⟩
  | div =>
    refine ⟨j.toInt.tdiv k.toInt, ?_, rfl⟩
    rw [eval, result?, if_neg (hk rfl)]
    rfl
  | mod =>
    refine ⟨j.toInt.tmod k.toInt, ?_, rfl⟩
    rw [eval, result?, if_neg (hk rfl)]
    rfl

theorem Arithmetic.gives_of_ne {m : Option Int} {left : Value} {a : Arithmetic} {k : Int32}
    (hk : a.op.isDivision = true → k.toInt ≠ 0) (hleft : Folded (s := .integer) m left)
    (span : Span) :
    (a.op.apply left (.integer k) span).Gives (s := .integer) (m.bind (a.eval · k.toInt)) [] := by
  have hzero : ¬ (a.op.isDivision = true ∧ (Value.integer k).isZero = true) := fun h =>
    hk h.1 (Value.isZero_integer.mp h.2)
  cases hleft with
  | integer j =>
    have happly : a.op.apply (.integer j) (.integer k) span =
        .computed .integer [] (a.op.onIntegers? j k) := by
      cases a with
      | div | mod => exact if_neg hzero
      | _ => rfl
    obtain ⟨n, heval, honIntegers⟩ := a.eval_eq j k hk
    rw [happly, honIntegers, Option.bind_some, heval]
    exact Operation.gives_computed n
  | runtime =>
    have happly : a.op.apply (.runtime .integer) (.integer k) span = ⟨.runtime .integer, []⟩ := by
      cases a with
      | div | mod => exact if_neg hzero
      | _ => rfl
    exact happly ▸ ⟨.runtime .integer, fun _ => rfl⟩

theorem Arithmetic.gives {m n : Option Int} {left right : Value} (a : Arithmetic)
    (hleft : Folded (s := .integer) m left) (hright : Folded (s := .integer) n right)
    (span : Span) :
    (a.op.apply left right span).Gives (s := .integer) (m.bind fun m => n.bind (a.eval m))
      (if a.op.isDivision ∧ n = some 0 then [.divisionByZero] else []) := by
  cases hright with
  | integer k =>
    -- The divisor is looked at first, so the cases of the dividend come inside.
    by_cases hzero : a.op.isDivision ∧ (some k.toInt : Option Int) = some 0
    · rw [if_pos hzero]
      obtain rfl : k = 0 := Int32.toInt_inj.mp (Option.some_inj.mp hzero.2)
      exact gives_of_zero hzero.1 hleft span
    · rw [if_neg hzero]
      exact gives_of_ne (fun hdivides hk => hzero ⟨hdivides, congrArg some hk⟩) hleft span
  | runtime => cases hleft <;> cases a <;> exact ⟨.runtime .integer, fun _ => rfl⟩

theorem Comparison.holds?_compare (c : Comparison) (m n : Int) :
    c.op.holds? (some (compare m n)) = some (c.eval m n) := by
  obtain hlt | rfl | hgt := Int.lt_trichotomy m n
  · have hne : m ≠ n := by omega
    have hle : m ≤ n := by omega
    rw [Int.compare_eq_lt.mpr hlt]
    cases c <;> simp [op, BinaryOp.holds?, eval, hlt, hne, hle]
  · rw [Int.compare_eq_eq.mpr rfl]
    cases c <;> simp [op, BinaryOp.holds?, eval]
  · have hne : m ≠ n := by omega
    have hle : n ≤ m := by omega
    rw [Int.compare_eq_gt.mpr hgt]
    cases c <;> simp [op, BinaryOp.holds?, eval, hgt, hne, hle]

theorem Comparison.gives {m n : Option Int} {left right : Value} (c : Comparison)
    (hleft : Folded (s := .integer) m left) (hright : Folded (s := .integer) n right)
    (span : Span) :
    (c.op.apply left right span).Gives (s := .boolean) (m.bind fun m => n.map (c.eval m)) [] := by
  cases hleft with
  | integer j =>
    cases hright with
    | integer k =>
      have happly : c.op.apply (.integer j) (.integer k) span =
          .computed .boolean [] ((c.op.holds? (some (compare j.toInt k.toInt))).map .boolean) := by
        cases c <;> rfl
      rw [happly, holds?_compare]
      exact ⟨.boolean (c.eval j.toInt k.toInt), fun _ => rfl⟩
    | runtime => cases c <;> exact ⟨.runtime .boolean, fun _ => rfl⟩
  | runtime => cases hright <;> cases c <;> exact ⟨.runtime .boolean, fun _ => rfl⟩

theorem Connective.gives {p q : Option Bool} {left right : Value} (c : Connective)
    (hleft : Folded (s := .boolean) p left) (hright : Folded (s := .boolean) q right)
    (span : Span) :
    (c.op.apply left right span).Gives (s := .boolean) (p.bind fun p => q.map (c.eval p)) [] := by
  cases hleft with
  | boolean b =>
    cases hright with
    | boolean b' => cases c <;> cases b <;> cases b' <;> exact ⟨.boolean _, fun _ => rfl⟩
    | runtime => cases c <;> exact ⟨.runtime .boolean, fun _ => rfl⟩
  | runtime => cases hright <;> cases c <;> exact ⟨.runtime .boolean, fun _ => rfl⟩

/-! ### Analysis -/

namespace Traced

variable {α β : Type} {x : Traced α} {f : α → Traced β} {fs gs : List Finding}

/-- What the analysis finds, whatever overflowed before it. -/
structure Finds (x : Traced α) (fs : List Finding) : Prop where
  findings_eq : ∀ overflows, Event.findings overflows x.events = fs

theorem finds_pure (a : α) : (pure a : Traced α).Finds [] := ⟨fun _ => rfl⟩

theorem Finds.bind (hx : x.Finds fs) (hf : (f x.result).Finds gs) :
    (x >>= f).Finds (fs ++ gs) where
  findings_eq overflows := by
    rw [events_bind, Event.findings_append, hx.findings_eq, hf.findings_eq]

theorem Finds.bind_nil (hx : x.Finds fs) (hf : (f x.result).Finds []) : (x >>= f).Finds fs :=
  List.append_nil fs ▸ hx.bind hf

end Traced

theorem Check.finds_remarks (unsupported : Cause) (span : Span) (rs : List Remark) :
    (remarks unsupported span rs).Finds
      ((rs.filterMap (Remark.cause? unsupported)).map (⟨·, span⟩)) := by
  induction rs with
  | nil => exact ⟨fun _ => rfl⟩
  | cons r rest ih =>
    cases r with
    | integerOverflow => exact ⟨fun overflows => ih.findings_eq (span :: overflows)⟩
    | _ => exact ⟨fun overflows => congrArg (_ :: ·) (ih.findings_eq overflows)⟩

namespace Analysis

variable {env : Env}

theorem finds_finish (id : Syntax.NodeId) (span : Span) (value : Value)
    (kind : Semantic.ExprKind) : (finish env id span value kind).Finds [] := ⟨fun _ => rfl⟩

section Operators

variable {s : Scalar} {result : Option s.Carrier} {causes : List Cause}

theorem finds_unary {operand : Syntax.Expr} {fs : List Finding} (node : Syntax.Node)
    (op : Located UnaryOp) (hoperand : (expr env operand).Finds fs)
    (h : (op.item.apply (expr env operand).result.value node.span).Gives result causes) :
    (expr env (node.expr (.unary op operand))).Finds (fs ++ causes.map (⟨·, node.span⟩)) := by
  rw [Syntax.Node.expr, expr,
    ← h.causes (.unsupportedUnary op.item (expr env operand).result.type)]
  refine hoperand.bind (Traced.Finds.bind_nil ?_ (finds_finish ..))
  exact (Check.finds_remarks ..).bind_nil (Traced.finds_pure _)

theorem finds_binary {left right : Syntax.Expr} {fs gs : List Finding} (node : Syntax.Node)
    (op : Located BinaryOp) (hleft : (expr env left).Finds fs) (hright : (expr env right).Finds gs)
    (h : (op.item.apply (expr env left).result.value (expr env right).result.value
      node.span).Gives result causes) :
    (expr env (node.expr (.binary op left right))).Finds
      (fs ++ (gs ++ causes.map (⟨·, node.span⟩))) := by
  rw [Syntax.Node.expr, expr, ← h.causes
    (.unsupportedBinary op.item (expr env left).result.type (expr env right).result.type)]
  refine hleft.bind (hright.bind (Traced.Finds.bind_nil ?_ (finds_finish ..)))
  exact (Check.finds_remarks ..).bind_nil (Traced.finds_pure _)

end Operators

/-- The value of a closed expression, by its operators from inside to outside. -/
theorem folded_closed (env : Env) {s : Scalar} (e : Closed s) :
    Folded e.eval (expr env e.expr).result.value := by
  induction e with
  | integer node n => exact .integer n
  | boolean node b => exact .boolean b
  | paren node inner ih =>
    rw [Closed.expr, Syntax.Node.expr, expr]
    exact ih
  | minus node place operand ih =>
    rw [Closed.expr, Syntax.Node.expr, expr]
    exact (UnaryOp.gives_minus ih node.span).folded
  | plus node place operand ih =>
    rw [Closed.expr, Syntax.Node.expr, expr]
    exact (UnaryOp.gives_plus ih node.span).folded
  | not node place operand ih =>
    rw [Closed.expr, Syntax.Node.expr, expr]
    exact (UnaryOp.gives_not ih node.span).folded
  | arithmetic node place a left right ihl ihr =>
    rw [Closed.expr, Syntax.Node.expr, expr]
    exact (a.gives ihl ihr node.span).folded
  | comparison node place c left right ihl ihr =>
    rw [Closed.expr, Syntax.Node.expr, expr]
    exact (c.gives ihl ihr node.span).folded
  | connective node place c left right ihl ihr =>
    rw [Closed.expr, Syntax.Node.expr, expr]
    exact (c.gives ihl ihr node.span).folded

/-- A closed expression is reported for its divisions by zero and for nothing else. -/
theorem finds_closed (env : Env) {s : Scalar} (e : Closed s) :
    (expr env e.expr).Finds (e.zeroDivisions.map (⟨.divisionByZero, ·⟩)) := by
  induction e with
  | integer node n => exact finds_finish ..
  | boolean node b => exact finds_finish ..
  | paren node inner ih =>
    rw [Closed.expr, Syntax.Node.expr, expr]
    exact ih.bind_nil (finds_finish ..)
  | minus node place operand ih =>
    have hminus := UnaryOp.gives_minus (folded_closed env operand) node.span
    simpa [Closed.expr, Closed.zeroDivisions] using finds_unary node ⟨place, .minus⟩ ih hminus
  | plus node place operand ih =>
    have hplus := UnaryOp.gives_plus (folded_closed env operand) node.span
    simpa [Closed.expr, Closed.zeroDivisions] using finds_unary node ⟨place, .plus⟩ ih hplus
  | not node place operand ih =>
    have hnot := UnaryOp.gives_not (folded_closed env operand) node.span
    simpa [Closed.expr, Closed.zeroDivisions] using finds_unary node ⟨place, .not⟩ ih hnot
  | arithmetic node place a left right ihl ihr =>
    have harithmetic := a.gives (folded_closed env left) (folded_closed env right) node.span
    simpa [Closed.expr, Closed.zeroDivisions, apply_ite] using
      finds_binary node ⟨place, a.op⟩ ihl ihr harithmetic
  | comparison node place c left right ihl ihr =>
    have hcomparison := c.gives (folded_closed env left) (folded_closed env right) node.span
    simpa [Closed.expr, Closed.zeroDivisions] using
      finds_binary node ⟨place, c.op⟩ ihl ihr hcomparison
  | connective node place c left right ihl ihr =>
    have hconnective := c.gives (folded_closed env left) (folded_closed env right) node.span
    simpa [Closed.expr, Closed.zeroDivisions] using
      finds_binary node ⟨place, c.op⟩ ihl ihr hconnective

/-- **Folding agrees with evaluation.** The value of a closed expression is known exactly if
evaluation has a result, and is that result; otherwise it is left to the run of the program. No
error is reported, and one warning for each division whose divisor evaluates to zero. -/
theorem folding_agrees_with_evaluation (env : Env) :
    (∀ e : Closed .integer,
      (∀ n, e.eval = some n ↔
        ∃ k : Int32, k.toInt = n ∧ (expr env e.expr).result.value = .integer k) ∧
      (e.eval = none ↔ (expr env e.expr).result.value = .runtime .integer)) ∧
    (∀ e : Closed .boolean,
      (∀ b, e.eval = some b ↔ (expr env e.expr).result.value = .boolean b) ∧
      (e.eval = none ↔ (expr env e.expr).result.value = .runtime .boolean)) ∧
    ∀ (s : Scalar) (e : Closed s) (overflows : List Span),
      Event.findings overflows (expr env e.expr).events =
        e.zeroDivisions.map (⟨.divisionByZero, ·⟩) ∧
      ∀ f ∈ Event.findings overflows (expr env e.expr).events,
        f.cause.code.severity = .warning := by
  refine ⟨fun e => (folded_closed env e).integer_iff, fun e => (folded_closed env e).boolean_iff,
    fun s e overflows => ?_⟩
  have hfindings := (finds_closed env e).findings_eq overflows
  refine ⟨hfindings, fun f hf => ?_⟩
  rw [hfindings] at hf
  obtain ⟨span, -, rfl⟩ := List.mem_map.mp hf
  exact (by decide : Code.divisionByZero.severity = .warning)

end Analysis

end Pseudocode
