import Pseudocode.Proofs.Analysis.Soundness

/-!
# What becomes of an invalid operand

An invalid value is the trace of an error that was reported, so an expression with an invalid
operand is invalid too, and no other error is made of it. There are exactly two ways around this
rule, which `leaks` states: a division by a known zero, and a known index that lies inside an array.
In both cases the expression is left to the run of the program, whatever its other operand is.
-/

namespace Pseudocode

/-! ### Invalid values -/

namespace Value

theorem status_of_isInvalid {v : Value} (h : v.isInvalid = true) : v.status = .invalid := by
  unfold isInvalid at h
  split at h
  · rename_i hstatus
    exact hstatus
  · cases h

theorem datum?_of_isInvalid {v : Value} (h : v.isInvalid = true) : v.datum? = none := by
  simp [datum?, status_of_isInvalid h]

theorem integer?_of_isInvalid {v : Value} (h : v.isInvalid = true) : v.integer? = none := by
  simp [integer?, status_of_isInvalid h]

theorem slot?_of_isInvalid {v : Value} (h : v.isInvalid = true) (step : Step) :
    v.slot? step = none := by
  simp [slot?, status_of_isInvalid h]

end Value

/-! ### Operators and casts -/

/-- The operator divides by a known zero, and takes operands of these types. -/
def BinaryOp.leaks (op : BinaryOp) (left right : Value) : Bool :=
  !left.type.isUnknown && !right.type.isUnknown &&
    (op.resultType? left.type.operandKind right.type.operandKind).isSome &&
    (op.isDivision && right.isZero)

theorem BinaryOp.status_apply_of_isInvalid {op : BinaryOp} {left right : Value} (span : Span)
    (h : left.isInvalid = true ∨ right.isInvalid = true) :
    (op.apply left right span).value.status =
      if op.leaks left right then .runtime else .invalid := by
  unfold BinaryOp.apply BinaryOp.leaks
  split
  · rename_i hleft
    simp [hleft, Operation.poisoned, Value.invalid]
  rename_i hleft
  split
  · rename_i hright
    simp [hright, Operation.poisoned, Value.invalid]
  rename_i hright
  dsimp only
  split
  · rename_i htype
    simp [htype, Operation.unsupported, Value.invalid]
  rename_i htype
  split
  · rename_i hzero
    simp [hleft, hright, htype, hzero, Value.runtime]
  · rename_i hzero
    split
    · -- Both operands known: not with an invalid one among them.
      rename_i ha hb
      obtain hinvalid | hinvalid := h
      · simp [Value.datum?_of_isInvalid hinvalid] at ha
      · simp [Value.datum?_of_isInvalid hinvalid] at hb
    · have hmerge : (left.isInvalid || right.isInvalid) = true := by simpa using h
      have hdivides : (op.isDivision && right.isZero) = false := by
        rwa [Bool.eq_false_iff, ne_eq, Bool.and_eq_true]
      simp [hmerge, hdivides, Status.pending]

theorem UnaryOp.isInvalid_apply {op : UnaryOp} {operand : Value} (span : Span)
    (h : operand.isInvalid = true) : (op.apply operand span).value.isInvalid = true := by
  unfold UnaryOp.apply
  split
  · rfl
  split
  · rfl
  · rw [Value.datum?_of_isInvalid h, h]
    rfl

theorem Value.isInvalid_cast {v : Value} (target : Ty) (h : v.isInvalid = true) :
    (v.cast target).value.isInvalid = true := by
  unfold Value.cast
  split
  · rfl
  split
  · simp [Value.convertTo, Value.isInvalid, Value.status_of_isInvalid h, Status.convertTo]
  split
  · rw [Value.datum?_of_isInvalid h, h]
    rfl
  · rfl

theorem Check.result_cast (e : Semantic.Expr) (target : Ty) (span : Span) :
    (cast e target span).result = (e.value.cast target).value := by
  unfold cast
  rw [Traced.result_bind]
  dsimp only
  split <;> rfl

/-! ### Subscripts and components -/

namespace Check

/-- The index is known and lies inside the array. -/
def subscriptLeaks (array index : Value) : Bool :=
  match array.type.unaliased, index.integer? with
  | .array _ length, some n => 1 ≤ n.toInt ∧ n.toInt ≤ length
  | _, _ => false

theorem status_subscript_of_isInvalid {array index : Semantic.Expr} (span : Span)
    (h : array.value.isInvalid = true ∨ index.value.isInvalid = true) :
    (subscript array index span).result.status =
      if subscriptLeaks array.value index.value then .runtime else .invalid := by
  unfold subscript subscriptLeaks
  refine (congrArg Value.status (Traced.result_unless_bind _ _ _)).trans ?_
  rw [Semantic.Expr.type]
  cases hshape : array.value.type.unaliased with
  | array item length =>
    cases hindex : index.value.integer? with
    | none =>
      have hmerge : (array.value.isInvalid || index.value.isInvalid) = true := by simpa using h
      simp [hmerge, Status.pending]
    | some n =>
      have harray : array.value.isInvalid = true := by
        refine h.resolve_right fun hinvalid => ?_
        simp [Value.integer?_of_isInvalid hinvalid] at hindex
      by_cases hrange : 1 ≤ n.toInt ∧ n.toInt ≤ length
      · simp [element, hrange, Value.slot?_of_isInvalid harray, Value.runtime]
      · simp [element, hrange, Value.invalid]
  | _ => rfl

theorem isInvalid_component {base : Semantic.Expr} (name : Ident) (span : Span)
    (h : base.value.isInvalid = true) : (component base name span).result.isInvalid = true := by
  unfold component
  split
  · rfl
  · split
    · rw [Traced.result_pure, Value.slot?_of_isInvalid h, h]
      rfl
    · rfl
  · rfl

end Check

/-! ### Expressions -/

/-- The immediate operands of an operation on values. -/
def Syntax.Expr.operands (e : Syntax.Expr) : List Syntax.Expr :=
  match e.kind with
  | .paren inner => [inner]
  | .binary _ left right => [left, right]
  | .unary _ operand => [operand]
  | .cast _ value => [value]
  | .lvalue ⟨_, _, .subscript array index⟩ => [array, index]
  | .lvalue ⟨_, _, .component base _⟩ => [base]
  | .literal _ | .call .. | .endOfFile _ | .lvalue ⟨_, _, .name _⟩ => []

namespace Analysis

/-- The value of an expression. -/
def value (env : Env) (e : Syntax.Expr) : Value := (expr env e).result.value

/-- An invalid operand of the expression goes unnoticed. -/
def leaks (env : Env) (e : Syntax.Expr) : Bool :=
  match e.kind with
  | .binary op left right => op.item.leaks (value env left) (value env right)
  | .lvalue ⟨_, _, .subscript array index⟩ =>
    Check.subscriptLeaks (value env array) (value env index)
  | _ => false

/-- **Invalid operands are absorbed**, and never become known. An expression with an invalid operand
is invalid, except for a division by a known zero and a known index that lies inside its array:
those are left to the run of the program. -/
theorem status_of_invalid_operand (env : Env) (e operand : Syntax.Expr)
    (hmem : operand ∈ e.operands) (hinvalid : (value env operand).isInvalid = true) :
    (value env e).status = if leaks env e then .runtime else .invalid := by
  obtain ⟨id, span, kind⟩ := e
  cases kind with
  | literal | call | endOfFile => cases hmem
  | paren inner =>
    obtain rfl := List.mem_singleton.mp hmem
    exact Value.status_of_isInvalid hinvalid
  | unary op operand' =>
    obtain rfl := List.mem_singleton.mp hmem
    exact Value.status_of_isInvalid (UnaryOp.isInvalid_apply span hinvalid)
  | cast target v =>
    obtain rfl := List.mem_singleton.mp hmem
    have hcast : value env ⟨id, span, .cast target operand⟩ =
        ((value env operand).cast (typeExpr env target).result).value :=
      Check.result_cast _ _ span
    rw [hcast]
    exact Value.status_of_isInvalid (Value.isInvalid_cast _ hinvalid)
  | binary op left right =>
    refine BinaryOp.status_apply_of_isInvalid span ?_
    obtain rfl | rfl : operand = left ∨ operand = right := by
      simpa [Syntax.Expr.operands] using hmem
    · exact .inl hinvalid
    · exact .inr hinvalid
  | lvalue l =>
    obtain ⟨id', span', kind'⟩ := l
    cases kind' with
    | name => cases hmem
    | subscript array index =>
      refine Check.status_subscript_of_isInvalid span' ?_
      obtain rfl | rfl : operand = array ∨ operand = index := by
        simpa [Syntax.Expr.operands] using hmem
      · exact .inl hinvalid
      · exact .inr hinvalid
    | component base name =>
      obtain rfl := List.mem_singleton.mp hmem
      exact Value.status_of_isInvalid (Check.isInvalid_component name span' hinvalid)

open Syntax (nowhere ident)

/-- A table and a number, each given a value of the wrong type. -/
def misassigned : Syntax.Algorithm :=
  ⟨nowhere, [],
    [.constant ⟨nowhere, .ofKind (.array (.ofKind .integer) [.ofInteger 2]), ident "table",
      .expr (.ofString "no table")⟩,
    .constant ⟨nowhere, .ofKind .integer, ident "number", .expr (.ofString "no number")⟩]⟩

/-- The scopes that the misassigned constants leave behind. -/
def misassignedEnv : Env := ⟨(analyze misassigned).scopes, ScopeTable.root⟩

/-- An element of the table, at a known index. -/
def leakingSubscript : Syntax.Expr := .subscript (.ofName "table") (.ofInteger 1)

def divideNumber (divisor : Int32) : Syntax.Expr :=
  ⟨⟨5⟩, nowhere, .binary ⟨nowhere, .div⟩ (.ofName "number") (.ofInteger divisor)⟩

theorem status_divideNumber :
    (value misassignedEnv (.ofName "number")).isInvalid = true ∧
      (value misassignedEnv (divideNumber 2)).status = .invalid ∧
      (value misassignedEnv (divideNumber 0)).status = .runtime := by
  have hinvalid : (value misassignedEnv (.ofName "number")).isInvalid = true := rfl
  refine ⟨hinvalid, ?_, ?_⟩
  · exact status_of_invalid_operand misassignedEnv (divideNumber 2) _ (.head _) hinvalid
  · exact status_of_invalid_operand misassignedEnv (divideNumber 0) _ (.head _) hinvalid

/-- An element of an invalid array is not invalid. -/
theorem invalid_not_absorbed :
    ¬ ∀ (env : Env) (e operand : Syntax.Expr), operand ∈ e.operands →
      (value env operand).isInvalid = true → (value env e).isInvalid = true := by
  intro h
  have hsubscript := h misassignedEnv leakingSubscript (.ofName "table") (.head _) rfl
  cases hsubscript

end Analysis

end Pseudocode
