import Pseudocode.Proofs.Overflow.Account

/-!
# Signals of checks

Of the checks on analysed expressions, operations signal an overflow, and a few checks signal that
what they look at is not constant. The other checks give no signal.
-/

namespace Pseudocode

open Event (signal?)
open Traced

/-! ### Operations -/

/-- An overflow is remarked on once. -/
theorem BinaryOp.nodup_remarks (op : BinaryOp) (left right : Value) (span : Span) :
    (op.apply left right span).remarks.Nodup := by
  unfold apply
  split
  · exact List.nodup_nil
  split
  · exact List.nodup_nil
  dsimp only
  split
  · simp [Operation.unsupported]
  split
  · split <;> simp
  split
  · unfold Operation.computed
    split <;> split <;> simp
  · split <;> simp

theorem UnaryOp.nodup_remarks (op : UnaryOp) (operand : Value) (span : Span) :
    (op.apply operand span).remarks.Nodup := by
  unfold apply
  split
  · exact List.nodup_nil
  split
  · simp [Operation.unsupported]
  split
  · unfold Operation.computed
    split <;> simp
  · exact List.nodup_nil

namespace Check

/-- An operation signals its overflow, whatever else it reports. -/
theorem signals_remarks {unsupported : Cause} {span : Span}
    (h : (Traced.report unsupported span).pick signal? = []) {rs : List Remark} (hrs : rs.Nodup) :
    (remarks unsupported span rs).pick signal? =
      if .integerOverflow ∈ rs then [.overflow span] else [] := by
  induction rs with
  | nil => rfl
  | cons r rest ih =>
    obtain ⟨hr, hrest⟩ := List.nodup_cons.mp hrs
    rw [remarks, pick_bind, ih hrest]
    cases r with
    | integerOverflow =>
      rw [if_neg hr, if_pos List.mem_cons_self]
      rfl
    | unsupportedOperation =>
      change (Traced.report unsupported span).pick signal? ++ _ = _
      simp [h]
    | divisionByZero | floatingPointEquality =>
      rw [remark, silent_report (.finding 0) rfl]
      simp

theorem signals_binary (op : BinaryOp) (left right : Semantic.Expr) (span : Span) :
    (binary op left right span).pick signal? =
      if .integerOverflow ∈ (op.apply left.value right.value span).remarks then [.overflow span]
      else [] := by
  rw [binary, pick_bind, signals_remarks rfl (op.nodup_remarks _ _ _)]
  exact List.append_nil _

theorem signals_unary (op : UnaryOp) (operand : Semantic.Expr) (span : Span) :
    (unary op operand span).pick signal? =
      if .integerOverflow ∈ (op.apply operand.value span).remarks then [.overflow span]
      else [] := by
  rw [unary, pick_bind, signals_remarks rfl (op.nodup_remarks _ _)]
  exact List.append_nil _

/-! ### Checks for constants -/

/-- The signal of a check that finds `v` not to be what it has to be. -/
def signal (v : Value) (lacks : Value → Bool) (span : Span) : List Event :=
  if lacks v && !v.isInvalid then [.notConstant span] else []

theorem events_demand (v : Visit) (lacks : Value → Bool) :
    (v.demand lacks).flatMap Entry.events = signal v.value lacks v.term.span := by
  unfold Visit.demand signal
  split <;> rfl

theorem signals_notConstant {v : Value} {lacks : Value → Bool} (h : lacks v = true) (span : Span) :
    (notConstant v span).pick signal? = signal v lacks span := by
  cases hinvalid : v.isInvalid with
  | true => simp [notConstant, signal, hinvalid]
  | false =>
    simp only [notConstant, signal, h, hinvalid]
    rfl

theorem signal_eq_nil {v : Value} {lacks : Value → Bool} (h : lacks v = false) (span : Span) :
    signal v lacks span = [] := by
  simp [signal, h]

theorem signal_of_isInvalid {v : Value} (h : v.isInvalid = true) (lacks : Value → Bool)
    (span : Span) : signal v lacks span = [] := by
  simp [signal, h]

theorem signals_constant (v : Value) (span : Span) :
    (constant v span).pick signal? = signal v Value.lacksDatum span := by
  cases hknown : v.isKnown with
  | true =>
    rw [signal_eq_nil (by simp [Value.lacksDatum, hknown]), constant]
    simp [hknown]
  | false =>
    rw [← signals_notConstant (by simp [Value.lacksDatum, hknown]), constant]
    simp [hknown]

theorem result_convertible (e : Semantic.Expr) (target : Ty) :
    (convertible e target).result = e.value.type.convertible target := by
  unfold convertible
  cases h : e.value.type.convertible target <;> simp [Semantic.Expr.type, h]

/-- A check for a scalar looks at the type first, and then for the scalar. -/
theorem signals_scalar {α β : Type} {x : Traced β} {v : Value} {type : Ty}
    {read? : Value → Option α} {span : Span}
    (htype : v.type.convertible type = false → x.pick signal? = [])
    (hsome : v.type.convertible type = true → ∀ a, read? v = some a → x.pick signal? = [])
    (hnone : v.type.convertible type = true → read? v = none →
      x.pick signal? = (notConstant v span).pick signal?) :
    x.pick signal? = signal v (Value.lacksScalar type read?) span := by
  cases hconvertible : v.type.convertible type with
  | false => rw [htype hconvertible, signal_eq_nil (by simp [Value.lacksScalar, hconvertible])]
  | true =>
    cases hread : read? v with
    | some a =>
      rw [hsome hconvertible a hread, signal_eq_nil (by simp [Value.lacksScalar, hread])]
    | none =>
      rw [hnone hconvertible hread]
      exact signals_notConstant (by simp [Value.lacksScalar, hconvertible, hread]) span

theorem signals_length (e : Semantic.Expr) :
    (length e).pick signal? = signal e.value Value.lacksInteger e.span := by
  rw [length, pick_bind, silent_convertible, List.nil_append, result_convertible]
  refine signals_scalar ?_ ?_ ?_
  · intro htype
    rw [htype]
    rfl
  · intro htype n hinteger
    rw [if_pos htype, hinteger]
    dsimp only
    split <;> rfl
  · intro htype hinteger
    rw [if_pos htype, hinteger]
    dsimp only
    rw [pick_bind, pick_pure, List.append_nil]

end Check

namespace Analysis

theorem signals_assertion {α : Type} (condition : Semantic.Expr) (message : Option Semantic.Expr)
    (span : Span) (a : α) :
    (if (Check.convertible condition .boolean).result then
      assertion condition message span >>= fun _ => pure a else pure a).pick signal? =
        Check.signal condition.value Value.lacksBoolean condition.span := by
  rw [Check.result_convertible]
  refine Check.signals_scalar ?_ ?_ ?_
  · intro htype
    rw [htype]
    rfl
  · intro htype b hboolean
    rw [if_pos htype, pick_bind, assertion, hboolean]
    cases b <;> rfl
  · intro htype hboolean
    rw [if_pos htype, pick_bind, assertion, hboolean, pick_pure, List.append_nil]

theorem signals_select_index (aggregate : Ty) (site : Semantic.Site) (e : Semantic.Expr) :
    (select aggregate (.index site e)).pick signal? =
      if aggregate.isUnknown then [] else Check.signal e.value Value.lacksInteger e.span := by
  rw [select]
  split
  · rfl
  refine Check.signals_scalar ?_ ?_ ?_
  · intro htype
    simp only [Semantic.Expr.type, htype]
    rfl
  · intro htype n hinteger
    simp only [Semantic.Expr.type, htype, hinteger, Bool.not_true, Bool.false_eq_true, if_false]
    split
    · rfl
    · simp
  · intro htype hinteger
    simp only [Semantic.Expr.type, htype, hinteger, Bool.not_true, Bool.false_eq_true, if_false]
    rw [pick_bind, pick_pure, List.append_nil]

end Analysis

end Pseudocode
