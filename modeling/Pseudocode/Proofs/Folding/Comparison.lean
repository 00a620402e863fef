import Pseudocode.Proofs.Folding.Agreement

/-!
# Comparisons form one order

Each of the six comparisons is decided on its own from the order of two data. On integers, on
characters and on strings this is a total order, so that the answers of the comparisons about two
values go together. Reals are left out: they have an order in part only.
-/

namespace Pseudocode

open Std (LawfulEqCmp OrientedCmp TransCmp)

/-- Data of the kind are totally ordered. -/
def OperandKind.isDiscrete : OperandKind → Bool
  | .integer | .character | .string => true
  | _ => false

namespace Datum

def order : Datum → Datum → Ordering
  | .integer x, .integer y => compare x.toInt y.toInt
  | .character x, .character y => compare x.toNat y.toNat
  | .string x, .string y => compare x y
  | _, _ => .eq

/-- Characters are ordered by their scalar values, and strings by their first difference. -/
def Before : Datum → Datum → Prop
  | .integer x, .integer y => x.toInt < y.toInt
  | .character x, .character y => x.toNat < y.toNat
  | .string x, .string y => x.toList < y.toList
  | _, _ => False

section Order

variable {a b c : Datum} (hdiscrete : a.kind.isDiscrete = true) (hab : a.kind = b.kind)

include hdiscrete hab

/-- Two data of one kind with a total order. -/
theorem discrete_cases :
    (∃ x y, a = .integer x ∧ b = .integer y) ∨ (∃ x y, a = .character x ∧ b = .character y) ∨
      ∃ x y, a = .string x ∧ b = .string y := by
  cases a with
  | integer x =>
    cases b with
    | integer y => exact .inl ⟨x, y, rfl, rfl⟩
    | _ => cases hab
  | character x =>
    cases b with
    | character y => exact .inr (.inl ⟨x, y, rfl, rfl⟩)
    | _ => cases hab
  | string x =>
    cases b with
    | string y => exact .inr (.inr ⟨x, y, rfl, rfl⟩)
    | _ => cases hab
  | boolean | real | array | struct => cases hdiscrete

theorem order_swap : b.order a = (a.order b).swap := by
  obtain ⟨x, y, rfl, rfl⟩ | ⟨x, y, rfl, rfl⟩ | ⟨x, y, rfl, rfl⟩ := discrete_cases hdiscrete hab
  all_goals
    simp only [order]
    exact OrientedCmp.eq_swap

theorem order_eq_iff : a.order b = .eq ↔ a = b := by
  obtain ⟨x, y, rfl, rfl⟩ | ⟨x, y, rfl, rfl⟩ | ⟨x, y, rfl, rfl⟩ := discrete_cases hdiscrete hab
  · rw [order, LawfulEqCmp.compare_eq_iff_eq, Int32.toInt_inj, integer.injEq]
  · rw [order, LawfulEqCmp.compare_eq_iff_eq, Char.toNat_inj, character.injEq]
  · rw [order, LawfulEqCmp.compare_eq_iff_eq, string.injEq]

theorem order_eq_lt_iff : a.order b = .lt ↔ a.Before b := by
  obtain ⟨x, y, rfl, rfl⟩ | ⟨x, y, rfl, rfl⟩ | ⟨x, y, rfl, rfl⟩ := discrete_cases hdiscrete hab
  · exact Int.compare_eq_lt
  · exact Nat.compare_eq_lt
  · rw [order, Before, ← String.lt_iff]
    exact compareOfLessAndEq_eq_lt

theorem order_trans (hbc : b.kind = c.kind) (hlt : a.order b = .lt) (hlt' : b.order c = .lt) :
    a.order c = .lt := by
  obtain ⟨x, y, rfl, rfl⟩ | ⟨x, y, rfl, rfl⟩ | ⟨x, y, rfl, rfl⟩ := discrete_cases hdiscrete hab
  · cases c with
    | integer z =>
      simp only [order] at hlt hlt' ⊢
      exact TransCmp.lt_trans hlt hlt'
    | _ => cases hbc
  · cases c with
    | character z =>
      simp only [order] at hlt hlt' ⊢
      exact TransCmp.lt_trans hlt hlt'
    | _ => cases hbc
  · cases c with
    | string z =>
      simp only [order] at hlt hlt' ⊢
      exact TransCmp.lt_trans hlt hlt'
    | _ => cases hbc

end Order

end Datum

namespace BinaryOp

/-- The comparison is folded to `answer`, wherever it stands, without a remark. -/
def Answers (op : BinaryOp) (left right : Value) (answer : Bool) : Prop :=
  ∀ span, op.apply left right span = ⟨.boolean answer, []⟩

section Answers

variable {op : BinaryOp} {left right : Value} {a b : Datum} (hleft : left.IsScalar a)
  (hright : right.IsScalar b) (hdiscrete : a.kind.isDiscrete = true) (hab : a.kind = b.kind)

theorem onData?_of_isComparison (hdiscrete : a.kind.isDiscrete = true) (hab : a.kind = b.kind)
    (hop : op.isComparison = true) :
    op.onData? a b = (op.holds? (some (a.order b))).map .boolean := by
  obtain ⟨x, y, rfl, rfl⟩ | ⟨x, y, rfl, rfl⟩ | ⟨x, y, rfl, rfl⟩ :=
    Datum.discrete_cases hdiscrete hab
  · cases op with
    | eq | ne | lt | le | gt | ge => rfl
    | _ => cases hop
  · rfl
  · rfl

theorem resultType?_of_isComparison {k : OperandKind} (hdiscrete : k.isDiscrete = true)
    (hop : op.isComparison = true) : op.resultType? k k = some .boolean := by
  cases k with
  | integer | character | string =>
    cases op with
    | eq | ne | lt | le | gt | ge => rfl
    | _ => cases hop
  | _ => cases hdiscrete

include hleft hright hdiscrete hab

theorem answers_of_holds? (hop : op.isComparison = true) {answer : Bool}
    (hanswer : op.holds? (some (a.order b)) = some answer) : op.Answers left right answer := by
  intro span
  have htype : op.resultType? a.kind b.kind = some .boolean := by
    rw [← hab]
    exact resultType?_of_isComparison hdiscrete hop
  have hdivision : ¬ (op.isDivision = true ∧ right.isZero = true) := by
    rintro ⟨hdivision, -⟩
    cases op with
    | eq | ne | lt | le | gt | ge => cases hdivision
    | _ => cases hop
  have hreal : op.cautions a.kind b.kind = [] := by
    rw [← hab, cautions, if_neg]
    rintro ⟨-, hreal | hreal⟩ <;> rw [hreal] at hdiscrete <;> cases hdiscrete
  rw [apply_of_resultType? hleft hright span htype, if_neg hdivision, hreal,
    onData?_of_isComparison hdiscrete hab hop, hanswer]
  rfl

theorem answers_iff (hop : op.isComparison = true) (answer : Bool) :
    op.Answers left right answer ↔ op.holds? (some (a.order b)) = some answer := by
  constructor
  · intro h
    obtain ⟨answer', hanswer'⟩ :=
      Option.ne_none_iff_exists'.mp (holds?_ne_none hop (some (a.order b)))
    have hvalue := (h ⟨0, 0⟩).symm.trans
      (answers_of_holds? hleft hright hdiscrete hab hop hanswer' ⟨0, 0⟩)
    obtain rfl : answer = answer' := by
      injection hvalue with hvalue
      simpa [Value.boolean, Value.known] using hvalue
    exact hanswer'
  · exact answers_of_holds? hleft hright hdiscrete hab hop

end Answers

/-- The comparisons of two values that are known to be `a` and `b` go together. -/
structure Coherent (left right : Value) (a b : Datum) : Prop where
  folded : ∀ op, isComparison op = true →
    op.Answers left right true ∨ op.Answers left right false
  one_of_three :
    (lt.Answers left right true ∧ eq.Answers left right false ∧ gt.Answers left right false) ∨
    (lt.Answers left right false ∧ eq.Answers left right true ∧ gt.Answers left right false) ∨
    (lt.Answers left right false ∧ eq.Answers left right false ∧ gt.Answers left right true)
  le_iff : le.Answers left right true ↔ lt.Answers left right true ∨ eq.Answers left right true
  ge_iff : ge.Answers left right true ↔ gt.Answers left right true ∨ eq.Answers left right true
  ne_iff : ne.Answers left right true ↔ eq.Answers left right false
  lt_iff_gt : lt.Answers left right true ↔ gt.Answers right left true
  lt_iff_before : lt.Answers left right true ↔ a.Before b
  eq_iff : eq.Answers left right true ↔ a = b

theorem coherent_of_isScalar {left right : Value} {a b : Datum} (hleft : left.IsScalar a)
    (hright : right.IsScalar b) (hdiscrete : a.kind.isDiscrete = true) (hab : a.kind = b.kind) :
    Coherent left right a b := by
  have hanswers (op : BinaryOp) (hop : op.isComparison = true) (answer : Bool) :=
    answers_iff hleft hright hdiscrete hab hop answer
  have hgt : gt.Answers right left true ↔ gt.holds? (some (b.order a)) = some true :=
    answers_iff hright hleft (hab ▸ hdiscrete) hab.symm rfl true
  constructor
  · intro op hop
    obtain ⟨answer, hanswer⟩ :=
      Option.ne_none_iff_exists'.mp (holds?_ne_none hop (some (a.order b)))
    rw [hanswers op hop, hanswers op hop, hanswer]
    cases answer <;> simp
  · simp only [hanswers lt rfl, hanswers eq rfl, hanswers gt rfl, holds?]
    cases a.order b <;> simp
  · simp only [hanswers le rfl, hanswers lt rfl, hanswers eq rfl, holds?]
    cases a.order b <;> simp
  · simp only [hanswers ge rfl, hanswers gt rfl, hanswers eq rfl, holds?]
    cases a.order b <;> simp
  · simp only [hanswers ne rfl, hanswers eq rfl, holds?]
    cases a.order b <;> simp
  · rw [hgt, hanswers lt rfl, Datum.order_swap hdiscrete hab]
    cases a.order b <;> simp [holds?]
  · rw [hanswers lt rfl, ← Datum.order_eq_lt_iff hdiscrete hab]
    simp [holds?]
  · rw [hanswers eq rfl, ← Datum.order_eq_iff hdiscrete hab]
    simp [holds?]

/-- **Comparisons form one total order** on the integers, on the characters and on the strings of
any lengths. -/
theorem comparisons_form_total_order {left middle right : Value} {a b c : Datum}
    (hleft : left.IsScalar a) (hmiddle : middle.IsScalar b) (hright : right.IsScalar c)
    (hdiscrete : a.kind.isDiscrete = true) (hab : a.kind = b.kind) (hbc : b.kind = c.kind) :
    Coherent left middle a b ∧
    (lt.Answers left middle true → lt.Answers middle right true → lt.Answers left right true) := by
  refine ⟨coherent_of_isScalar hleft hmiddle hdiscrete hab, ?_⟩
  rw [answers_iff hleft hmiddle hdiscrete hab rfl,
    answers_iff hmiddle hright (hab ▸ hdiscrete) hbc rfl,
    answers_iff hleft hright hdiscrete (hab.trans hbc) rfl]
  simp only [holds?, Option.some.injEq, beq_iff_eq]
  exact Datum.order_trans hdiscrete hab hbc

/-- A string comes after each string it begins with, whatever the lengths that their types allow. -/
theorem strings_of_different_lengths_are_ordered :
    let ab : Value := .string "ab"
    let abc : Value := .known (.aliased "Word" (.boundedString 3)) (.string "abc")
    let b : Value := .known .string (.string "b")
    Coherent ab abc (.string "ab") (.string "abc") ∧ lt.Answers ab abc true ∧
      lt.Answers abc b true ∧ lt.Answers ab b true := by
  intro ab abc b
  have hab : ab.IsScalar (.string "ab") := ⟨rfl, rfl, by decide⟩
  have habc : abc.IsScalar (.string "abc") := ⟨rfl, rfl, by decide⟩
  have hb : b.IsScalar (.string "b") := ⟨rfl, rfl, by decide⟩
  obtain ⟨hcoherent, htrans⟩ := comparisons_form_total_order hab habc hb rfl rfl rfl
  have hfirst : lt.Answers ab abc true :=
    hcoherent.lt_iff_before.mpr (show "ab".toList < "abc".toList by decide)
  have hsecond : lt.Answers abc b true :=
    (comparisons_form_total_order habc hb hb rfl rfl rfl).1.lt_iff_before.mpr
      (show "abc".toList < "b".toList by decide)
  exact ⟨hcoherent, hfirst, hsecond, htrans hfirst hsecond⟩

end BinaryOp

end Pseudocode
