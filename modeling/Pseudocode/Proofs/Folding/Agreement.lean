import Pseudocode.Proofs.Folding.Typing

/-!
# Typing and folding agree

Two tables decide about an operation. One gives the type of the result for the kinds of the
operands, the other computes the datum of the result. On known scalars they cover the same
combinations: what the first accepts the second computes, unless a divisor is zero or an integer
result does not fit. On any operands whatsoever, no integer is divided by zero.
-/

namespace Pseudocode

/-- The value is known to be the scalar `d`, and has a type of such scalars. -/
structure Value.IsScalar (v : Value) (d : Datum) : Prop where
  status_eq : v.status = .known d
  kind_eq : d.kind = v.type.operandKind
  kind_ne : d.kind ≠ .other

/-- The number is none of 32 bits. -/
def Integer.Outside (n : Int) : Prop := n < -2147483648 ∨ 2147483647 < n

theorem Integer.ofInt?_eq_none_iff_outside {n : Int} : ofInt? n = none ↔ Outside n :=
  ofInt?_eq_none_iff

namespace Value.IsScalar

variable {v : Value} {d : Datum}

theorem datum?_eq (h : v.IsScalar d) : v.datum? = some d := by
  rw [datum?, h.status_eq]

theorem isUnknown_eq (h : v.IsScalar d) : v.type.isUnknown = false := by
  cases hunknown : v.type.isUnknown with
  | false => rfl
  | true =>
    obtain ⟨origin, horigin⟩ := Ty.isUnknown_iff.mp hunknown
    have hkind := h.kind_eq
    rw [Ty.operandKind, horigin] at hkind
    exact absurd hkind h.kind_ne

end Value.IsScalar

namespace BinaryOp

/-- The exact result on integers, for the operators whose result may fall outside. A quotient is
rounded toward zero. -/
def exactResult? : BinaryOp → Int → Int → Option Int
  | .add, m, n => some (m + n)
  | .sub, m, n => some (m - n)
  | .mul, m, n => some (m * n)
  | .div, m, n => some (m.tdiv n)
  | _, _, _ => none

/-- Both operands are integers, and their exact result is none of 32 bits. -/
def Overflows (op : BinaryOp) (a b : Datum) : Prop :=
  ∃ x y : Int32, a = .integer x ∧ b = .integer y ∧
    ∃ n, op.exactResult? x.toInt y.toInt = some n ∧ Integer.Outside n

/-- What is remarkable about operands of the given kinds, whatever they are. -/
def cautions (op : BinaryOp) (l r : OperandKind) : List Remark :=
  if op.isEquality ∧ (l = .real ∨ r = .real) then [.floatingPointEquality] else []

def isComparison : BinaryOp → Bool
  | .eq | .ne | .lt | .le | .gt | .ge => true
  | _ => false

/-! ### Both tables cover the same combinations -/

variable {op : BinaryOp} {type : Ty}

/-- A remainder is no larger than its dividend. -/
theorem mod?_ne_none (x y : Int32) : Integer.mod? x y ≠ none := by
  intro hnone
  have houtside : x.toInt.tmod y.toInt < -2147483648 ∨ 2147483647 < x.toInt.tmod y.toInt :=
    Integer.ofInt?_eq_none_iff_outside.mp hnone
  have hlower : -2147483648 ≤ x.toInt := x.minValue_le_toInt
  have hupper : x.toInt ≤ 2147483647 := x.toInt_le
  have hbound : (x.toInt.tmod y.toInt).natAbs ≤ x.toInt.natAbs := by
    rw [Int.natAbs_tmod]
    exact Nat.mod_le _ _
  by_cases hsign : 0 ≤ x.toInt
  · have hnonneg := Int.tmod_nonneg y.toInt hsign
    omega
  · have hnonpos : x.toInt.tmod y.toInt ≤ 0 := by
      rw [← Int.neg_neg x.toInt, Int.neg_tmod]
      have hneg := Int.tmod_nonneg y.toInt (show 0 ≤ -x.toInt by omega)
      omega
    omega

theorem holds?_ne_none (h : op.isComparison = true) (order : Option Ordering) :
    op.holds? order ≠ none := by
  cases op with
  | eq | ne | lt | le | gt | ge => simp [holds?]
  | _ => cases h

/-- Characters and strings are compared, and nothing else is done with them. -/
theorem isComparison_of_resultType? {k : OperandKind} (htype : op.resultType? k k = some type)
    (hkind : k = .character ∨ k = .string) : op.isComparison = true := by
  obtain rfl | rfl := hkind
  all_goals
    cases op with
    | eq | ne | lt | le | gt | ge => rfl
    | _ => cases htype

theorem onBooleans?_ne_none (htype : op.resultType? .boolean .boolean = some type) (x y : Bool) :
    op.onBooleans? x y ≠ none := by
  cases op with
  | and | or | xor | eq | ne => simp [onBooleans?, holds?]
  | _ => cases htype

theorem onReals?_ne_none {l r : OperandKind} (htype : op.resultType? l r = some type)
    (hl : l.isNumeric = true) (x y : Float) : op.onReals? x y ≠ none := by
  cases op with
  | and | or | xor =>
    have hboolean : ¬ (l = .boolean ∧ r = .boolean) := by
      rintro ⟨rfl, -⟩
      cases hl
    simp [resultType?, hboolean] at htype
  | _ => simp [onReals?, holds?]

theorem onIntegers?_eq_none_iff (htype : op.resultType? .integer .integer = some type)
    (x y : Int32) :
    op.onIntegers? x y = none ↔
      ∃ n, op.exactResult? x.toInt y.toInt = some n ∧ Integer.Outside n := by
  cases op with
  | and | or | xor => cases htype
  | add | sub | mul | div =>
    rw [onIntegers?, Option.map_eq_none_iff]
    simp only [exactResult?, Option.some.injEq, exists_eq_left']
    exact Integer.ofInt?_eq_none_iff_outside
  | mod => simp [onIntegers?, exactResult?, mod?_ne_none]
  | _ => simp [onIntegers?, holds?, exactResult?]

theorem kinds_of_resultType? {l r : OperandKind} (htype : op.resultType? l r = some type) :
    (l = r ∧ l ≠ .other) ∨ (l.isNumeric = true ∧ r.isNumeric = true) := by
  cases op <;> simp only [resultType?] at htype <;> grind [OperandKind.isOrdered]

theorem exists_number? {a : Datum} (h : a.kind.isNumeric = true) : ∃ x, a.number? = some x := by
  cases a with
  | integer n => exact ⟨Real.ofInteger n, rfl⟩
  | real x => exact ⟨x, rfl⟩
  | _ => cases h

/-- **The tables cover the same combinations.** Where there is a type for the result there is a
datum, but for integers whose result does not fit. -/
theorem onData?_eq_none_iff {a b : Datum} (htype : op.resultType? a.kind b.kind = some type) :
    op.onData? a b = none ↔ op.Overflows a b := by
  unfold onData?
  split
  · simp [onBooleans?_ne_none htype, Overflows]
  · rename_i x y
    rw [onIntegers?_eq_none_iff htype]
    simp [Overflows]
  · have hcomparison := isComparison_of_resultType? htype (.inl rfl)
    simp [holds?_ne_none hcomparison, Overflows]
  · have hcomparison := isComparison_of_resultType? htype (.inr rfl)
    simp [holds?_ne_none hcomparison, Overflows]
  · rename_i hbooleans hintegers hcharacters hstrings
    have hno : ¬ op.Overflows a b := by
      rintro ⟨x, y, rfl, rfl, -⟩
      exact hintegers x y rfl rfl
    -- Operands of one kind are both reals by now, so that numbers are left in either case.
    have hnumeric : a.kind.isNumeric = true ∧ b.kind.isNumeric = true := by
      obtain ⟨hsame, hother⟩ | hboth := kinds_of_resultType? htype
      · cases a <;> cases b <;> simp_all [Datum.kind, OperandKind.isNumeric]
      · exact hboth
    obtain ⟨x, hx⟩ := exists_number? hnumeric.1
    obtain ⟨y, hy⟩ := exists_number? hnumeric.2
    simp [hx, hy, onReals?_ne_none htype hnumeric.1, hno]

/-- Only operations on integers overflow. None of them tests for equality. -/
theorem Overflows.resultType?_eq {a b : Datum} (h : op.Overflows a b) :
    op.resultType? a.kind b.kind = some .integer ∧ op.isEquality = false := by
  obtain ⟨x, y, rfl, rfl, n, hexact, -⟩ := h
  cases op with
  | add | sub | mul | div => exact ⟨rfl, rfl⟩
  | _ => cases hexact

theorem cautions_of_isEquality_eq_false (h : op.isEquality = false) (l r : OperandKind) :
    op.cautions l r = [] := by
  rw [cautions, if_neg]
  rintro ⟨hequality, -⟩
  rw [h] at hequality
  cases hequality

theorem integerOverflow_not_mem_cautions (l r : OperandKind) :
    .integerOverflow ∉ op.cautions l r := by
  intro hmem
  rw [cautions] at hmem
  split at hmem
  · cases List.mem_singleton.mp hmem
  · cases hmem

theorem isEquality_of_isDivision (h : op.isDivision = true) : op.isEquality = false := by
  cases op with
  | div | mod => rfl
  | _ => cases h

/-! ### Operations on known scalars -/

section Scalars

variable {left right : Value} {a b : Datum} (hleft : left.IsScalar a) (hright : right.IsScalar b)
  (span : Span)

include hright in
/-- A quotient by zero counts as zero, which is no overflow. -/
theorem Overflows.not_zeroDivisor (h : op.Overflows a b) :
    ¬ (op.isDivision = true ∧ right.isZero = true) := by
  rintro ⟨hdivision, hzero⟩
  obtain ⟨x, y, rfl, rfl, n, hexact, houtside⟩ := h
  obtain rfl : y = 0 := by
    rw [Value.isZero, hright.status_eq] at hzero
    exact beq_iff_eq.mp hzero
  cases op with
  | div =>
    rw [exactResult?, Int32.toInt_zero, Int.tdiv_zero, Option.some_inj] at hexact
    subst hexact
    cases houtside <;> contradiction
  | mod => cases hexact
  | _ => cases hdivision

include hleft hright

theorem apply_of_resultType? (htype : op.resultType? a.kind b.kind = some type) :
    op.apply left right span =
      if op.isDivision ∧ right.isZero then
        ⟨.runtime type, op.cautions a.kind b.kind ++ [.divisionByZero]⟩
      else .computed type (op.cautions a.kind b.kind) (op.onData? a b) := by
  rw [hleft.kind_eq, hright.kind_eq] at htype ⊢
  simp only [apply, hleft.isUnknown_eq, hright.isUnknown_eq, hleft.datum?_eq, hright.datum?_eq,
    htype, cautions, Bool.false_eq_true, if_false]

theorem apply_unsupported (htype : op.resultType? a.kind b.kind = none) :
    op.apply left right span = ⟨.invalid (.unknown span), [.unsupportedOperation]⟩ := by
  rw [hleft.kind_eq, hright.kind_eq] at htype
  simp only [apply, hleft.isUnknown_eq, hright.isUnknown_eq, htype, Bool.false_eq_true, if_false]
  rfl

theorem apply_computed (htype : op.resultType? a.kind b.kind = some type)
    (hzero : ¬ (op.isDivision = true ∧ right.isZero = true)) (hoverflow : ¬ op.Overflows a b) :
    ∃ d : Datum, d.Fits type ∧
      op.apply left right span = ⟨.known type d, op.cautions a.kind b.kind⟩ := by
  have hsome : op.onData? a b ≠ none := by
    intro hnone
    exact hoverflow ((onData?_eq_none_iff htype).mp hnone)
  obtain ⟨d, hd⟩ := Option.ne_none_iff_exists'.mp hsome
  refine ⟨d, fits_of_onData? hd htype, ?_⟩
  rw [apply_of_resultType? hleft hright span htype, if_neg hzero, hd]
  rfl

theorem apply_zeroDivisor (htype : op.resultType? a.kind b.kind = some type)
    (hdivision : op.isDivision = true) (hzero : right.isZero = true) :
    op.apply left right span = ⟨.runtime type, [.divisionByZero]⟩ := by
  rw [apply_of_resultType? hleft hright span htype, if_pos ⟨hdivision, hzero⟩,
    cautions_of_isEquality_eq_false (isEquality_of_isDivision hdivision)]
  rfl

theorem apply_overflow (h : op.Overflows a b) :
    op.apply left right span = ⟨.runtime .integer, [.integerOverflow]⟩ := by
  obtain ⟨htype, hequality⟩ := h.resultType?_eq
  rw [apply_of_resultType? hleft hright span htype, if_neg (h.not_zeroDivisor hright),
    (onData?_eq_none_iff htype).mpr h, cautions_of_isEquality_eq_false hequality]
  rfl

theorem integerOverflow_mem_iff :
    .integerOverflow ∈ (op.apply left right span).remarks ↔ op.Overflows a b := by
  by_cases hoverflow : op.Overflows a b
  · simp [apply_overflow hleft hright span hoverflow, hoverflow]
  · refine iff_of_false ?_ hoverflow
    cases htype : op.resultType? a.kind b.kind with
    | none => simp [apply_unsupported hleft hright span htype]
    | some type =>
      by_cases hzero : op.isDivision = true ∧ right.isZero = true
      · simp [apply_zeroDivisor hleft hright span htype hzero.1 hzero.2]
      · obtain ⟨d, -, happly⟩ := apply_computed hleft hright span htype hzero hoverflow
        rw [happly]
        exact integerOverflow_not_mem_cautions _ _

end Scalars

/-- What the operator makes of operands that are known to be `a` and `b` is what the types of the
operands say, but for a divisor that is zero and an integer that does not fit. -/
structure Agrees (op : BinaryOp) (left right : Value) (a b : Datum) (span : Span) : Prop where
  computed : ∀ type, op.resultType? left.type.operandKind right.type.operandKind = some type →
    ¬ (op.isDivision = true ∧ right.isZero = true) → ¬ op.Overflows a b →
    ∃ d : Datum, d.Fits type ∧ op.apply left right span = ⟨.known type d, op.cautions a.kind b.kind⟩
  zeroDivisor : ∀ type, op.resultType? left.type.operandKind right.type.operandKind = some type →
    op.isDivision = true → right.isZero = true →
    op.apply left right span = ⟨.runtime type, [.divisionByZero]⟩
  overflow : ∀ type, op.resultType? left.type.operandKind right.type.operandKind = some type →
    op.Overflows a b → op.apply left right span = ⟨.runtime type, [.integerOverflow]⟩
  unsupported : op.resultType? left.type.operandKind right.type.operandKind = none →
    op.apply left right span = ⟨.invalid (.unknown span), [.unsupportedOperation]⟩
  overflow_iff : .integerOverflow ∈ (op.apply left right span).remarks ↔ op.Overflows a b

theorem agrees_of_isScalar {left right : Value} {a b : Datum} (hleft : left.IsScalar a)
    (hright : right.IsScalar b) (span : Span) : op.Agrees left right a b span := by
  have hkinds : op.resultType? left.type.operandKind right.type.operandKind =
      op.resultType? a.kind b.kind := by
    rw [hleft.kind_eq, hright.kind_eq]
  refine ⟨?_, ?_, ?_, ?_, integerOverflow_mem_iff hleft hright span⟩ <;> rw [hkinds]
  · intro type htype hzero hoverflow
    exact apply_computed hleft hright span htype hzero hoverflow
  · intro type htype hdivision hzero
    exact apply_zeroDivisor hleft hright span htype hdivision hzero
  · intro type htype hoverflow
    obtain rfl : Ty.integer = type :=
      Option.some_inj.mp (hoverflow.resultType?_eq.1.symm.trans htype)
    exact apply_overflow hleft hright span hoverflow
  · intro htype
    exact apply_unsupported hleft hright span htype

end BinaryOp

/-! ### Unary operators -/

namespace UnaryOp

/-- The operand is an integer whose negative is none of 32 bits. -/
def Overflows (op : UnaryOp) (a : Datum) : Prop :=
  op = .minus ∧ ∃ x : Int32, a = .integer x ∧ Integer.Outside (-x.toInt)

variable {op : UnaryOp} {type : Ty} {operand : Value} {a : Datum}

theorem onDatum?_eq_none_iff (htype : op.resultType? a.kind = some type) :
    op.onDatum? a = none ↔ op.Overflows a := by
  cases op with
  | minus =>
    cases a with
    | integer x =>
      rw [onDatum?, Option.map_eq_none_iff]
      simp only [Overflows, true_and, Datum.integer.injEq, exists_eq_left']
      exact Integer.ofInt?_eq_none_iff_outside
    | real x => simp [onDatum?, Overflows]
    | _ => cases htype
  | plus => simp [onDatum?, Overflows]
  | not =>
    cases a with
    | boolean b => simp [onDatum?, Overflows]
    | _ => cases htype

theorem Overflows.resultType?_eq (h : op.Overflows a) :
    op.resultType? a.kind = some .integer := by
  obtain ⟨rfl, x, rfl, -⟩ := h
  rfl

section Scalars

variable (h : operand.IsScalar a) (span : Span)

include h

theorem apply_of_resultType? (htype : op.resultType? a.kind = some type) :
    op.apply operand span = .computed type [] (op.onDatum? a) := by
  rw [h.kind_eq] at htype
  simp only [apply, h.isUnknown_eq, h.datum?_eq, htype, Bool.false_eq_true, if_false]

theorem apply_computed (htype : op.resultType? a.kind = some type) (hoverflow : ¬ op.Overflows a) :
    ∃ d : Datum, d.Fits type ∧ op.apply operand span = ⟨.known type d, []⟩ := by
  have hsome : op.onDatum? a ≠ none := by
    intro hnone
    exact hoverflow ((onDatum?_eq_none_iff htype).mp hnone)
  obtain ⟨d, hd⟩ := Option.ne_none_iff_exists'.mp hsome
  refine ⟨d, fits_of_onDatum? hd htype, ?_⟩
  rw [apply_of_resultType? h span htype, hd]
  rfl

theorem apply_overflow (hoverflow : op.Overflows a) :
    op.apply operand span = ⟨.runtime .integer, [.integerOverflow]⟩ := by
  have htype := hoverflow.resultType?_eq
  rw [apply_of_resultType? h span htype, (onDatum?_eq_none_iff htype).mpr hoverflow]
  rfl

theorem apply_unsupported (htype : op.resultType? a.kind = none) :
    op.apply operand span = ⟨.invalid (.unknown span), [.unsupportedOperation]⟩ := by
  rw [h.kind_eq] at htype
  simp only [apply, h.isUnknown_eq, htype, Bool.false_eq_true, if_false]
  rfl

theorem integerOverflow_mem_iff :
    .integerOverflow ∈ (op.apply operand span).remarks ↔ op.Overflows a := by
  by_cases hoverflow : op.Overflows a
  · simp [apply_overflow h span hoverflow, hoverflow]
  · refine iff_of_false ?_ hoverflow
    cases htype : op.resultType? a.kind with
    | none => simp [apply_unsupported h span htype]
    | some type =>
      obtain ⟨d, -, happly⟩ := apply_computed h span htype hoverflow
      simp [happly]

end Scalars

/-- What the operator makes of an operand that is known to be `a` is what the type of the operand
says, but for a negative that does not fit. -/
structure Agrees (op : UnaryOp) (operand : Value) (a : Datum) (span : Span) : Prop where
  computed : ∀ type, op.resultType? operand.type.operandKind = some type → ¬ op.Overflows a →
    ∃ d : Datum, d.Fits type ∧ op.apply operand span = ⟨.known type d, []⟩
  overflow : ∀ type, op.resultType? operand.type.operandKind = some type → op.Overflows a →
    op.apply operand span = ⟨.runtime type, [.integerOverflow]⟩
  unsupported : op.resultType? operand.type.operandKind = none →
    op.apply operand span = ⟨.invalid (.unknown span), [.unsupportedOperation]⟩
  overflow_iff : .integerOverflow ∈ (op.apply operand span).remarks ↔ op.Overflows a

theorem agrees_of_isScalar (h : operand.IsScalar a) (span : Span) : op.Agrees operand a span := by
  refine ⟨?_, ?_, ?_, integerOverflow_mem_iff h span⟩ <;> rw [← h.kind_eq]
  · intro type htype hoverflow
    exact apply_computed h span htype hoverflow
  · intro type htype hoverflow
    obtain rfl : Ty.integer = type :=
      Option.some_inj.mp (hoverflow.resultType?_eq.symm.trans htype)
    exact apply_overflow h span hoverflow
  · intro htype
    exact apply_unsupported h span htype

end UnaryOp

/-! ### Division -/

/-- An integer was divided by zero. -/
inductive Trap where
  | zeroDivisor

/-- A division of integers that cannot be carried out if the divisor is zero. -/
def Integer.trapping (divide : Int32 → Int32 → Option Int32) (x y : Int32) :
    Except Trap (Option Int32) :=
  if y = 0 then .error .zeroDivisor else .ok (divide x y)

namespace BinaryOp

/-- As `onData?`, with divisions of integers that can trap. -/
def onDataTrapping (op : BinaryOp) (a b : Datum) : Except Trap (Option Datum) :=
  match op, a, b with
  | .div, .integer x, .integer y => (Option.map .integer) <$> Integer.trapping Integer.div? x y
  | .mod, .integer x, .integer y => (Option.map .integer) <$> Integer.trapping Integer.mod? x y
  | op, a, b => .ok (op.onData? a b)

/-- As `apply`, with divisions of integers that can trap. -/
def applyTrapping (op : BinaryOp) (left right : Value) (span : Span) : Except Trap Operation :=
  if left.type.isUnknown then .ok (.poisoned left.type)
  else if right.type.isUnknown then .ok (.poisoned right.type)
  else
    let l := left.type.operandKind
    let r := right.type.operandKind
    match op.resultType? l r with
    | none => .ok (.unsupported span)
    | some type =>
      let remarks := op.cautions l r
      if op.isDivision ∧ right.isZero then .ok ⟨.runtime type, remarks ++ [.divisionByZero]⟩
      else
        match left.datum?, right.datum? with
        | some a, some b => Operation.computed type remarks <$> op.onDataTrapping a b
        | _, _ => .ok ⟨⟨type, .pending (left.isInvalid || right.isInvalid)⟩, remarks⟩

theorem onDataTrapping_eq {op : BinaryOp} {a b : Datum}
    (h : op.isDivision = true → b ≠ .integer 0) : op.onDataTrapping a b = .ok (op.onData? a b) := by
  unfold onDataTrapping
  split
  · rename_i x y
    have hy : y ≠ 0 := fun hy => h rfl (congrArg Datum.integer hy)
    rw [Integer.trapping, if_neg hy]
    rfl
  · rename_i x y
    have hy : y ≠ 0 := fun hy => h rfl (congrArg Datum.integer hy)
    rw [Integer.trapping, if_neg hy]
    rfl
  · rfl

/-- The test for a zero divisor looks at the datum, whatever the type beside it. -/
theorem applyTrapping_eq (op : BinaryOp) (left right : Value) (span : Span) :
    op.applyTrapping left right span = .ok (op.apply left right span) := by
  unfold applyTrapping apply cautions
  by_cases hleft : left.type.isUnknown = true
  · simp only [if_pos hleft]
  by_cases hright : right.type.isUnknown = true
  · simp only [if_neg hleft, if_pos hright]
  simp only [if_neg hleft, if_neg hright]
  cases op.resultType? left.type.operandKind right.type.operandKind with
  | none => rfl
  | some type =>
    by_cases hzero : op.isDivision = true ∧ right.isZero = true
    · simp only [if_pos hzero]
    simp only [if_neg hzero]
    cases left.datum? with
    | none => rfl
    | some a =>
      cases hb : right.datum? with
      | none => rfl
      | some b =>
        have hdivisor : op.isDivision = true → b ≠ .integer 0 := by
          rintro hdivision rfl
          refine hzero ⟨hdivision, ?_⟩
          rw [Value.isZero, Value.status_of_datum? hb]
          rfl
        simp only [onDataTrapping_eq hdivisor]
        rfl

end BinaryOp

/-! ### Agreement -/

/-- **Typing and folding agree.** On operands that are known scalars of their types, an operator
gives a datum of the type that the typing of the operands promises, unless the divisor is zero or an
integer result does not fit, and refuses what the typing refuses. On any operands, no integer is
ever divided by zero. -/
theorem folding_agrees_with_typing :
    (∀ (op : BinaryOp) (left right : Value) (a b : Datum) (span : Span), left.IsScalar a →
      right.IsScalar b → op.Agrees left right a b span) ∧
    (∀ (op : UnaryOp) (operand : Value) (a : Datum) (span : Span), operand.IsScalar a →
      op.Agrees operand a span) ∧
    ∀ (op : BinaryOp) (left right : Value) (span : Span),
      op.applyTrapping left right span = .ok (op.apply left right span) := by
  refine ⟨?_, ?_, BinaryOp.applyTrapping_eq⟩
  · intro op left right a b span hleft hright
    exact BinaryOp.agrees_of_isScalar hleft hright span
  · intro op operand a span h
    exact UnaryOp.agrees_of_isScalar h span

/-- The largest integer, under an alias, has no successor. The smallest has no negative, and leaves
no remainder when it is divided by `-1`. -/
theorem folding_agrees_at_bounds :
    let largest : Value := .known (.aliased "N" .integer) (.integer Int32.maxValue)
    let smallest : Value := .integer Int32.minValue
    largest.IsScalar (.integer Int32.maxValue) ∧ smallest.IsScalar (.integer Int32.minValue) ∧
    BinaryOp.add.apply largest (.integer 1) ⟨0, 1⟩ = ⟨.runtime .integer, [.integerOverflow]⟩ ∧
    BinaryOp.mod.apply largest (.integer 0) ⟨0, 1⟩ = ⟨.runtime .integer, [.divisionByZero]⟩ ∧
    .integerOverflow ∉ (BinaryOp.mod.apply smallest (.integer (-1)) ⟨0, 1⟩).remarks ∧
    UnaryOp.minus.apply smallest ⟨0, 1⟩ = ⟨.runtime .integer, [.integerOverflow]⟩ := by
  intro largest smallest
  have hlargest : largest.IsScalar (.integer Int32.maxValue) := ⟨rfl, rfl, by decide⟩
  have hsmallest : smallest.IsScalar (.integer Int32.minValue) := ⟨rfl, rfl, by decide⟩
  have hinteger (n : Int32) : (Value.integer n).IsScalar (.integer n) :=
    ⟨rfl, rfl, by simp [Datum.kind]⟩
  obtain ⟨hbinary, hunary, -⟩ := folding_agrees_with_typing
  have hadd := hbinary .add largest (.integer 1) _ _ ⟨0, 1⟩ hlargest (hinteger 1)
  have hzero := hbinary .mod largest (.integer 0) _ _ ⟨0, 1⟩ hlargest (hinteger 0)
  have hmod := hbinary .mod smallest (.integer (-1)) _ _ ⟨0, 1⟩ hsmallest (hinteger (-1))
  have hminus := hunary .minus smallest _ ⟨0, 1⟩ hsmallest
  refine ⟨hlargest, hsmallest, ?_, hzero.zeroDivisor .integer rfl rfl rfl, ?_, ?_⟩
  · exact hadd.overflow .integer rfl ⟨_, _, rfl, rfl, _, rfl, .inr (by decide)⟩
  · rw [hmod.overflow_iff]
    rintro ⟨x, y, -, -, n, hexact, -⟩
    cases hexact
  · exact hminus.overflow .integer rfl ⟨rfl, _, rfl, .inr (by decide)⟩

end Pseudocode
