import Pseudocode.Folding.Cast
import Pseudocode.Proofs.Value.Typing

/-!
# Typing of folded operations

The types of the operands of an operator decide the type of its result, and the data of the operands
decide the datum. Both tables look at the same kinds, so on data that fit their types the result
fits its type.
-/

namespace Pseudocode

/-- The kind of operand that a datum is. -/
def Datum.kind : Datum → OperandKind
  | .boolean _ => .boolean
  | .character _ => .character
  | .integer _ => .integer
  | .real _ => .real
  | .string _ => .string
  | .array _ | .struct _ => .other

theorem Datum.Fits.kind_eq {datum : Datum} {t : Ty} (h : datum.Fits t.unaliased) :
    datum.kind = t.operandKind := by
  unfold Ty.operandKind
  revert h
  cases t.unaliased <;> cases datum <;> simp [Fits, kind]

/-! ### Binary operators -/

namespace BinaryOp

theorem isBasic_of_resultType? {op : BinaryOp} {l r : OperandKind} {type : Ty}
    (h : op.resultType? l r = some type) : type.isBasic = true := by
  cases op <;> simp only [resultType?] at h <;> grind [Ty.isBasic]

/-- Only comparisons answer with a truth value, and their results are typed as such. -/
theorem eq_boolean_of_holds? {op : BinaryOp} {order : Option Ordering} {l r : OperandKind}
    {b : Bool} {type : Ty} (hholds : op.holds? order = some b)
    (htype : op.resultType? l r = some type) : type = .boolean := by
  cases op <;> simp only [holds?, reduceCtorEq] at hholds <;> simp only [resultType?] at htype <;>
    grind

theorem fits_of_holds? {op : BinaryOp} {order : Option Ordering} {l r : OperandKind} {d : Datum}
    {type : Ty} (hd : (op.holds? order).map .boolean = some d)
    (htype : op.resultType? l r = some type) : d.Fits type := by
  rw [Option.map_eq_some_iff] at hd
  obtain ⟨b, hholds, rfl⟩ := hd
  rw [eq_boolean_of_holds? hholds htype]
  trivial

theorem fits_of_onBooleans? {op : BinaryOp} {x y : Bool} {d : Datum} {type : Ty}
    (hd : op.onBooleans? x y = some d) (htype : op.resultType? .boolean .boolean = some type) :
    d.Fits type := by
  cases op with
  | and | or | xor =>
    cases hd
    cases htype
    trivial
  | _ =>
    simp only [onBooleans?] at hd
    exact fits_of_holds? hd htype

theorem fits_of_onIntegers? {op : BinaryOp} {x y : Int32} {d : Datum} {type : Ty}
    (hd : op.onIntegers? x y = some d) (htype : op.resultType? .integer .integer = some type) :
    d.Fits type := by
  cases op with
  | add | sub | mul | div | mod =>
    obtain ⟨n, -, rfl⟩ := Option.map_eq_some_iff.mp hd
    cases htype
    trivial
  | _ =>
    simp only [onIntegers?] at hd
    exact fits_of_holds? hd htype

/-- The kinds that make an operation one on reals: both are numeric, and not both integers. -/
theorem fits_of_onReals? {op : BinaryOp} {l r : OperandKind} {x y : Float} {d : Datum} {type : Ty}
    (hreal : ¬ (l = .integer ∧ r = .integer)) (hd : op.onReals? x y = some d)
    (htype : op.resultType? l r = some type) : d.Fits type := by
  cases op with
  | add | sub | mul | div | mod =>
    cases hd
    rw [resultType?, if_neg hreal] at htype
    split at htype
    · cases htype
      trivial
    · cases htype
  | _ =>
    simp only [onReals?] at hd
    exact fits_of_holds? hd htype

/-- **Folding respects typing.** On operands of kinds that the operator takes, the datum of the
result is one that the type of the result demands. -/
theorem fits_of_onData? {op : BinaryOp} {a b d : Datum} {type : Ty} (hd : op.onData? a b = some d)
    (htype : op.resultType? a.kind b.kind = some type) : d.Fits type := by
  unfold onData? at hd
  split at hd
  · exact fits_of_onBooleans? hd htype
  · exact fits_of_onIntegers? hd htype
  · exact fits_of_holds? hd htype
  · exact fits_of_holds? hd htype
  · rename_i hbooleans hintegers hcharacters hstrings
    split at hd
    · refine fits_of_onReals? ?_ hd htype
      rintro ⟨ha, hb⟩
      cases a <;> cases b <;> simp [Datum.kind] at ha hb
      exact hintegers _ _ rfl rfl
    · cases hd

/-- Operators compute scalars. -/
theorem contents_of_onData? {op : BinaryOp} {a b d : Datum} (hd : op.onData? a b = some d) :
    d.contents = [] := by
  cases d with
  | array | struct =>
    unfold onData? onBooleans? onIntegers? onReals? at hd
    repeat' split at hd
    all_goals simp at hd
  | _ => rfl

end BinaryOp

/-! ### Unary operators -/

namespace UnaryOp

theorem isBasic_of_resultType? {op : UnaryOp} {operand : OperandKind} {type : Ty}
    (h : op.resultType? operand = some type) : type.isBasic = true := by
  unfold resultType? at h
  split at h <;> cases h <;> rfl

theorem fits_of_onDatum? {op : UnaryOp} {a d : Datum} {type : Ty} (hd : op.onDatum? a = some d)
    (htype : op.resultType? a.kind = some type) : d.Fits type := by
  unfold onDatum? at hd
  split at hd
  · rw [Option.map_eq_some_iff] at hd
    obtain ⟨n, -, rfl⟩ := hd
    cases htype
    trivial
  · cases hd
    cases htype
    trivial
  · cases hd
    cases htype
    trivial
  · cases hd
    cases a <;> cases htype <;> trivial
  · cases hd

/-- The only datum with contents that an operator gives back is the operand itself. -/
theorem contents_of_onDatum? {op : UnaryOp} {a d : Datum} (hd : op.onDatum? a = some d) :
    d.contents = a.contents := by
  unfold onDatum? at hd
  split at hd
  · rw [Option.map_eq_some_iff] at hd
    obtain ⟨n, -, rfl⟩ := hd
    rfl
  · cases hd
    rfl
  · cases hd
    rfl
  · cases hd
    rfl
  · cases hd

end UnaryOp

/-! ### Casts -/

theorem Datum.fits_of_cast? {d d' : Datum} {target : Ty} (h : d.cast? target = some d') :
    d'.Fits target.unaliased := by
  unfold cast? at h
  split at h
  · rename_i hshape
    cases h
    simp [hshape, Fits]
  · rename_i hshape
    cases h
    simp [hshape, Fits]
  · rename_i hshape
    obtain ⟨n, -, rfl⟩ := Option.map_eq_some_iff.mp h
    simp [hshape, Fits]
  · rename_i hshape
    obtain ⟨c, -, rfl⟩ := Option.map_eq_some_iff.mp h
    simp [hshape, Fits]
  · rename_i hshape
    obtain ⟨n, -, rfl⟩ := Option.map_eq_some_iff.mp h
    simp [hshape, Fits]
  · cases h

theorem Datum.contents_of_cast? {d d' : Datum} {target : Ty} (h : d.cast? target = some d') :
    d'.contents = [] := by
  cases d' with
  | array | struct =>
    unfold cast? at h
    split at h
    all_goals simp at h
  | _ => rfl

/-! ### Operands that fit -/

/-- Only scalars fit a basic type. -/
theorem Datum.Fits.contents_eq_nil {d : Datum} {type : Ty} (h : d.Fits type)
    (htype : type.isBasic = true) : d.contents = [] := by
  cases d with
  | array | struct => cases type <;> simp [Ty.isBasic, Fits] at htype h
  | _ => rfl

namespace Value

theorem Fits.kind_eq {v : Value} {d : Datum} (h : v.Fits) (hd : v.datum? = some d) :
    d.kind = v.type.operandKind :=
  (h d (status_of_datum? hd)).kind_eq

/-- A scalar of a basic type that it fits is sound. -/
theorem sound_known_of_isBasic {type : Ty} {d : Datum} (htype : type.isBasic = true)
    (hfits : d.Fits type) : (known type d).Sound := by
  have hatom := Ty.isAtom_of_isBasic htype
  refine sound_known (Ty.resolved_of_isAtom hatom) ?_ (by simp [hfits.contents_eq_nil htype])
  rwa [Ty.unaliased_of_isAtom hatom]

theorem Fits.binary {op : BinaryOp} {l r : Value} {type : Ty} {a b d : Datum} (hl : l.Fits)
    (hr : r.Fits) (htype : op.resultType? l.type.operandKind r.type.operandKind = some type)
    (ha : l.datum? = some a) (hb : r.datum? = some b) (hd : op.onData? a b = some d) :
    (known type d).Sound := by
  have hbasic := BinaryOp.isBasic_of_resultType? htype
  rw [← hl.kind_eq ha, ← hr.kind_eq hb] at htype
  exact sound_known_of_isBasic hbasic (BinaryOp.fits_of_onData? hd htype)

theorem Fits.unary {op : UnaryOp} {v : Value} {type : Ty} {a d : Datum} (hv : v.Fits)
    (htype : op.resultType? v.type.operandKind = some type) (ha : v.datum? = some a)
    (hd : op.onDatum? a = some d) : (known type d).Sound := by
  have hbasic := UnaryOp.isBasic_of_resultType? htype
  rw [← hv.kind_eq ha] at htype
  exact sound_known_of_isBasic hbasic (UnaryOp.fits_of_onDatum? hd htype)

theorem Sound.binary {op : BinaryOp} {l r : Value} {type : Ty} {a b d : Datum} (hl : l.Sound)
    (hr : r.Sound) (htype : op.resultType? l.type.operandKind r.type.operandKind = some type)
    (ha : l.datum? = some a) (hb : r.datum? = some b) (hd : op.onData? a b = some d) :
    (known type d).Sound :=
  hl.fits.binary hr.fits htype ha hb hd

theorem Sound.unary {op : UnaryOp} {v : Value} {type : Ty} {a d : Datum} (hv : v.Sound)
    (htype : op.resultType? v.type.operandKind = some type) (ha : v.datum? = some a)
    (hd : op.onDatum? a = some d) : (known type d).Sound :=
  hv.fits.unary htype ha hd

theorem sound_known_of_cast? {target : Ty} {a d : Datum} (htarget : target.Resolved)
    (hd : a.cast? target = some d) : (known target d).Sound := by
  refine sound_known htarget (Datum.fits_of_cast? hd) ?_
  simp [Datum.contents_of_cast? hd]

end Value

end Pseudocode
