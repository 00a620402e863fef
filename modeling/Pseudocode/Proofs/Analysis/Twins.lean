import Pseudocode.Proofs.Analysis.Access
import Pseudocode.Proofs.Ty.Laws

/-!
# Two analyses of one program

Two analyses of a program may know different values. Where they meet the same expression, they have
different values for it, but of the same type, aliases apart. Such values are *twins*. Operators and
casts make twins of twins, and remark on them alike as far as types go.

`Agrees` compares two analyses step by step. It passes over what is reported about values.
-/

namespace Pseudocode

/-! ### Values -/

namespace Value

theorem typed_of_datum?_eq_none {v : Value} (htype : v.type.Resolved) (h : v.datum? = none) :
    v.Typed := by
  refine everywhere_of_contents_eq_nil ⟨htype, fun d hd => ?_⟩ (contents_of_datum?_eq_none h)
  rw [datum?, hd] at h
  cases h

theorem datum?_pending (type : Ty) (invalid : Bool) :
    (⟨type, .pending invalid⟩ : Value).datum? = none := by
  cases invalid <;> rfl

theorem typed_pending {type : Ty} (h : type.Resolved) (invalid : Bool) :
    (⟨type, .pending invalid⟩ : Value).Typed :=
  typed_of_datum?_eq_none h (datum?_pending type invalid)

theorem Sound.typed {v : Value} (h : v.Sound) : v.Typed := h.imp fun _ hw => ⟨hw.1, hw.2.2⟩

theorem Typed.convertTo {v : Value} {target : Ty} (h : v.Typed) (htarget : target.Resolved)
    (hconvertible : v.type.convertible target = true) : (v.convertTo target).Typed := by
  have hassignable := Ty.assignable_of_convertible hconvertible
  refine .intro ⟨htarget, Fits.convertTo h.here.2 h.here.1 htarget hassignable⟩ ?_
  rw [contents_convertTo]
  exact h.inside

/-- The value in a slot, or else one of which nothing is known, is of the type of the slot. -/
theorem Typed.slot {v w : Value} {step : Step} (hv : v.Typed)
    (hslot : v.type.slot? step = some w.type) (hw : w.datum? = none) :
    ((v.slot? step).getD w).type.erased = w.type.erased ∧ ((v.slot? step).getD w).Typed := by
  have hresolved : w.type.Resolved := Ty.Resolved.slot? hv.here.1 hslot
  cases hread : v.slot? step with
  | none => exact ⟨rfl, typed_of_datum?_eq_none hresolved hw⟩
  | some u =>
    have hu : u.Typed := hv.slot? hread
    have hsame := Fits.same_slot? hv.here.2 hv.here.1 hv.here.1 (Ty.same_refl _) hread hslot
    exact ⟨Ty.erased_eq_of_same hu.here.1 hresolved hsame, hu⟩

/-- Typed, unless an error has left the value without a type. -/
def Plausible (v : Value) : Prop := v.type.isUnknown = true ∨ v.Typed

theorem Plausible.typed {v : Value} (h : v.Plausible) (htype : v.type.isUnknown = false) :
    v.Typed := by
  refine h.resolve_left fun hunknown => ?_
  rw [htype] at hunknown
  cases hunknown

theorem plausible_of_datum?_eq_none {v : Value} (htype : v.type.isUnknown = true ∨ v.type.Resolved)
    (h : v.datum? = none) : v.Plausible :=
  htype.imp_right (typed_of_datum?_eq_none · h)

/-- Two analyses may disagree on what is known of a value, and on the names its type goes by. -/
structure Twin (v v' : Value) : Prop where
  erased : v.type.erased = v'.type.erased
  left : v.Plausible
  right : v'.Plausible

theorem Twin.refl {v : Value} (h : v.Plausible) : v.Twin v := ⟨rfl, h, h⟩

/-- Values of unknown type are twins if their types are. -/
theorem twin_invalid {a b : Ty} (h : a.erased = b.erased) (hunknown : a.isUnknown = true) :
    (invalid a).Twin (invalid b) :=
  ⟨h, .inl hunknown, .inl ((Ty.isUnknown_congr h).symm.trans hunknown)⟩

end Value

open Value (Twin)

/-! ### Operators and casts -/

/-- The remark is on the types of the operands, not on their values. -/
def Remark.isStatic : Remark → Bool
  | .floatingPointEquality | .unsupportedOperation => true
  | .divisionByZero | .integerOverflow => false

/-- The operation is of the given type, and the given remarks are those made on types. -/
structure Operation.Typed (o : Operation) (typing : Ty × List Remark) : Prop where
  type : o.value.type = typing.1
  isPlausible : o.value.Plausible
  remarks : o.remarks.filter Remark.isStatic = typing.2

namespace Operation

theorem typed_poisoned {type : Ty} (h : type.isUnknown = true) : (poisoned type).Typed (type, []) :=
  ⟨rfl, .inl h, rfl⟩

theorem typed_unsupported (span : Span) :
    (unsupported span).Typed (.unknown span, [.unsupportedOperation]) :=
  ⟨rfl, .inl rfl, rfl⟩

theorem typed_computed {type : Ty} {remarks static : List Remark} {d? : Option Datum}
    (htype : type.Resolved) (hremarks : remarks.filter Remark.isStatic = static)
    (h : ∀ d, d? = some d → (Value.known type d).Sound) :
    (computed type remarks d?).Typed (type, static) := by
  cases d? with
  | some d => exact ⟨rfl, .inr (h d rfl).typed, hremarks⟩
  | none =>
    refine ⟨rfl, .inr (Value.typed_of_datum?_eq_none htype rfl), ?_⟩
    rw [computed, List.filter_append, hremarks]
    exact List.append_nil _

end Operation

namespace BinaryOp

/-- The type of an operation and the remarks on it, as far as the types of the operands go. -/
def typing (op : BinaryOp) (l r : Ty) (span : Span) : Ty × List Remark :=
  if l.isUnknown then (l, [])
  else if r.isUnknown then (r, [])
  else
    match op.resultType? l.operandKind r.operandKind with
    | none => (.unknown span, [.unsupportedOperation])
    | some type =>
      (type, if op.isEquality ∧ (l.operandKind = .real ∨ r.operandKind = .real)
        then [.floatingPointEquality] else [])

theorem typing_apply (op : BinaryOp) {l r : Value} (hl : l.Plausible) (hr : r.Plausible)
    (span : Span) : (op.apply l r span).Typed (op.typing l.type r.type span) := by
  unfold apply typing
  by_cases hlu : l.type.isUnknown = true
  · rw [if_pos hlu, if_pos hlu]
    exact Operation.typed_poisoned hlu
  rw [if_neg hlu, if_neg hlu]
  by_cases hru : r.type.isUnknown = true
  · rw [if_pos hru, if_pos hru]
    exact Operation.typed_poisoned hru
  rw [if_neg hru, if_neg hru]
  dsimp only
  cases htype : op.resultType? l.type.operandKind r.type.operandKind with
  | none => exact Operation.typed_unsupported span
  | some type =>
    have hresolved : type.Resolved :=
      Ty.resolved_of_isAtom (Ty.isAtom_of_isBasic (isBasic_of_resultType? htype))
    have hremarks {c : Prop} [Decidable c] :
        (if c then [Remark.floatingPointEquality] else []).filter Remark.isStatic =
          if c then [.floatingPointEquality] else [] := by
      split <;> rfl
    dsimp only
    split
    · refine ⟨rfl, .inr (Value.typed_of_datum?_eq_none hresolved rfl), ?_⟩
      rw [List.filter_append, hremarks]
      exact List.append_nil _
    split
    · rename_i a b ha hb
      refine Operation.typed_computed hresolved hremarks fun d hd => ?_
      have hlf := (hl.typed (Bool.eq_false_iff.mpr hlu)).here.2
      have hrf := (hr.typed (Bool.eq_false_iff.mpr hru)).here.2
      exact Value.Fits.binary hlf hrf htype ha hb hd
    · exact ⟨rfl, .inr (Value.typed_pending hresolved _), hremarks⟩

theorem typing_congr (op : BinaryOp) {l r l' r' : Ty} (hl : l.erased = l'.erased)
    (hr : r.erased = r'.erased) (span : Span) :
    (op.typing l r span).1.erased = (op.typing l' r' span).1.erased ∧
      (op.typing l r span).2 = (op.typing l' r' span).2 := by
  unfold typing
  rw [Ty.isUnknown_congr hl, Ty.isUnknown_congr hr, Ty.operandKind_congr hl,
    Ty.operandKind_congr hr]
  split
  · exact ⟨hl, rfl⟩
  split
  · exact ⟨hr, rfl⟩
  · exact ⟨rfl, rfl⟩

end BinaryOp

namespace UnaryOp

def typing (op : UnaryOp) (operand : Ty) (span : Span) : Ty × List Remark :=
  if operand.isUnknown then (operand, [])
  else
    match op.resultType? operand.operandKind with
    | none => (.unknown span, [.unsupportedOperation])
    | some type => (type, [])

theorem typing_apply (op : UnaryOp) {v : Value} (hv : v.Plausible) (span : Span) :
    (op.apply v span).Typed (op.typing v.type span) := by
  unfold apply typing
  by_cases hvu : v.type.isUnknown = true
  · rw [if_pos hvu, if_pos hvu]
    exact Operation.typed_poisoned hvu
  rw [if_neg hvu, if_neg hvu]
  cases htype : op.resultType? v.type.operandKind with
  | none => exact Operation.typed_unsupported span
  | some type =>
    have hresolved : type.Resolved :=
      Ty.resolved_of_isAtom (Ty.isAtom_of_isBasic (isBasic_of_resultType? htype))
    dsimp only
    split
    · rename_i a ha
      refine Operation.typed_computed hresolved rfl fun d hd => ?_
      exact Value.Fits.unary (hv.typed (Bool.eq_false_iff.mpr hvu)).here.2 htype ha hd
    · exact ⟨rfl, .inr (Value.typed_pending hresolved _), rfl⟩

theorem typing_congr (op : UnaryOp) {v v' : Ty} (h : v.erased = v'.erased) (span : Span) :
    (op.typing v span).1.erased = (op.typing v' span).1.erased ∧
      (op.typing v span).2 = (op.typing v' span).2 := by
  unfold typing
  rw [Ty.isUnknown_congr h, Ty.operandKind_congr h]
  split
  · exact ⟨h, rfl⟩
  · exact ⟨rfl, rfl⟩

end UnaryOp

namespace Value

@[simp]
theorem type_cast (v : Value) (target : Ty) : (v.cast target).value.type = target := by
  unfold Value.cast
  split
  · rfl
  split
  · rfl
  split
  · split
    · split <;> rfl
    · rfl
  · rfl

theorem Plausible.cast {v : Value} {target : Ty} (hv : v.Plausible)
    (htarget : target.isUnknown = true ∨ target.Resolved) :
    (v.cast target).value.Plausible := by
  unfold Value.cast
  split
  · exact plausible_of_datum?_eq_none htarget rfl
  rename_i hknown
  rw [Bool.or_eq_true, not_or] at hknown
  have htype := hv.typed (Bool.eq_false_iff.mpr hknown.1)
  have hresolved := htarget.resolve_left hknown.2
  split
  · rename_i hconvertible
    exact .inr (htype.convertTo hresolved hconvertible)
  split
  · split
    · split
      · rename_i d hd
        exact .inr (sound_known_of_cast? hresolved hd).typed
      · exact plausible_of_datum?_eq_none htarget rfl
    · exact plausible_of_datum?_eq_none htarget (datum?_pending ..)
  · exact plausible_of_datum?_eq_none htarget rfl

theorem kind_cast_congr {v v' : Value} (h : v.type.erased = v'.type.erased) (target : Ty) :
    (v.cast target).kind = (v'.cast target).kind := by
  have hkind (v : Value) : (v.cast target).kind =
      if v.type.isUnknown || target.isUnknown then .explicit
      else if v.type.convertible target then .redundant
      else if v.type.castable target then .explicit
      else .invalid := by
    unfold Value.cast
    split
    · rfl
    split
    · rfl
    split
    · split
      · split <;> rfl
      · rfl
    · rfl
  rw [hkind v, hkind v', Ty.isUnknown_congr h, (Ty.relations_congr h rfl).2.1, Ty.castable_congr h]

end Value

/-! ### Two analyses -/

/-- What is reported under the code depends on values. -/
def Code.isDynamic : Code → Bool
  | .divisionByZero | .indexOutOfBounds => true
  | _ => false

/-- The code and the place of what is reported, if it does not depend on values. -/
def Event.mark? : Event → Option (Code × Span)
  | .found f => if f.cause.code.isDynamic then none else some (f.cause.code, f.span)
  | .notConstant span => some (.constantExpressionExpected, span)
  | .overflow _ | .typed .. => none

/-- An overflow makes a difference to the advice only. -/
theorem Event.map_findings (overflows : List Span) (es : List Event) :
    ((findings overflows es).filter (!·.cause.code.isDynamic)).map
        (fun f => (f.cause.code, f.span)) = es.filterMap mark? := by
  fun_induction findings overflows es with
  | case1 => rfl
  | case2 overflows f rest ih =>
    cases h : f.cause.code.isDynamic with
    | true => simp [h, mark?, ih]
    | false => simp [h, mark?, ih]
  | case3 overflows span rest ih => exact congrArg (_ :: ·) ih
  | case4 overflows span rest ih => exact ih
  | case5 overflows id type rest ih => exact ih

namespace Traced

variable {α β α' β' : Type}

/-- The two analyses report the same, values apart, and their results are related by `r`. -/
structure Agrees (r : α → α' → Prop) (x : Traced α) (y : Traced α') : Prop where
  result : r x.result y.result
  marks : x.pick Event.mark? = y.pick Event.mark?

variable {r : α → α' → Prop} {q : β → β' → Prop}

theorem agrees_refl (x : Traced α) : Agrees Eq x x := ⟨rfl, rfl⟩

theorem agrees_pure {a : α} {a' : α'} (h : r a a') : Agrees r (pure a) (pure a') := ⟨h, rfl⟩

theorem Agrees.bind {x : Traced α} {y : Traced α'} {f : α → Traced β} {g : α' → Traced β'}
    (hx : Agrees r x y) (hf : ∀ a a', r a a' → Agrees q (f a) (g a')) :
    Agrees q (x >>= f) (y >>= g) := by
  have hrest := hf _ _ hx.result
  exact ⟨hrest.result, by rw [pick_bind, pick_bind, hx.marks, hrest.marks]⟩

theorem agrees_report {cause cause' : Cause} (span : Span) (h : cause.code = cause'.code) :
    Agrees Eq (report cause span) (report cause' span) := by
  refine ⟨rfl, ?_⟩
  simp only [pick, events_report, List.filterMap_cons, Event.mark?, h]

theorem agrees_report_bind {cause cause' : Cause} (span : Span) {x : Traced β} {y : Traced β'}
    (hxy : Agrees q x y) (h : cause.code = cause'.code) :
    Agrees q (report cause span >>= fun _ => x) (report cause' span >>= fun _ => y) :=
  (agrees_report span h).bind fun _ _ _ => hxy

/-- The rule for a conditional report in front of an analysis. -/
theorem agrees_report_unless_bind {c c' : Prop} [Decidable c] [Decidable c'] (hc : c ↔ c')
    {cause cause' : Cause} (span : Span) {x : Traced β} {y : Traced β'} (hxy : Agrees q x y)
    (h : cause.code = cause'.code) :
    Agrees q (if c then x else report cause span >>= fun _ => x)
      (if c' then y else report cause' span >>= fun _ => y) := by
  by_cases hcase : c
  · rwa [if_pos hcase, if_pos (hc.mp hcase)]
  · rw [if_neg hcase, if_neg (mt hc.mpr hcase)]
    exact agrees_report_bind span hxy h

end Traced

/-- The analysis reads a place of the given type: nothing is reported of it that is not about
values. -/
structure Traced.Reads (x : Traced Value) (type : Ty) : Prop where
  erased : x.result.type.erased = type.erased
  isPlausible : x.result.Plausible
  marks : x.Silent Event.mark?

theorem Traced.Reads.agrees {x y : Traced Value} {type type' : Ty} (hx : x.Reads type)
    (hy : y.Reads type') (h : type.erased = type'.erased) : Agrees Twin x y :=
  ⟨⟨hx.erased.trans (h.trans hy.erased.symm), hx.isPlausible, hy.isPlausible⟩,
    hx.marks.trans hy.marks.symm⟩

end Pseudocode
