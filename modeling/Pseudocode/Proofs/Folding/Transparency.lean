import Pseudocode.Path.Basic
import Pseudocode.Proofs.Ty.Laws
import Pseudocode.Proofs.Value.AliasEq

/-!
# Aliases are transparent

Operations, casts, initial values and the positions that an initializer fills look through aliases
at each level. Operands and types that differ in aliases only, at whatever depth, are treated alike.
-/

namespace Pseudocode

/-! ### Operations -/

namespace BinaryOp

theorem onData?_other_left (op : BinaryOp) {a : Datum} (h : a.kind = .other) (b : Datum) :
    op.onData? a b = none := by
  cases a with
  | array | struct => simp [onData?, Datum.number?]
  | _ => cases h

theorem onData?_other_right (op : BinaryOp) (a : Datum) {b : Datum} (h : b.kind = .other) :
    op.onData? a b = none := by
  cases b with
  | array | struct => cases a <;> simp [onData?, Datum.number?]
  | _ => cases h

/-- No operator computes with aggregates. -/
theorem onData?_congr (op : BinaryOp) {a a' b b' : Datum} (ha : a.AliasEq a') (hb : b.AliasEq b') :
    op.onData? a b = op.onData? a' b' := by
  obtain rfl | ⟨ha, ha'⟩ := ha.eq_or_other
  · obtain rfl | ⟨hb, hb'⟩ := hb.eq_or_other
    · rfl
    · rw [op.onData?_other_right a hb, op.onData?_other_right a hb']
  · rw [op.onData?_other_left ha, op.onData?_other_left ha']

/-- The operator gives the same status and the same remarks, and types that differ in aliases
only. -/
structure Transparent (op : BinaryOp) (l l' r r' : Value) (span : Span) : Prop where
  remarks_eq : (op.apply l r span).remarks = (op.apply l' r' span).remarks
  status_eq : (op.apply l r span).value.status = (op.apply l' r' span).value.status
  erased_type : (op.apply l r span).value.type.erased = (op.apply l' r' span).value.type.erased

section Apply

variable (op : BinaryOp) {l l' r r' : Value} (hl : l.AliasEq l') (hr : r.AliasEq r') (span : Span)

include hl hr

theorem apply_congr (hlknown : l.type.isUnknown = false) (hrknown : r.type.isUnknown = false) :
    op.apply l r span = op.apply l' r' span := by
  have hlknown' : l'.type.isUnknown = false := Ty.isUnknown_congr hl.erased_type ▸ hlknown
  have hrknown' : r'.type.isUnknown = false := Ty.isUnknown_congr hr.erased_type ▸ hrknown
  simp only [apply, hlknown, hrknown, hlknown', hrknown', Bool.false_eq_true, if_false,
    Ty.operandKind_congr hl.erased_type, Ty.operandKind_congr hr.erased_type, hr.isZero_eq,
    hl.isInvalid_eq, hr.isInvalid_eq]
  obtain ⟨a, a', ha, ha', hleft⟩ | ⟨ha, ha'⟩ := hl.datum?_cases
  · obtain ⟨b, b', hb, hb', hright⟩ | ⟨hb, hb'⟩ := hr.datum?_cases
    · simp only [ha, ha', hb, hb', op.onData?_congr hleft hright]
    · simp only [ha, ha', hb, hb']
  · simp only [ha, ha']

theorem transparent : op.Transparent l l' r r' span := by
  have hlunknown := Ty.isUnknown_congr hl.erased_type
  have hrunknown := Ty.isUnknown_congr hr.erased_type
  cases hlknown : l.type.isUnknown with
  | true =>
    have happly : op.apply l r span = .poisoned l.type := by rw [apply, if_pos hlknown]
    have happly' : op.apply l' r' span = .poisoned l'.type := by
      rw [apply, if_pos (hlunknown ▸ hlknown)]
    constructor <;> rw [happly, happly']
    · rfl
    · rfl
    · exact hl.erased_type
  | false =>
    cases hrknown : r.type.isUnknown with
    | true =>
      have happly : op.apply l r span = .poisoned r.type := by
        rw [apply, if_neg (by simp [hlknown]), if_pos hrknown]
      have happly' : op.apply l' r' span = .poisoned r'.type := by
        rw [apply, if_neg (by simp [← hlunknown, hlknown]), if_pos (hrunknown ▸ hrknown)]
      constructor <;> rw [happly, happly']
      · rfl
      · rfl
      · exact hr.erased_type
    | false => constructor <;> rw [op.apply_congr hl hr span hlknown hrknown]

end Apply

end BinaryOp

/-- The same remarks, and values that differ in aliases only. -/
structure Operation.AliasEq (o o' : Operation) : Prop where
  remarks_eq : o.remarks = o'.remarks
  value_aliasEq : o.value.AliasEq o'.value

namespace UnaryOp

/-- The sign `+` hands any payload on, and the other operators compute with scalars only. -/
theorem computed_aliasEq (op : UnaryOp) {a a' : Datum} (h : a.AliasEq a') (type : Ty) :
    Operation.AliasEq (.computed type [] (op.onDatum? a)) (.computed type [] (op.onDatum? a')) := by
  cases op with
  | plus => exact ⟨rfl, .mk rfl (.known h)⟩
  | minus =>
    cases h with
    | integer n =>
      simp only [onDatum?]
      cases Integer.neg? n with
      | none => exact ⟨rfl, .mk rfl .runtime⟩
      | some m => exact ⟨rfl, .mk rfl (.known (.integer m))⟩
    | real x => exact ⟨rfl, .mk rfl (.known (.real (-x)))⟩
    | _ => exact ⟨rfl, .mk rfl .runtime⟩
  | not =>
    cases h with
    | boolean b => exact ⟨rfl, .mk rfl (.known (.boolean !b))⟩
    | _ => exact ⟨rfl, .mk rfl .runtime⟩

theorem apply_aliasEq (op : UnaryOp) {v v' : Value} (h : v.AliasEq v') (span : Span) :
    (op.apply v span).AliasEq (op.apply v' span) := by
  simp only [apply, ← Ty.isUnknown_congr h.erased_type, ← Ty.operandKind_congr h.erased_type,
    h.isInvalid_eq]
  split
  · exact ⟨rfl, .mk h.erased_type .invalid⟩
  cases op.resultType? v.type.operandKind with
  | none => exact ⟨rfl, .mk rfl .invalid⟩
  | some type =>
    obtain ⟨a, a', ha, ha', hdatum⟩ | ⟨ha, ha'⟩ := h.datum?_cases
    · simp only [ha, ha']
      exact op.computed_aliasEq hdatum type
    · simp only [ha, ha']
      exact ⟨rfl, .mk rfl (.pending _)⟩

end UnaryOp

/-! ### Casts -/

theorem Ty.castable_congr_both {a a' b b' : Ty} (ha : a.erased = a'.erased)
    (hb : b.erased = b'.erased) : a.castable b = a'.castable b' := by
  rw [castable_congr ha]
  obtain ⟨-, hun⟩ | ⟨_, _, _, hb, hb', -⟩ | ⟨_, _, hb, hb', -⟩ := unaliased_congr hb
  · rw [castable, castable, hun]
  · rw [castable, castable, hb, hb']
    cases a'.unaliased <;> rfl
  · rw [castable, castable, hb, hb']
    cases a'.unaliased <;> rfl

theorem Datum.cast?_other {d : Datum} (h : d.kind = .other) (t : Ty) : d.cast? t = none := by
  cases d with
  | array | struct => rfl
  | _ => cases h

theorem Datum.cast?_congr {d d' : Datum} {t t' : Ty} (hd : d.AliasEq d')
    (ht : t.erased = t'.erased) : d.cast? t = d'.cast? t' := by
  obtain ⟨-, hun⟩ | ⟨_, _, _, ht, ht', -⟩ | ⟨_, _, ht, ht', -⟩ := Ty.unaliased_congr ht
  · obtain rfl | ⟨hd, hd'⟩ := hd.eq_or_other
    · unfold cast?
      rw [hun]
    · rw [cast?_other hd, cast?_other hd']
  · unfold cast?
    rw [ht, ht']
    cases hd <;> rfl
  · unfold cast?
    rw [ht, ht']
    cases hd <;> rfl

/-- A cast gives a scalar. -/
theorem Datum.aliasEq_of_cast? {d e : Datum} {t : Ty} (h : d.cast? t = some e) : e.AliasEq e := by
  unfold cast? at h
  split at h
  · cases h
    exact .integer _
  · cases h
    exact .boolean _
  · obtain ⟨n, -, rfl⟩ := Option.map_eq_some_iff.mp h
    exact .integer n
  · obtain ⟨c, -, rfl⟩ := Option.map_eq_some_iff.mp h
    exact .character c
  · obtain ⟨n, -, rfl⟩ := Option.map_eq_some_iff.mp h
    exact .integer n
  · cases h

/-- Casts of the same kind to values that differ in aliases only. -/
structure Cast.AliasEq (c c' : Cast) : Prop where
  kind_eq : c.kind = c'.kind
  value_aliasEq : c.value.AliasEq c'.value

theorem Value.AliasEq.cast {v v' : Value} {t t' : Ty} (h : v.AliasEq v')
    (ht : t.erased = t'.erased) : (v.cast t).AliasEq (v'.cast t') := by
  obtain ⟨-, hconvertible, -⟩ := Ty.relations_congr h.erased_type ht
  simp only [Value.cast, ← Ty.isUnknown_congr h.erased_type, ← Ty.isUnknown_congr ht,
    ← hconvertible, ← Ty.castable_congr_both h.erased_type ht, h.isInvalid_eq]
  split
  · exact ⟨rfl, .mk ht .invalid⟩
  split
  · exact ⟨rfl, h.convertTo ht⟩
  split
  · obtain ⟨d, d', hd, hd', hdatum⟩ | ⟨hd, hd'⟩ := h.datum?_cases
    · simp only [hd, hd', Datum.cast?_congr hdatum ht]
      cases hcast : d'.cast? t' with
      | none => exact ⟨rfl, .mk ht .runtime⟩
      | some e => exact ⟨rfl, .mk ht (.known (Datum.aliasEq_of_cast? hcast))⟩
    · simp only [hd, hd']
      exact ⟨rfl, .mk ht (.pending _)⟩
  · exact ⟨rfl, .mk ht .invalid⟩

/-! ### Slots and positions -/

namespace Ty

variable (t : Ty)

theorem indexStep_erased (index : Int32) :
    t.erased.indexStep index = (t.indexStep index).map (Prod.map id erased) := by
  obtain ⟨hscalar, he⟩ | ⟨item, length, hu, he⟩ | ⟨components, hu, he⟩ := t.unaliased_cases
  · rw [isAggregate] at hscalar
    simp only [indexStep, he, unaliased_unaliased]
    split <;> simp_all [Except.map]
  · simp only [indexStep, hu, he, unaliased]
    split <;> rfl
  · simp only [indexStep, hu, he, unaliased]
    rfl

theorem componentStep_erased (name : String) :
    t.erased.componentStep name = (t.componentStep name).map (Prod.map id erased) := by
  obtain ⟨hscalar, he⟩ | ⟨item, length, hu, he⟩ | ⟨components, hu, he⟩ := t.unaliased_cases
  · rw [isAggregate] at hscalar
    simp only [componentStep, he, unaliased_unaliased]
    split <;> simp_all [Except.map]
  · simp only [componentStep, hu, he, unaliased]
    rfl
  · simp only [componentStep, hu, he, unaliased, lookup_erasedComponents]
    cases components.lookup name <;> rfl

theorem slot?_erased (step : Step) : t.erased.slot? step = (t.slot? step).map erased := by
  obtain ⟨hscalar, he⟩ | ⟨item, length, hu, he⟩ | ⟨components, hu, he⟩ := t.unaliased_cases
  · rw [isAggregate] at hscalar
    simp only [slot?, he, unaliased_unaliased]
    split <;> simp_all
  · cases step with
    | index i =>
      simp only [slot?, hu, he, unaliased]
      split <;> rfl
    | component name => simp only [slot?, hu, he, unaliased, Option.map_none]
  · cases step with
    | index i => simp only [slot?, hu, he, unaliased, Option.map_none]
    | component name => simp only [slot?, hu, he, unaliased, lookup_erasedComponents]

theorem head?_erasedComponents (components : List (String × Ty)) :
    (erasedComponents components).head? = components.head?.map (Prod.map id erased) := by
  cases components <;> rfl

theorem componentsAfter_erased (name : String) (components : List (String × Ty)) :
    componentsAfter name (erasedComponents components) =
      erasedComponents (componentsAfter name components) := by
  induction components with
  | nil => rfl
  | cons head rest ih =>
    simp only [erasedComponents, componentsAfter]
    split
    · rfl
    · exact ih

theorem firstSlot?_erased : t.erased.firstSlot? = t.firstSlot?.map (Prod.map id erased) := by
  obtain ⟨hscalar, he⟩ | ⟨item, length, hu, he⟩ | ⟨components, hu, he⟩ := t.unaliased_cases
  · rw [isAggregate] at hscalar
    simp only [firstSlot?, he, unaliased_unaliased]
    split <;> simp_all
  · simp only [firstSlot?, hu, he, unaliased]
    split <;> rfl
  · simp only [firstSlot?, hu, he, unaliased, head?_erasedComponents]
    cases components <;> rfl

theorem nextSlot?_erased (step : Step) :
    t.erased.nextSlot? step = (t.nextSlot? step).map (Prod.map id erased) := by
  obtain ⟨hscalar, he⟩ | ⟨item, length, hu, he⟩ | ⟨components, hu, he⟩ := t.unaliased_cases
  · rw [isAggregate] at hscalar
    simp only [nextSlot?, he, unaliased_unaliased]
    split <;> simp_all
  · cases step with
    | index i =>
      simp only [nextSlot?, hu, he, unaliased]
      split <;> rfl
    | component name => simp only [nextSlot?, hu, he, unaliased, Option.map_none]
  · cases step with
    | index i => simp only [nextSlot?, hu, he, unaliased, Option.map_none]
    | component name =>
      simp only [nextSlot?, hu, he, unaliased, componentsAfter_erased, head?_erasedComponents]
      cases componentsAfter name components <;> rfl

end Ty

namespace Path

/-- The same steps, to a type without aliases. -/
def erased (p : Path) : Path := ⟨p.first, p.rest, p.type.erased⟩

theorem ofSlot_erased (slot : Option (Step × Ty)) :
    (slot.map (Prod.map id Ty.erased)).map ofSlot = (slot.map ofSlot).map erased := by
  cases slot <;> rfl

theorem start?_erased (t : Ty) : start? t.erased = (start? t).map erased := by
  rw [start?, start?, Ty.firstSlot?_erased, ofSlot_erased]

theorem next?_erased (t : Ty) (first : Step) (rest : List Step) :
    next? t.erased first rest = (next? t first rest).map erased := by
  induction rest generalizing t first with
  | nil => rw [next?, next?, Ty.nextSlot?_erased, ofSlot_erased]
  | cons second rest ih =>
    rw [next?, next?, Ty.slot?_erased]
    cases t.slot? first with
    | none => rfl
    | some inner =>
      simp only [Option.map_some, ih inner second]
      cases next? inner second rest with
      | none =>
        simp only [Option.map_none, Ty.nextSlot?_erased, ofSlot_erased]
      | some p => rfl

theorem advance?_congr {t t' : Ty} (h : t.erased = t'.erased) {p p' : Path}
    (hsteps : p.steps = p'.steps) :
    (p.advance? t).map erased = (p'.advance? t').map erased := by
  obtain ⟨hfirst, hrest⟩ := List.cons.inj hsteps
  rw [advance?, advance?, ← next?_erased, ← next?_erased, h, hfirst, hrest]

end Path

/-! ### Transparency -/

/-- The types have the same slots and positions, with types in them that differ in aliases only,
and initial values that do as well. -/
structure Ty.Transparent (t t' : Ty) : Prop where
  indexStep : ∀ index, (t.indexStep index).map (Prod.map id erased) =
    (t'.indexStep index).map (Prod.map id erased)
  componentStep : ∀ name, (t.componentStep name).map (Prod.map id erased) =
    (t'.componentStep name).map (Prod.map id erased)
  start? : (Path.start? t).map Path.erased = (Path.start? t').map Path.erased
  advance? : ∀ p p' : Path, p.steps = p'.steps →
    (p.advance? t).map Path.erased = (p'.advance? t').map Path.erased
  initial : t.initial.AliasEq t'.initial

theorem Ty.transparent {t t' : Ty} (h : t.erased = t'.erased) : t.Transparent t' where
  indexStep index := by rw [← indexStep_erased, ← indexStep_erased, h]
  componentStep name := by rw [← componentStep_erased, ← componentStep_erased, h]
  start? := by rw [← Path.start?_erased, ← Path.start?_erased, h]
  advance? _ _ hsteps := Path.advance?_congr h hsteps
  initial := aliasEq_initial h

/-- **Aliases are transparent** to operations, to casts, to the slots and positions of aggregates
and to initial values. -/
theorem aliases_are_transparent :
    (∀ (op : BinaryOp) (l l' r r' : Value) (span : Span), l.AliasEq l' → r.AliasEq r' →
      op.Transparent l l' r r' span) ∧
    (∀ (op : UnaryOp) (v v' : Value) (span : Span), v.AliasEq v' →
      (op.apply v span).AliasEq (op.apply v' span)) ∧
    (∀ (v v' : Value) (t t' : Ty), v.AliasEq v' → t.erased = t'.erased →
      (v.cast t).AliasEq (v'.cast t')) ∧
    ∀ t t' : Ty, t.erased = t'.erased → t.Transparent t' := by
  refine ⟨?_, ?_, ?_, ?_⟩
  · intro op l l' r r' span hl hr
    exact op.transparent hl hr span
  · intro op v v' span h
    exact op.apply_aliasEq h span
  · intro v v' t t' h ht
    exact h.cast ht
  · intro t t' h
    exact Ty.transparent h

/-- Aliases of an array, of its elements and of a component do not matter. -/
theorem aliased_rows_are_transparent :
    let count : Ty := .aliased "Count" .integer
    let rows : Ty := .aliased "Rows" (.array (.aliased "Row" (.struct [("n", count)])) 3)
    let plain : Ty := .array (.struct [("n", .integer)]) 3
    let one : Value := .known count (.integer 1)
    one.AliasEq (.integer 1) ∧ rows.initial.AliasEq plain.initial ∧ rows.Transparent plain ∧
    BinaryOp.add.Transparent one (.integer 1) one (.integer 1) ⟨0, 1⟩ ∧
    (UnaryOp.minus.apply one ⟨0, 1⟩).AliasEq (UnaryOp.minus.apply (.integer 1) ⟨0, 1⟩) ∧
    (rows.initial.cast plain).AliasEq (plain.initial.cast rows) := by
  intro count rows plain one
  obtain ⟨hbinary, hunary, hcast, htype⟩ := aliases_are_transparent
  have hone : one.AliasEq (.integer 1) := .mk (by simp [count, Ty.erased]) (.known (.integer 1))
  have hrows : rows.erased = plain.erased := by
    simp [rows, plain, count, Ty.erased, Ty.erasedComponents]
  have hinitial := (htype rows plain hrows).initial
  exact ⟨hone, hinitial, htype rows plain hrows, hbinary .add _ _ _ _ _ hone hone,
    hunary .minus _ _ _ hone, hcast _ _ _ _ hinitial hrows.symm⟩

end Pseudocode
