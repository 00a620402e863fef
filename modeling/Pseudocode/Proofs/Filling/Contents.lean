import Pseudocode.Analysis.Initializer
import Pseudocode.Proofs.Path.Reach
import Pseudocode.Proofs.Semantic.Parts
import Pseudocode.Proofs.Value.Everywhere

/-!
# What a braced initializer is made of

The value of a braced initializer holds what its items put into the slots of the target, and in the
other slots what is there initially. The analysed tree still tells which slot each item is for, so
`stores` can list what an initializer stores and where. Whatever holds throughout the expressions
that the items are made of, and is not lost where these are stored, holds throughout the value.
-/

namespace Pseudocode

namespace Analysis

/-! ### Positions in the analysed tree -/

/-- The place that analysed designators lead to, from one that `steps` lead to. -/
def follow? : List Step × Ty → List Semantic.Designator → Option (List Step × Ty)
  | place, [] => some place
  | (steps, type), d :: rest =>
    (select type d).result.bind fun slot => follow? (steps ++ [slot.1], slot.2) rest

/-- The position of an item with analysed designators, or else the one after `cursor`. -/
def position? (target : Ty) (cursor : Option Path) (ds : List Semantic.Designator) : Option Path :=
  if ds.isEmpty then cursor.elim (Path.start? target) (·.advance? target)
  else (follow? ([], target) ds).bind fun place => Path.ofSteps? place.1 place.2

theorem slot?_of_select {aggregate : Ty} {d : Semantic.Designator} {slot : Step × Ty}
    (h : (select aggregate d).result = some slot) : aggregate.slot? slot.1 = some slot.2 := by
  cases d with
  | index site e =>
    rw [select] at h
    split at h
    · cases h
    split at h
    · cases h
    split at h
    · cases h
    split at h
    · rename_i hstep
      cases h
      exact Ty.slot?_of_indexStep hstep
    · cases h
  | component site name =>
    rw [select] at h
    split at h
    · cases h
    split at h
    · rename_i hstep
      cases h
      exact Ty.slot?_of_componentStep hstep
    · cases h
    · cases h

/-- Each designator leads one step deeper. -/
theorem reach?_of_follow? {target : Ty} {ds : List Semantic.Designator}
    {place place' : List Step × Ty} (hplace : target.reach? place.1 = some place.2)
    (h : follow? place ds = some place') :
    target.reach? place'.1 = some place'.2 ∧ place'.1.length = place.1.length + ds.length := by
  induction ds generalizing place with
  | nil =>
    cases h
    exact ⟨hplace, rfl⟩
  | cons d rest ih =>
    rw [follow?, Option.bind_eq_some_iff] at h
    obtain ⟨slot, hslot, hrest⟩ := h
    have hnext : target.reach? (place.1 ++ [slot.1]) = some slot.2 := by
      simp [Ty.reach?_append, hplace, Ty.reach?, slot?_of_select hslot]
    obtain ⟨hreach, hlength⟩ := ih hnext hrest
    refine ⟨hreach, ?_⟩
    rw [hlength, List.length_append, List.length_singleton, List.length_cons]
    omega

theorem validIn_of_position? {target : Ty} (hdistinct : target.Distinct) {cursor : Option Path}
    {ds : List Semantic.Designator} {p : Path} (h : position? target cursor ds = some p) :
    p.ValidIn target := by
  unfold position? at h
  split at h
  · cases cursor with
    | none => exact Path.validIn_of_start? h
    | some last => exact Path.validIn_of_advance? hdistinct h
  · obtain ⟨place, hplace, hsteps⟩ := Option.bind_eq_some_iff.mp h
    exact Path.validIn_of_ofSteps? hsteps (reach?_of_follow? rfl hplace).1

section Nodes

variable (env : Env)

theorem follow_none (ds : List Syntax.Designator) :
    follow env none ds = do
      let nodes ← designators env ds
      return (nodes, none) := by
  cases ds <;> rfl

/-- Designators lead where their nodes say. -/
theorem follow_eq_follow? (place : List Step × Ty) (ds : List Syntax.Designator) :
    (follow env (some place) ds).result.2 =
      follow? place (follow env (some place) ds).result.1 := by
  induction ds generalizing place with
  | nil => rw [follow]; rfl
  | cons d rest ih =>
    rw [follow]
    simp only [Traced.result_bind, Traced.result_pure, follow?]
    cases (select place.2 (designator env d).result).result with
    | none => rw [Option.map_none, follow_none]; rfl
    | some slot => exact ih (place.1 ++ [slot.1], slot.2)

theorem nodes_follow_ne_nil (place : List Step × Ty) (d : Syntax.Designator)
    (rest : List Syntax.Designator) : (follow env (some place) (d :: rest)).result.1 ≠ [] := by
  rw [follow]
  exact List.cons_ne_nil _ _

/-- Designators that lead to a place lead into the aggregate. -/
theorem steps_follow_ne_nil {target : Ty} {d : Syntax.Designator} {rest : List Syntax.Designator}
    {place : List Step × Ty}
    (h : (follow env (some ([], target)) (d :: rest)).result.2 = some place) : place.1 ≠ [] := by
  rw [follow_eq_follow?] at h
  have hlength := (reach?_of_follow? rfl h).2
  have hnodes := List.length_pos_iff.mpr (nodes_follow_ne_nil env ([], target) d rest)
  rw [← List.length_pos_iff, hlength]
  omega

theorem position_nil (target : Ty) (cursor : Option Path) (span : Span) :
    position env target cursor span [] = do
      let next := cursor.elim (Path.start? target) (·.advance? target)
      if next.isNone then
        Traced.report .excessItem span
      return ([], next) := by
  cases cursor <;> rfl

theorem position_eq_position? (target : Ty) (cursor : Option Path) (span : Span)
    (ds : List Syntax.Designator) :
    (position env target cursor span ds).result.2 =
      position? target cursor (position env target cursor span ds).result.1 := by
  cases ds with
  | nil =>
    rw [position_nil]
    dsimp only
    split <;> rfl
  | cons d rest =>
    have hnodes := List.isEmpty_eq_false_iff.mpr (nodes_follow_ne_nil env ([], target) d rest)
    change (follow env (some ([], target)) (d :: rest)).result.2.bind _ =
      position? target cursor (follow env (some ([], target)) (d :: rest)).result.1
    rw [position?, hnodes, if_neg Bool.false_ne_true, follow_eq_follow?]

theorem result_initializer_aggregate {target : Ty} (h : target.isAggregate = true) (span : Span)
    (items : List Syntax.Item) :
    (initializer env target (.braced ⟨span, items⟩)).result =
      .braced (env.site span) (placedItems env target target.initial none items).result.1
        (placedItems env target target.initial none items).result.2 := by
  rw [initializer, if_pos h]
  rfl

theorem result_initializer_free {target : Ty} (h : ¬ target.isAggregate = true) (span : Span)
    (items : List Syntax.Item) :
    (initializer env target (.braced ⟨span, items⟩)).result =
      .braced (env.site span) (.invalid target) (freeItems env items).result := by
  rw [initializer, if_neg h]
  dsimp only
  split <;> rfl

end Nodes

end Analysis

/-! ### What is stored -/

namespace Semantic

mutual

/-- What an initializer for `target` puts into slots, at any depth: the types of the slots and the
values. -/
def Initializer.stores (target : Ty) : Initializer → List (Ty × Value)
  | .expr _ => []
  | .braced _ _ items => itemStores target none items

def itemStores (target : Ty) (cursor : Option Path) : List Item → List (Ty × Value)
  | [] => []
  | .directive _ :: rest => itemStores target cursor rest
  | .value ⟨site, designators, init⟩ :: rest =>
    let position := Analysis.position? target cursor designators
    position.toList.map (fun path => (path.type, init.value)) ++
      init.stores (Analysis.itemType position site.span) ++
      itemStores target (position.or cursor) rest

end

end Semantic

namespace Analysis

/-- What initializers keep of `p`, on the assumption that types are as `r` says. -/
structure Kept (p : Value → Prop) (r : Ty → Prop) : Prop where
  initial : ∀ {t : Ty}, t.Everywhere r → t.initial.Everywhere p
  unknown : ∀ origin : Span, r (.unknown origin)
  invalid : ∀ t : Ty, p (.invalid t)
  modifySlot : ∀ {v : Value} (step : Step) (f : Value → Value), p v → p (v.modifySlot step f)

variable {p : Value → Prop} {r : Ty → Prop}

theorem Kept.everywhere_invalid (h : Kept p r) (t : Ty) : (Value.invalid t).Everywhere p :=
  Value.everywhere_of_contents_eq_nil (h.invalid t) rfl

theorem Kept.everywhere_place (h : Kept p r) {v item : Value} {position : Option Path}
    (hv : v.Everywhere p) (hitem : item.Everywhere p)
    (hstored : ∀ path, position = some path → p (item.storedAs path.type)) :
    (place v position item).Everywhere p := by
  cases position with
  | none => exact hv
  | some path => exact hv.set h.modifySlot (hitem.storedAs (hstored path rfl)) _

mutual

/-- What holds throughout the expressions of an initializer, and is not lost where they are stored,
holds throughout the value that it makes. -/
theorem Kept.everywhere_initializer (hkept : Kept p r) (env : Env) {target : Ty}
    (hdistinct : target.Distinct) (htarget : target.Everywhere r) :
    ∀ init : Syntax.Initializer,
      (∀ e ∈ (initializer env target init).result.sources, e.value.Everywhere p) →
      (∀ s ∈ (initializer env target init).result.stores target, p s.2 → p (s.2.storedAs s.1)) →
      (initializer env target init).result.value.Everywhere p
  | .expr e, hsources, _ => by
    rw [initializer] at hsources ⊢
    exact hsources _ (List.mem_singleton.mpr rfl)
  | .braced ⟨span, items⟩, hsources, hstores => by
    by_cases haggregate : target.isAggregate = true
    · rw [result_initializer_aggregate env haggregate] at hsources hstores ⊢
      have hinitial := hkept.initial htarget
      exact hkept.everywhere_placedItems env hdistinct htarget hinitial none items hsources hstores
    · rw [result_initializer_free env haggregate]
      exact hkept.everywhere_invalid target

theorem Kept.everywhere_placedItems (hkept : Kept p r) (env : Env) {target : Ty}
    (hdistinct : target.Distinct) (htarget : target.Everywhere r) {aggregate : Value}
    (hv : aggregate.Everywhere p) (cursor : Option Path) :
    ∀ items : List Syntax.Item,
      (∀ e ∈ Semantic.itemSources (placedItems env target aggregate cursor items).result.2,
        e.value.Everywhere p) →
      (∀ s ∈ Semantic.itemStores target cursor
          (placedItems env target aggregate cursor items).result.2, p s.2 → p (s.2.storedAs s.1)) →
      (placedItems env target aggregate cursor items).result.1.Everywhere p
  | [], _, _ => hv
  | .directive d :: rest, hsources, hstores => by
    rw [placedItems] at hsources hstores ⊢
    exact hkept.everywhere_placedItems env hdistinct htarget hv cursor rest hsources hstores
  | .value ⟨span, designators, value⟩ :: rest, hsources, hstores => by
    rw [placedItems] at hsources hstores ⊢
    simp only [Traced.result_bind, Traced.result_pure, Semantic.itemSources, Semantic.itemStores,
      ← position_eq_position?] at hsources hstores ⊢
    generalize hposition : (position env target cursor span designators).result.2 = path at *
    have hitem : (itemType path span).Distinct ∧ (itemType path span).Everywhere r := by
      cases path with
      | none =>
        exact ⟨Ty.everywhere_unknown.mpr trivial, Ty.everywhere_unknown.mpr (hkept.unknown span)⟩
      | some path =>
        rw [position_eq_position?] at hposition
        have hvalid := validIn_of_position? hdistinct hposition
        exact ⟨hdistinct.reach? hvalid, htarget.reach? hvalid⟩
    have hvalue := hkept.everywhere_initializer env hitem.1 hitem.2 value
      (fun e he => hsources e (List.mem_append_left _ he))
      fun s hs => hstores s (List.mem_append_left _ (List.mem_append_right _ hs))
    have hstored (slot : Path) (hslot : path = some slot) :
        p ((initializer env (itemType path span) value).result.value.storedAs slot.type) := by
      subst hslot
      refine hstores (slot.type, _) ?_ hvalue.here
      exact List.mem_append_left _ (List.mem_append_left _ List.mem_cons_self)
    have hplaced := hkept.everywhere_place hv hvalue hstored
    refine hkept.everywhere_placedItems env hdistinct htarget hplaced _ rest (fun e he => ?_)
      fun s hs => ?_
    · exact hsources e (List.mem_append_right _ he)
    · exact hstores s (List.mem_append_right _ hs)

end

end Analysis

end Pseudocode
