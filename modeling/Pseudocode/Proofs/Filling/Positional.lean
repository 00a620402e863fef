import Pseudocode.Proofs.Filling.Contents
import Pseudocode.Proofs.Path.Lens
import Pseudocode.Proofs.Path.Slots

/-!
# Filling an aggregate item by item

Items without designators take the slots of an aggregate in order. After `k` of them the cursor
stands at the last slot that was taken, and stays there once the slots are used up. So the number of
an item among the values decides which slot it is for, whatever stands in the items themselves.
-/

namespace Pseudocode

namespace Syntax

/-- The value that stands between two commas, if it is no directive. -/
def Item.value? : Item → Option ItemValue
  | .value item => some item
  | .directive _ => none

/-- Each item with the number of values in front of it, counted from `k` on. -/
def numbered (k : Nat) : List Item → List (Nat × Item)
  | [] => []
  | .directive d :: rest => (k, .directive d) :: numbered k rest
  | .value item :: rest => (k, .value item) :: numbered (k + 1) rest

end Syntax

namespace Ty

/-- Where the cursor stands after `k` items without designators. -/
def cursorAt (t : Ty) (k : Nat) : Option Path := (t.slots.take k).getLast?.map Path.ofSlot

theorem cursorAt_succ (t : Ty) (k : Nat) :
    (t.slots[k]?.map Path.ofSlot).or (t.cursorAt k) = t.cursorAt (k + 1) := by
  rw [cursorAt, cursorAt, List.take_add_one, List.getLast?_append]
  cases t.slots[k]? <;> rfl

/-- The position after the cursor is the slot of the next number. -/
theorem next_cursorAt {t : Ty} (hdistinct : t.Distinct) (k : Nat) :
    (t.cursorAt k).elim (Path.start? t) (·.advance? t) = t.slots[k]?.map Path.ofSlot := by
  cases k with
  | zero =>
    rw [← firstSlot?_eq]
    rfl
  | succ k =>
    cases hk : t.slots[k]? with
    | some slot =>
      have hcursor : t.cursorAt (k + 1) = some (Path.ofSlot slot) := by
        rw [← cursorAt_succ, hk]
        rfl
      rw [hcursor, ← nextSlot?_of_getElem? hdistinct hk]
      rfl
    | none =>
      -- All slots are taken, so the cursor is at the last one.
      have hall : t.slots.length ≤ k := List.getElem?_eq_none_iff.mp hk
      have hnone : t.slots[k + 1]? = none := List.getElem?_eq_none_iff.mpr (by omega)
      rw [cursorAt, List.take_of_length_le (by omega), hnone, List.getLast?_eq_getElem?]
      cases hlast : t.slots[t.slots.length - 1]? with
      | none =>
        have hempty : t.slots[0]? = none := by
          have := List.getElem?_eq_none_iff.mp hlast
          exact List.getElem?_eq_none_iff.mpr (by omega)
        change Path.start? t = none
        rw [Path.start?, firstSlot?_eq, hempty]
        rfl
      | some slot =>
        have hpos := (List.getElem?_eq_some_iff.mp hlast).1
        have hend : t.slots[t.slots.length - 1 + 1]? = none :=
          List.getElem?_eq_none_iff.mpr (by omega)
        change (t.nextSlot? slot.1).map Path.ofSlot = none
        rw [nextSlot?_of_getElem? hdistinct hlast, hend]
        rfl

end Ty

namespace Analysis

open Syntax (numbered)

/-- The type that value number `k` is for: that of the slot with this number, if there is one. -/
def numberedType (t : Ty) (k : Nat) (span : Span) : Ty :=
  (t.slots[k]?.map (·.2)).getD (.unknown span)

/-- Reports value number `k` if there is no slot for it. -/
def excess (t : Ty) (k : Nat) (span : Span) : Traced Unit :=
  if k < t.slots.length then pure () else Traced.report .excessItem span

/-- What a numbered item leaves behind. A value for which there is no slot is reported. -/
def numberedEvents (env : Env) (t : Ty) : Nat × Syntax.Item → List Event
  | (_, .directive d) => (directive env d).events
  | (k, .value item) =>
    (excess t k item.span).events ++
      (initializer env (numberedType t k item.span) item.value).events

/-- The node of a numbered item. -/
def numberedNode (env : Env) (t : Ty) : Nat × Syntax.Item → Semantic.Item
  | (_, .directive d) => .directive (directive env d).result
  | (k, .value item) =>
    .value ⟨env.site item.span, [],
      (initializer env (numberedType t k item.span) item.value).result⟩

variable {env : Env} {t : Ty} {item : Syntax.ItemValue}

/-! ### One item -/

theorem itemType_slot (t : Ty) (k : Nat) (span : Span) :
    itemType (t.slots[k]?.map Path.ofSlot) span = numberedType t k span := by
  unfold itemType numberedType
  cases t.slots[k]? <;> rfl

theorem position_cursorAt (hdistinct : t.Distinct) (k : Nat) (span : Span) :
    position env t (t.cursorAt k) span [] = do
      excess t k span
      return ([], t.slots[k]?.map Path.ofSlot) := by
  rw [position_nil, Ty.next_cursorAt hdistinct, excess]
  by_cases hk : k < t.slots.length
  · simp [hk]
  · simp [hk]

/-- A value without designators goes to the slot of its number. -/
theorem placedItems_undesignated (hdistinct : t.Distinct) (hitem : item.designators = [])
    (k : Nat) (aggregate : Value) (rest : List Syntax.Item) :
    placedItems env t aggregate (t.cursorAt k) (.value item :: rest) = do
      excess t k item.span
      let value ← initializer env (numberedType t k item.span) item.value
      let filled ← placedItems env t
        (place aggregate (t.slots[k]?.map Path.ofSlot) value.value) (t.cursorAt (k + 1)) rest
      return (filled.1, .value ⟨env.site item.span, [], value⟩ :: filled.2) := by
  obtain ⟨span, designators, value⟩ := item
  subst hitem
  rw [placedItems, position_cursorAt hdistinct]
  simp only [bind_assoc, pure_bind, itemType_slot, Ty.cursorAt_succ]

/-- What the slots hold after a value is put in its place. -/
theorem slot?_place (hdistinct : t.Distinct) {j : Nat} {slot : Step × Ty}
    (hslot : t.slots[j]? = some slot) (aggregate : Value) (k : Nat) (value : Value) :
    (place aggregate (t.slots[k]?.map Path.ofSlot) value).slot? slot.1 =
      (aggregate.slot? slot.1).map fun old =>
        if j = k then value.storedAs slot.2 else old := by
  cases hk : t.slots[k]? with
  | none =>
    have hne : j ≠ k := by
      rintro rfl
      rw [hk] at hslot
      cases hslot
    simp [place, hne]
  | some other =>
    change (aggregate.modifySlot other.1 _).slot? slot.1 = _
    by_cases hjk : j = k
    · subst hjk
      rw [hslot] at hk
      cases hk
      rw [Value.slot?_modifySlot_self]
      simp [Path.ofSlot, Value.set]
    · have hne : slot.1 ≠ other.1 := by
        intro heq
        have hnumber := Ty.slotNumber_of_getElem? hdistinct hslot
        rw [heq, Ty.slotNumber_of_getElem? hdistinct hk] at hnumber
        exact hjk hnumber.symm
      rw [Value.slot?_modifySlot_of_ne _ hne]
      simp [hjk]

/-! ### All items -/

theorem surface_place (aggregate : Value) (position : Option Path) (value : Value) :
    (place aggregate position value).surface = aggregate.surface := by
  cases position with
  | none => rfl
  | some path => exact Value.surface_modifySlot aggregate path.first _

/-- Items change what is in the aggregate and not its shape. -/
theorem surface_placedItems (env : Env) (t : Ty) (aggregate : Value) (cursor : Option Path)
    (items : List Syntax.Item) :
    (placedItems env t aggregate cursor items).result.1.surface = aggregate.surface := by
  induction items generalizing aggregate cursor with
  | nil =>
    rw [placedItems]
    rfl
  | cons head rest ih =>
    cases head with
    | directive d =>
      rw [placedItems]
      exact ih aggregate cursor
    | value item =>
      obtain ⟨span, designators, value⟩ := item
      rw [placedItems]
      exact (ih _ _).trans (surface_place aggregate _ _)

section Run

variable {items : List Syntax.Item} (hdistinct : t.Distinct)
  (hitems : ∀ item ∈ items.filterMap Syntax.Item.value?, item.designators = [])

include hdistinct hitems

theorem events_placedItems (k : Nat) (aggregate : Value) :
    (placedItems env t aggregate (t.cursorAt k) items).events =
      (numbered k items).flatMap (numberedEvents env t) := by
  induction items generalizing k aggregate with
  | nil =>
    rw [placedItems]
    rfl
  | cons head rest ih =>
    cases head with
    | directive d =>
      rw [placedItems, numbered, List.flatMap_cons, ← ih hitems k aggregate]
      simp [numberedEvents]
    | value item =>
      obtain ⟨hitem, hrest⟩ := List.forall_mem_cons.mp hitems
      rw [placedItems_undesignated hdistinct hitem, numbered, List.flatMap_cons]
      simp only [Traced.events_bind, Traced.events_pure, List.append_nil, ih hrest, numberedEvents,
        List.append_assoc]

theorem nodes_placedItems (k : Nat) (aggregate : Value) :
    (placedItems env t aggregate (t.cursorAt k) items).result.2 =
      (numbered k items).map (numberedNode env t) := by
  induction items generalizing k aggregate with
  | nil =>
    rw [placedItems]
    rfl
  | cons head rest ih =>
    cases head with
    | directive d =>
      rw [placedItems, numbered, List.map_cons, ← ih hitems k aggregate]
      rfl
    | value item =>
      obtain ⟨hitem, hrest⟩ := List.forall_mem_cons.mp hitems
      rw [placedItems_undesignated hdistinct hitem, numbered, List.map_cons]
      simp only [Traced.result_bind, Traced.result_pure, ih hrest, numberedNode]

/-- Slot number `j` holds what value number `j - k` is stored as, if there is such a value, and what
it held before if there is none. -/
theorem slot?_placedItems {j : Nat} {slot : Step × Ty} (hslot : t.slots[j]? = some slot) (k : Nat)
    (aggregate : Value) :
    (placedItems env t aggregate (t.cursorAt k) items).result.1.slot? slot.1 =
      (aggregate.slot? slot.1).map fun old =>
        if j < k then old
        else
          ((items.filterMap Syntax.Item.value?)[j - k]?.map fun item =>
            (initializer env slot.2 item.value).result.value.storedAs slot.2).getD old := by
  induction items generalizing k aggregate with
  | nil =>
    rw [placedItems]
    simp
  | cons head rest ih =>
    cases head with
    | directive d =>
      rw [placedItems]
      exact ih hitems k aggregate
    | value item =>
      obtain ⟨hitem, hrest⟩ := List.forall_mem_cons.mp hitems
      rw [placedItems_undesignated hdistinct hitem]
      simp only [Traced.result_bind, Traced.result_pure, ih hrest,
        slot?_place hdistinct hslot, Option.map_map]
      refine congrArg (Option.map · _) (funext fun old => ?_)
      change _ = if j < k then old
        else ((item :: rest.filterMap Syntax.Item.value?)[j - k]?.map fun item =>
          (initializer env slot.2 item.value).result.value.storedAs slot.2).getD old
      rcases Nat.lt_trichotomy j k with hlt | rfl | hgt
      · simp [hlt, Nat.lt_succ_of_lt hlt, Nat.ne_of_lt hlt]
      · simp [numberedType, hslot]
      · have hsub : j - k = j - (k + 1) + 1 := by omega
        have hnot : ¬ j < k + 1 := by omega
        simp [hnot, Nat.lt_asymm hgt, Nat.ne_of_gt hgt, hsub]

end Run

theorem initializer_braced (haggregate : t.isAggregate = true) (span : Span)
    (items : List Syntax.Item) :
    initializer env t (.braced ⟨span, items⟩) =
      (fun filled => .braced (env.site span) filled.1 filled.2) <$>
        placedItems env t t.initial none items := by
  rw [initializer, if_pos haggregate, map_eq_pure_bind]

/-- **Items without designators fill the slots in order.** Value number `k` is analysed for the type
of slot number `k`, and this slot ends up with what the value is stored as. Slots that no value is
for keep their initial contents. A value with no slot of its number is reported at its own place,
once, and analysed for an unknown type. -/
theorem positional_items_fill_slots (env : Env) {t : Ty} (haggregate : t.isAggregate = true)
    (hdistinct : t.Distinct) (span : Span) {items : List Syntax.Item}
    (hitems : ∀ item ∈ items.filterMap Syntax.Item.value?, item.designators = []) :
    let filled := initializer env t (.braced ⟨span, items⟩)
    filled.events = (numbered 0 items).flatMap (numberedEvents env t) ∧
    ∃ v, filled.result =
        .braced (env.site span) v ((numbered 0 items).map (numberedNode env t)) ∧
      v.surface = t.initial.surface ∧
      ∀ (k : Nat) (slot : Step × Ty), t.slots[k]? = some slot → v.slot? slot.1 =
        some (((items.filterMap Syntax.Item.value?)[k]?.map fun item =>
          (initializer env slot.2 item.value).result.value.storedAs slot.2).getD
            slot.2.initial) := by
  intro filled
  have hfilled : filled = _ := initializer_braced haggregate span items
  rw [hfilled]
  refine ⟨?_, _, congrArg _ (nodes_placedItems hdistinct hitems 0 t.initial),
    surface_placedItems env t t.initial _ items, fun k slot hslot => ?_⟩
  · rw [Traced.events_map]
    exact events_placedItems hdistinct hitems 0 t.initial
  · have hinitial : t.initial.slot? slot.1 = some slot.2.initial := by
      rw [Ty.slot?_initial, Ty.slot?_of_mem_slots hdistinct (List.mem_of_getElem? hslot)]
      rfl
    change (placedItems env t t.initial (t.cursorAt 0) items).result.1.slot? slot.1 = _
    rw [slot?_placedItems hdistinct hitems hslot, hinitial]
    simp

/-- An integer and a real. -/
def point : Ty := .aliased "Point" (.struct [("n", .integer), ("x", .real)])

/-- The item `n`, which stands at the given offset. -/
def numberItem (offset : Nat) (n : Int32) : Syntax.Item :=
  .value ⟨⟨offset, 1⟩, [], .expr ⟨⟨offset⟩, ⟨offset, 1⟩, .literal (.integer n)⟩⟩

/-- Of three numbers for a point, the first two are stored, the second one as a real, and the third
one is reported. -/
theorem third_number_is_excess :
    let items := [numberItem 1 4, numberItem 3 5, numberItem 5 6]
    let filled := initializer ⟨.initial, ScopeTable.root⟩ point (.braced ⟨⟨0, 7⟩, items⟩)
    point.isAggregate = true ∧ point.Distinct ∧
    (∀ item ∈ items.filterMap Syntax.Item.value?, item.designators = []) ∧
    Event.findings [] filled.events = [⟨.excessItem, ⟨5, 1⟩⟩] ∧
    filled.result.value.slot? (.component "n") = some (.integer 4) ∧
    filled.result.value.slot? (.component "x") = some (.real (Real.ofInteger 5)) := by
  intro items filled
  have hdistinct : point.Distinct := by
    have hinteger : Ty.Distinct .integer := Ty.distinct_of_isAtom rfl
    have hreal : Ty.Distinct .real := Ty.distinct_of_isAtom rfl
    simpa [point, Ty.Distinct, Ty.everywhere_aliased, Ty.everywhere_struct, Ty.DistinctNames] using
      And.intro hinteger hreal
  have hitems : ∀ item ∈ items.filterMap Syntax.Item.value?, item.designators = [] := by
    simp [items, numberItem, Syntax.Item.value?]
  obtain ⟨hevents, v, hresult, -, hslots⟩ := positional_items_fill_slots
    ⟨.initial, ScopeTable.root⟩ (t := point) rfl hdistinct ⟨0, 7⟩ hitems
  have hvalue : filled.result.value = v := congrArg Semantic.Initializer.value hresult
  refine ⟨rfl, hdistinct, hitems, ?_, ?_, ?_⟩
  · exact (congrArg (Event.findings []) hevents).trans rfl
  · rw [hvalue]
    exact hslots 0 (.component "n", .integer) rfl
  · rw [hvalue]
    exact hslots 1 (.component "x", .real) rfl

end Analysis

end Pseudocode
