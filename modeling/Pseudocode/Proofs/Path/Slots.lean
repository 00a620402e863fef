import Pseudocode.Proofs.Path.Reach

/-!
# The slots of an aggregate in order

An array has its elements as slots and a structure its components. The slots of a type are numbered
from zero in the order in which they are declared. With distinct names, a step leads to exactly one
of them, and the slot after it is the one with the next number.
-/

namespace Pseudocode

namespace Ty

/-- The slots in order, each with its type. -/
def slots (t : Ty) : List (Step × Ty) :=
  match t.unaliased with
  | .array item length => (List.range length).map fun i => (.index i, item)
  | .struct components => components.map fun (name, type) => (.component name, type)
  | _ => []

/-- The number of the slot that `step` leads to. -/
def slotNumber (t : Ty) (step : Step) : Nat := t.slots.findIdx (·.1 == step)

variable {t u item : Ty} {length k : Nat} {components : List (String × Ty)} {step : Step}
  {slot : Step × Ty}

theorem slots_of_array (h : t.unaliased = .array item length) :
    t.slots = (List.range length).map fun i => (.index i, item) := by
  rw [slots, h]

theorem slots_of_struct (h : t.unaliased = .struct components) :
    t.slots = components.map fun (name, type) => (.component name, type) := by
  rw [slots, h]

theorem nodup_names (hdistinct : t.Distinct) (h : t.unaliased = .struct components) :
    (components.map (·.1)).Nodup := by
  have hnames := (Everywhere.unaliased hdistinct).here
  rwa [h] at hnames

theorem nodup_slots (hdistinct : t.Distinct) : (t.slots.map (·.1)).Nodup := by
  unfold slots
  split
  · rw [List.map_map]
    refine List.Pairwise.map _ (fun i j hij heq => hij ?_) List.nodup_range
    exact Step.index.inj heq
  · rename_i components heq
    have hnames := nodup_names hdistinct heq
    rw [List.Nodup, List.pairwise_map] at hnames
    rw [List.map_map]
    refine List.Pairwise.map _ (fun c d hcd heq => hcd ?_) hnames
    exact Step.component.inj heq
  · exact .nil

/-! ### Steps and slots -/

theorem mem_slots_of_slot? (h : t.slot? step = some u) : (step, u) ∈ t.slots := by
  unfold slot? at h
  split at h
  · rename_i item length i heq
    split at h
    · rename_i hlt
      cases h
      rw [slots_of_array heq]
      exact List.mem_map.mpr ⟨i, List.mem_range.mpr hlt, rfl⟩
    · cases h
  · rename_i components name heq
    rw [slots_of_struct heq]
    exact List.mem_map.mpr ⟨(name, u), mem_of_lookup h, rfl⟩
  · cases h

theorem slot?_of_mem_slots (hdistinct : t.Distinct) (h : slot ∈ t.slots) :
    t.slot? slot.1 = some slot.2 := by
  unfold slots at h
  split at h
  · rename_i item length heq
    obtain ⟨i, hi, rfl⟩ := List.mem_map.mp h
    simp only [slot?, heq]
    exact if_pos (List.mem_range.mp hi)
  · rename_i components heq
    obtain ⟨c, hc, rfl⟩ := List.mem_map.mp h
    simp only [slot?, heq]
    exact lookup_of_mem (nodup_names hdistinct heq) hc
  · cases h

/-- The slots are all that a step can lead to. -/
theorem mem_slots_iff (hdistinct : t.Distinct) : (step, u) ∈ t.slots ↔ t.slot? step = some u :=
  ⟨slot?_of_mem_slots hdistinct, mem_slots_of_slot?⟩

theorem slotNumber_of_getElem? (hdistinct : t.Distinct) (h : t.slots[k]? = some slot) :
    t.slotNumber slot.1 = k := by
  obtain ⟨hk, rfl⟩ := List.getElem?_eq_some_iff.mp h
  refine (List.findIdx_eq hk).mpr ⟨beq_self_eq_true _, fun j hj => ?_⟩
  have hnodup := nodup_slots hdistinct
  rw [List.Nodup, List.pairwise_map] at hnodup
  exact beq_false_of_ne (List.pairwise_iff_getElem.mp hnodup j k _ hk hj)

theorem getElem?_slotNumber (hdistinct : t.Distinct) (h : t.slot? step = some u) :
    t.slots[t.slotNumber step]? = some (step, u) := by
  obtain ⟨k, hk⟩ := List.getElem?_of_mem (mem_slots_of_slot? h)
  rwa [slotNumber_of_getElem? hdistinct hk]

/-! ### The order of the slots -/

theorem firstSlot?_eq (t : Ty) : t.firstSlot? = t.slots[0]? := by
  unfold firstSlot? slots
  cases t.unaliased with
  | array item length => cases length <;> simp
  | struct components => cases components <;> rfl
  | _ => rfl

/-- With distinct names, what follows a component is what comes after its place. -/
theorem componentsAfter_of_getElem? (hnodup : (components.map (·.1)).Nodup) {c : String × Ty}
    (h : components[k]? = some c) : componentsAfter c.1 components = components.drop (k + 1) := by
  induction components generalizing k with
  | nil => cases h
  | cons head rest ih =>
    obtain ⟨n, type⟩ := head
    rw [List.map_cons, List.nodup_cons] at hnodup
    cases k with
    | zero =>
      cases h
      rw [componentsAfter, if_pos rfl]
      rfl
    | succ k =>
      have hne : n ≠ c.1 := by
        intro heq
        have hmem : c ∈ rest := List.mem_of_getElem? (i := k) h
        exact hnodup.1 (List.mem_map.mpr ⟨c, hmem, heq.symm⟩)
      rw [componentsAfter, if_neg hne, ih hnodup.2 h]
      rfl

theorem nextSlot?_of_getElem? (hdistinct : t.Distinct) (h : t.slots[k]? = some slot) :
    t.nextSlot? slot.1 = t.slots[k + 1]? := by
  unfold slots at h
  split at h
  · rename_i item length heq
    rw [List.getElem?_map, Option.map_eq_some_iff] at h
    obtain ⟨i, hi, rfl⟩ := h
    obtain ⟨hk, rfl⟩ := List.getElem?_eq_some_iff.mp hi
    rw [List.getElem_range, slots_of_array heq]
    simp only [nextSlot?, heq]
    split <;> rename_i hlt <;> simp [hlt]
  · rename_i components heq
    rw [List.getElem?_map, Option.map_eq_some_iff] at h
    obtain ⟨c, hc, rfl⟩ := h
    have hafter := componentsAfter_of_getElem? (nodup_names hdistinct heq) hc
    rw [slots_of_struct heq]
    simp only [nextSlot?, heq, hafter, List.head?_drop, List.getElem?_map]
  · cases h

/-! ### Initial contents -/

theorem lookup_initialComponents (components : List (String × Ty)) (name : String) :
    (initialComponents components).lookup name = (components.lookup name).map initial := by
  induction components with
  | nil => simp [initialComponents]
  | cons head rest ih =>
    obtain ⟨n, type⟩ := head
    rw [initialComponents, List.lookup_cons, List.lookup_cons, ih]
    split <;> rfl

/-- At first, each slot holds the initial contents of its type, and there are no other slots. -/
theorem slot?_initial (t : Ty) (step : Step) :
    t.initial.slot? step = (t.slot? step).map initial := by
  induction t using Ty.unaliased.induct with
  | case1 name target ih =>
    rw [initial]
    exact ih
  | case2 t hnot =>
    cases t with
    | aliased name target => exact absurd rfl (hnot name target)
    | array item length =>
      cases step with
      | index i =>
        simp only [Value.slot?, slot?, unaliased, initial, Value.known, SparseArray.get?,
          SparseArray.filled]
        split <;> rfl
      | component name => simp [Value.slot?, slot?, unaliased, initial, Value.known]
    | struct components =>
      cases step with
      | index i => simp [Value.slot?, slot?, unaliased, initial, Value.known]
      | component name =>
        simpa [Value.slot?, slot?, unaliased, initial, Value.known] using
          lookup_initialComponents components name
    | _ =>
      simp [Value.slot?, slot?, unaliased, initial, Value.known, Value.invalid, Value.runtime,
        Value.garbage]

end Ty

end Pseudocode
