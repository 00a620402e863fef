import Pseudocode.Path.Basic
import Pseudocode.Proofs.Ty.Resolved

/-!
# Paths that fit a type

A chain of steps reaches a type if each step leads to a slot of the type reached before it. The
positions that filling an aggregate goes through are all reached in this sense: the first slot, what
designators select, and every next position. For the next component of a structure this needs the
names of the components to be distinct, since a step finds a component by its name.
-/

namespace Pseudocode

namespace Ty

/-- The type at the end of the steps. -/
def reach? (t : Ty) : List Step → Option Ty
  | [] => some t
  | step :: rest => (t.slot? step).bind (reach? · rest)

/-- The components of a structure have different names. -/
def DistinctNames : Ty → Prop
  | .struct components => (components.map (·.1)).Nodup
  | _ => True

/-- All structures in the type have components of different names. -/
def Distinct (t : Ty) : Prop := t.Everywhere DistinctNames

theorem distinct_of_isAtom {t : Ty} (h : t.isAtom = true) : t.Distinct := by
  refine everywhere_of_isAtom h ?_
  cases t with
  | struct => cases h
  | _ => trivial

theorem exists_slot?_of_reach? {t leaf : Ty} {step : Step} {rest : List Step}
    (h : t.reach? (step :: rest) = some leaf) :
    ∃ inner, t.slot? step = some inner ∧ inner.reach? rest = some leaf := by
  rwa [reach?, Option.bind_eq_some_iff] at h

theorem reach?_append (t : Ty) (xs ys : List Step) :
    t.reach? (xs ++ ys) = (t.reach? xs).bind (reach? · ys) := by
  induction xs generalizing t with
  | nil => rfl
  | cons step rest ih =>
    simp only [List.cons_append, reach?, Option.bind_assoc]
    congr 1
    funext u
    exact ih u

/-- Whatever holds throughout a type holds throughout every type that steps reach in it. -/
theorem Everywhere.reach? {p : Ty → Prop} {t u : Ty} {steps : List Step} (h : t.Everywhere p)
    (hreach : t.reach? steps = some u) : u.Everywhere p := by
  induction steps generalizing t with
  | nil =>
    cases hreach
    exact h
  | cons step rest ih =>
    rw [Ty.reach?, Option.bind_eq_some_iff] at hreach
    obtain ⟨inner, hslot, hrest⟩ := hreach
    exact ih (h.slot? hslot) hrest

/-! ### Single steps -/

theorem slot?_of_indexStep {t u : Ty} {n : Int32} {step : Step}
    (h : t.indexStep n = .ok (step, u)) : t.slot? step = some u := by
  unfold indexStep at h
  split at h
  · rename_i item length heq
    split at h
    · rename_i hrange
      cases h
      simp only [slot?, heq]
      exact if_pos (by omega)
    · cases h
  · cases h

theorem slot?_of_componentStep {t u : Ty} {name : String} {step : Step}
    (h : t.componentStep name = .ok (step, u)) : t.slot? step = some u := by
  unfold componentStep at h
  split at h
  · rename_i components heq
    split at h
    · rename_i type hlookup
      cases h
      simp [slot?, heq, hlookup]
    · cases h
  · cases h

theorem slot?_of_firstSlot? {t u : Ty} {step : Step} (h : t.firstSlot? = some (step, u)) :
    t.slot? step = some u := by
  unfold firstSlot? at h
  split at h
  · rename_i item length heq
    split at h
    · rename_i hpos
      cases h
      simp [slot?, heq, hpos]
    · cases h
  · rename_i components heq
    cases components with
    | nil => cases h
    | cons c rest =>
      obtain ⟨name, type⟩ := c
      cases h
      simp [slot?, heq]
  · cases h

/-- With distinct names, each component is the one that its name finds. -/
theorem lookup_of_mem {components : List (String × Ty)} (hdistinct : (components.map (·.1)).Nodup)
    {c : String × Ty} (hc : c ∈ components) : components.lookup c.1 = some c.2 := by
  induction components with
  | nil => cases hc
  | cons head rest ih =>
    obtain ⟨n, t⟩ := head
    rw [List.map_cons, List.nodup_cons] at hdistinct
    obtain rfl | hrest := List.mem_cons.mp hc
    · simp
    · have hne : (c.1 == n) = false := by
        rw [beq_eq_false_iff_ne]
        intro heq
        exact hdistinct.1 (List.mem_map.mpr ⟨c, hrest, heq⟩)
      rw [List.lookup_cons, hne]
      exact ih hdistinct.2 hrest

theorem componentsAfter_subset (name : String) (components : List (String × Ty)) :
    componentsAfter name components ⊆ components := by
  induction components with
  | nil => simp [componentsAfter]
  | cons head rest ih =>
    rw [componentsAfter]
    split
    · exact List.subset_cons_self _ _
    · exact List.subset_cons_of_subset _ ih

theorem slot?_of_nextSlot? {t u : Ty} {step next : Step} (hdistinct : t.Distinct)
    (h : t.nextSlot? step = some (next, u)) : t.slot? next = some u := by
  unfold nextSlot? at h
  split at h
  · rename_i item length i heq
    split at h
    · rename_i hlt
      cases h
      simp [slot?, heq, hlt]
    · cases h
  · rename_i components name heq
    have hnames := (Everywhere.unaliased hdistinct).here
    rw [heq] at hnames
    rw [Option.map_eq_some_iff] at h
    obtain ⟨c, hhead, hc⟩ := h
    cases hc
    have hmem := componentsAfter_subset name components (List.mem_of_mem_head? hhead)
    simpa [slot?, heq] using lookup_of_mem hnames hmem
  · cases h

end Ty

/-! ### Positions -/

namespace Path

/-- The steps of the path lead from `aggregate` to the type that the path records. -/
def ValidIn (p : Path) (aggregate : Ty) : Prop := aggregate.reach? p.steps = some p.type

theorem validIn_ofSlot {aggregate : Ty} {slot : Step × Ty}
    (h : aggregate.slot? slot.1 = some slot.2) : (ofSlot slot).ValidIn aggregate := by
  simp [ValidIn, ofSlot, steps, Ty.reach?, h]

theorem validIn_of_start? {aggregate : Ty} {p : Path} (h : start? aggregate = some p) :
    p.ValidIn aggregate := by
  rw [start?, Option.map_eq_some_iff] at h
  obtain ⟨slot, hslot, rfl⟩ := h
  exact validIn_ofSlot (Ty.slot?_of_firstSlot? hslot)

theorem validIn_of_nextSlot? {aggregate : Ty} {step : Step} {p : Path}
    (hdistinct : aggregate.Distinct) (h : (aggregate.nextSlot? step).map ofSlot = some p) :
    p.ValidIn aggregate := by
  rw [Option.map_eq_some_iff] at h
  obtain ⟨slot, hslot, rfl⟩ := h
  exact validIn_ofSlot (Ty.slot?_of_nextSlot? hdistinct hslot)

theorem validIn_of_next? {aggregate : Ty} {first : Step} {rest : List Step} {p : Path}
    (hdistinct : aggregate.Distinct) (h : next? aggregate first rest = some p) :
    p.ValidIn aggregate := by
  induction rest generalizing aggregate first p with
  | nil => exact validIn_of_nextSlot? hdistinct (by simpa [next?] using h)
  | cons second rest ih =>
    rw [next?] at h
    split at h
    · cases h
    · rename_i inner hslot
      split at h
      · -- The inner level has a next position, which the same first step leads to.
        rename_i q hnext
        cases h
        have hq := ih (Ty.Everywhere.slot? hdistinct hslot) hnext
        simpa [ValidIn, steps, Ty.reach?, hslot] using hq
      · exact validIn_of_nextSlot? hdistinct h

/-- **The cursor stays on the aggregate.** Wherever it stands, moving it on gives a position of the
aggregate. -/
theorem validIn_of_advance? {aggregate : Ty} {p q : Path} (hdistinct : aggregate.Distinct)
    (h : p.advance? aggregate = some q) : q.ValidIn aggregate :=
  validIn_of_next? hdistinct h

theorem validIn_of_ofSteps? {aggregate leaf : Ty} {steps : List Step} {p : Path}
    (h : ofSteps? steps leaf = some p) (hreach : aggregate.reach? steps = some leaf) :
    p.ValidIn aggregate := by
  obtain ⟨hsteps, htype⟩ := steps_of_ofSteps? h
  rw [ValidIn, hsteps, htype]
  exact hreach

end Path

end Pseudocode
