import Pseudocode.Proofs.Path.Chain
import Pseudocode.Proofs.Path.Slots

/-!
# Moving a cursor through an aggregate

A path goes through one level of the aggregate with each of its steps, and on each level some slots
come after the one it takes. Moving the path on visits the slots that are left on the innermost
level, then those on the level around it, and so on outwards. So the way of a cursor can be read off
the levels of the path that it starts from: `upcoming` lists it, and one move takes its first entry.
-/

namespace Pseudocode

/-! ### Document order -/

namespace Ty

/-- The place at the end of the first steps comes before the one at the end of the others, and
neither is around the other: where the steps part, the first ones lead to an earlier slot. -/
inductive Precedes : Ty → List Step → List Step → Prop
  | here {t : Ty} {step other : Step} {rest others : List Step}
      (hlt : t.slotNumber step < t.slotNumber other) : Precedes t (step :: rest) (other :: others)
  | inside {t inner : Ty} {step : Step} {rest others : List Step}
      (hslot : t.slot? step = some inner) (h : Precedes inner rest others) :
      Precedes t (step :: rest) (step :: others)

theorem Precedes.apart {t : Ty} {steps others : List Step} (h : t.Precedes steps others) :
    ¬ steps <+: others ∧ ¬ others <+: steps := by
  induction h with
  | @here t step other _ _ hlt =>
    have hne : step ≠ other := by
      rintro rfl
      exact Nat.lt_irrefl _ hlt
    simp [List.cons_prefix_cons, hne, hne.symm]
  | inside _ _ ih => simpa [List.cons_prefix_cons] using ih

end Ty

/-! ### Levels -/

namespace Path

/-- The path behind further steps. -/
def within (outer : List Step) (p : Path) : Path :=
  match outer with
  | [] => p
  | first :: rest => ⟨first, rest ++ p.steps, p.type⟩

@[simp]
theorem steps_within (outer : List Step) (p : Path) :
    (p.within outer).steps = outer ++ p.steps := by
  cases outer <;> rfl

theorem within_within (outer inner : List Step) (p : Path) :
    (p.within inner).within outer = p.within (outer ++ inner) := by
  cases outer with
  | nil => rfl
  | cons first rest =>
    cases inner with
    | nil => simp [within]
    | cons second others => simp [within, steps]

end Path

/-- One level of the way along steps: the steps so far, the type that they reach, and the step that
is taken there. -/
structure Level where
  outer : List Step
  type : Ty
  step : Step

namespace Level

/-- How many slots there are on the level. -/
def size (l : Level) : Nat := l.type.slots.length

/-- The number of the slot that the step leads to. -/
def number (l : Level) : Nat := l.type.slotNumber l.step

/-- The positions in the slots after that one. -/
def later (l : Level) : List Path :=
  (l.type.slots.drop (l.number + 1)).map fun slot => (Path.ofSlot slot).within l.outer

/-- How many slots are left on the levels together. -/
def left : List Level → Nat
  | [] => 0
  | l :: rest => (l.size - 1 - l.number) + left rest

/-- The level behind further steps. -/
def within (outer : List Step) (l : Level) : Level := { l with outer := outer ++ l.outer }

theorem later_within (outer : List Step) (l : Level) :
    (l.within outer).later = l.later.map (Path.within outer) := by
  simp only [later, List.map_map]
  refine congrArg (List.map · _) (funext fun slot => ?_)
  exact (Path.within_within outer l.outer (Path.ofSlot slot)).symm

theorem length_later (l : Level) : l.later.length = l.size - 1 - l.number := by
  simp only [later, List.length_map, List.length_drop, size]
  omega

theorem length_flatMap_later (ls : List Level) :
    (ls.reverse.flatMap later).length = left ls := by
  induction ls with
  | nil => rfl
  | cons l rest ih =>
    rw [List.reverse_cons, List.flatMap_append, List.length_append, ih, List.flatMap_singleton,
      length_later, left, Nat.add_comm]

end Level

/-- The levels of the way along steps, from outside to inside. -/
def Ty.levels (t : Ty) (outer : List Step) : List Step → List Level
  | [] => []
  | step :: rest =>
    ⟨outer, t, step⟩ ::
      match t.slot? step with
      | none => []
      | some inner => inner.levels (outer ++ [step]) rest

/-- The positions after the one that the steps lead to: what is left on the innermost level, then
what is left on the level around it, and so on. -/
def Ty.upcoming (t : Ty) (steps : List Step) : List Path :=
  (t.levels [] steps).reverse.flatMap Level.later

namespace Ty

variable {t inner leaf : Ty} {step : Step} {rest steps : List Step}

theorem levels_cons (h : t.slot? step = some inner) (outer : List Step) :
    t.levels outer (step :: rest) =
      ⟨outer, t, step⟩ :: inner.levels (outer ++ [step]) rest := by
  rw [levels, h]

theorem levels_append (t : Ty) (outer inner steps : List Step) :
    t.levels (outer ++ inner) steps = (t.levels inner steps).map (Level.within outer) := by
  induction steps generalizing t inner with
  | nil => rfl
  | cons step rest ih =>
    rw [levels, levels, List.map_cons]
    refine congrArg (Level.mk (outer ++ inner) t step :: ·) ?_
    split
    · rfl
    · rw [List.append_assoc, ih]

/-- The levels below the first one are those of the rest of the way, seen from outside. -/
theorem levels_nil_cons (h : t.slot? step = some inner) (rest : List Step) :
    t.levels [] (step :: rest) =
      ⟨[], t, step⟩ :: (inner.levels [] rest).map (Level.within [step]) := by
  rw [levels_cons h]
  exact congrArg (_ :: ·) (levels_append inner [step] [] rest)

theorem upcoming_cons (h : t.slot? step = some inner) (rest : List Step) :
    t.upcoming (step :: rest) =
      (inner.upcoming rest).map (Path.within [step]) ++ Level.later ⟨[], t, step⟩ := by
  rw [upcoming, levels_nil_cons h, List.reverse_cons, List.flatMap_append, List.flatMap_singleton,
    ← List.map_reverse, List.flatMap_map, upcoming, List.map_flatMap]
  simp only [Level.later_within]

/-- The levels go along the steps, and each step takes the slot of its number. -/
theorem getElem?_levels (hdistinct : t.Distinct) (hreach : t.reach? steps = some leaf) (j : Nat)
    (l : Level) (h : (t.levels [] steps)[j]? = some l) :
    l.outer = steps.take j ∧ steps[j]? = some l.step ∧ t.reach? l.outer = some l.type ∧
      ∃ u, l.type.slots[l.number]? = some (l.step, u) := by
  induction steps generalizing t j l with
  | nil => cases h
  | cons step rest ih =>
    obtain ⟨inner, hslot, hrest⟩ := exists_slot?_of_reach? hreach
    rw [levels_nil_cons hslot] at h
    cases j with
    | zero =>
      cases h
      exact ⟨rfl, rfl, rfl, inner, getElem?_slotNumber hdistinct hslot⟩
    | succ j =>
      rw [List.getElem?_cons_succ, List.getElem?_map, Option.map_eq_some_iff] at h
      obtain ⟨l', hl', rfl⟩ := h
      obtain ⟨houter, hstep, htype, u, hu⟩ := ih (Everywhere.slot? hdistinct hslot) hrest j l' hl'
      refine ⟨congrArg (step :: ·) houter, hstep, ?_, u, hu⟩
      change t.reach? (step :: l'.outer) = some l'.type
      rw [reach?, hslot]
      exact htype

theorem length_levels (hreach : t.reach? steps = some leaf) (outer : List Step) :
    (t.levels outer steps).length = steps.length := by
  induction steps generalizing t outer with
  | nil => rfl
  | cons step rest ih =>
    obtain ⟨inner, hslot, hrest⟩ := exists_slot?_of_reach? hreach
    rw [levels_cons hslot, List.length_cons, ih hrest, List.length_cons]

end Ty

/-! ### One move -/

namespace Path

variable {t leaf : Ty} {first : Step} {rest : List Step} {p q : Path}

theorem head?_later (hdistinct : t.Distinct) {u : Ty} (hslot : t.slot? first = some u) :
    (t.nextSlot? first).map ofSlot = (Level.later ⟨[], t, first⟩).head? := by
  rw [Level.later, List.head?_map, List.head?_drop, Level.number,
    Ty.nextSlot?_of_getElem? hdistinct (Ty.getElem?_slotNumber hdistinct hslot)]
  rfl

/-- A move goes to the first of the positions to come. -/
theorem next?_eq_head? (hdistinct : t.Distinct) (hreach : t.reach? (first :: rest) = some leaf) :
    next? t first rest = (t.upcoming (first :: rest)).head? := by
  induction rest generalizing t first with
  | nil =>
    obtain ⟨inner, hslot, -⟩ := Ty.exists_slot?_of_reach? hreach
    rw [next?, Ty.upcoming_cons hslot, head?_later hdistinct hslot]
    rfl
  | cons second rest ih =>
    obtain ⟨inner, hslot, hrest⟩ := Ty.exists_slot?_of_reach? hreach
    have hinner := ih (Ty.Everywhere.slot? hdistinct hslot) hrest
    rw [next?, hslot, Ty.upcoming_cons hslot, List.head?_append, List.head?_map, ← hinner]
    dsimp only
    split
    · rename_i p hnext
      rw [hnext]
      rfl
    · rename_i hnext
      rw [hnext]
      exact head?_later hdistinct hslot

/-- From the next slot of the outermost level on, the positions to come are those after it. -/
theorem upcoming_of_nextSlot? (hdistinct : t.Distinct) {u : Ty} (hslot : t.slot? first = some u)
    (h : (t.nextSlot? first).map ofSlot = some q) :
    t.upcoming q.steps = (Level.later ⟨[], t, first⟩).tail := by
  rw [Option.map_eq_some_iff] at h
  obtain ⟨slot, hnext, rfl⟩ := h
  have hplace := Ty.getElem?_slotNumber hdistinct hslot
  rw [Ty.nextSlot?_of_getElem? hdistinct hplace] at hnext
  have hinner := Ty.slot?_of_mem_slots hdistinct (List.mem_of_getElem? hnext)
  rw [steps_ofSlot, Ty.upcoming_cons hinner, Level.later, Level.later, ← List.map_tail,
    List.tail_drop, Level.number, Level.number, Ty.slotNumber_of_getElem? hdistinct hnext]
  rfl

/-- After a move there is one position less to come. -/
theorem upcoming_of_next? (hdistinct : t.Distinct) (hreach : t.reach? (first :: rest) = some leaf)
    (h : next? t first rest = some q) :
    t.upcoming q.steps = (t.upcoming (first :: rest)).tail := by
  induction rest generalizing t first q with
  | nil =>
    obtain ⟨inner, hslot, -⟩ := Ty.exists_slot?_of_reach? hreach
    rw [next?] at h
    rw [upcoming_of_nextSlot? hdistinct hslot h, Ty.upcoming_cons hslot]
    rfl
  | cons second rest ih =>
    obtain ⟨inner, hslot, hrest⟩ := Ty.exists_slot?_of_reach? hreach
    have hdistinct' : inner.Distinct := Ty.Everywhere.slot? hdistinct hslot
    have hhead := next?_eq_head? hdistinct' hrest
    rw [next?, hslot] at h
    dsimp only at h
    split at h
    · rename_i p hnext
      cases h
      obtain ⟨others, hothers⟩ : ∃ others, inner.upcoming (second :: rest) = p :: others := by
        rw [hnext] at hhead
        exact List.head?_eq_some_iff.mp hhead.symm
      change t.upcoming (first :: p.steps) = _
      rw [Ty.upcoming_cons hslot, ih hdistinct' hrest hnext, Ty.upcoming_cons hslot, hothers]
      rfl
    · rename_i hnext
      rw [hnext, eq_comm, List.head?_eq_none_iff] at hhead
      rw [upcoming_of_nextSlot? hdistinct hslot h, Ty.upcoming_cons hslot, hhead]
      rfl

theorem precedes_of_nextSlot? (hdistinct : t.Distinct) {u : Ty} (hslot : t.slot? first = some u)
    (h : (t.nextSlot? first).map ofSlot = some q) : t.Precedes (first :: rest) q.steps := by
  rw [Option.map_eq_some_iff] at h
  obtain ⟨slot, hnext, rfl⟩ := h
  rw [Ty.nextSlot?_of_getElem? hdistinct (Ty.getElem?_slotNumber hdistinct hslot)] at hnext
  have hnumber : t.slotNumber slot.1 = t.slotNumber first + 1 :=
    Ty.slotNumber_of_getElem? hdistinct hnext
  refine .here ?_
  change t.slotNumber first < t.slotNumber slot.1
  omega

theorem precedes_of_next? (hdistinct : t.Distinct) (hreach : t.reach? (first :: rest) = some leaf)
    (h : next? t first rest = some q) : t.Precedes (first :: rest) q.steps := by
  induction rest generalizing t first q with
  | nil =>
    obtain ⟨inner, hslot, -⟩ := Ty.exists_slot?_of_reach? hreach
    rw [next?] at h
    exact precedes_of_nextSlot? hdistinct hslot h
  | cons second rest ih =>
    obtain ⟨inner, hslot, hrest⟩ := Ty.exists_slot?_of_reach? hreach
    rw [next?, hslot] at h
    dsimp only at h
    split at h
    · rename_i p hnext
      cases h
      exact .inside hslot (ih (Ty.Everywhere.slot? hdistinct hslot) hrest hnext)
    · exact precedes_of_nextSlot? hdistinct hslot h

/-! ### Many moves -/

/-- Where the path gets to in `n` moves. -/
def advances (p : Path) (aggregate : Ty) : Nat → Option Path
  | 0 => some p
  | n + 1 => (p.advance? aggregate).bind (advances · aggregate n)

/-- The moves go through the positions to come, one by one. -/
theorem advances_eq (hdistinct : t.Distinct) (hp : p.ValidIn t) (n : Nat) :
    p.advances t n = (p :: t.upcoming p.steps)[n]? := by
  induction n generalizing p with
  | zero => rfl
  | succ n ih =>
    have hhead : p.advance? t = (t.upcoming p.steps).head? := next?_eq_head? hdistinct hp
    rw [advances, List.getElem?_cons_succ]
    cases hnext : p.advance? t with
    | none =>
      rw [hnext, eq_comm, List.head?_eq_none_iff] at hhead
      rw [hhead]
      rfl
    | some q =>
      have htail : t.upcoming q.steps = (t.upcoming p.steps).tail :=
        upcoming_of_next? hdistinct hp hnext
      rw [hnext] at hhead
      obtain ⟨others, hothers⟩ := List.head?_eq_some_iff.mp hhead.symm
      rw [hothers] at htail ⊢
      change q.advances t n = _
      rw [ih (validIn_of_advance? hdistinct hnext), htail]
      rfl

/-- Starting from the first slot, a cursor visits the slots of the aggregate. -/
theorem advances_start? (hdistinct : t.Distinct) (n : Nat) :
    (start? t).bind (·.advances t n) = (t.slots.map ofSlot)[n]? := by
  rw [start?, Ty.firstSlot?_eq]
  cases hslots : t.slots with
  | nil => rfl
  | cons slot rest =>
    have hslot := Ty.slot?_of_mem_slots hdistinct (hslots ▸ List.mem_cons_self)
    have hzero : t.slotNumber slot.1 = 0 :=
      Ty.slotNumber_of_getElem? hdistinct (by rw [hslots]; rfl)
    have hupcoming : t.upcoming [slot.1] = rest.map ofSlot := by
      rw [Ty.upcoming_cons hslot, Level.later, Level.number, hzero, hslots]
      rfl
    change (ofSlot slot).advances t n = _
    rw [advances_eq hdistinct (validIn_ofSlot hslot), steps_ofSlot, hupcoming, List.map_cons]

/-- What becomes of a cursor that stands at `p`. -/
structure MovesOn (p : Path) (t : Ty) : Prop where
  /-- A move goes to a later place of the aggregate, which is neither around `p` nor inside it. -/
  next : ∀ q, p.advance? t = some q →
    q.ValidIn t ∧ t.Precedes p.steps q.steps ∧ ¬ p.steps <+: q.steps ∧ ¬ q.steps <+: p.steps
  /-- The path has a level for each of its steps, where the step takes the slot of its number. -/
  levels : (t.levels [] p.steps).length = p.steps.length ∧
    ∀ j l, (t.levels [] p.steps)[j]? = some l →
      l.outer = p.steps.take j ∧ p.steps[j]? = some l.step ∧ t.reach? l.outer = some l.type ∧
        ∃ u, l.type.slots[l.number]? = some (l.step, u)
  /-- The moves visit what is left on the levels, beginning with the innermost one. -/
  visits : ∀ n, p.advances t n =
    (p :: (t.levels [] p.steps).reverse.flatMap Level.later)[n]?
  /-- There are as many moves as slots left on the levels. -/
  ends : ∀ n, (p.advances t n).isSome = true ↔ n ≤ Level.left (t.levels [] p.steps)

theorem movesOn (hdistinct : t.Distinct) (hp : p.ValidIn t) : p.MovesOn t where
  next q hnext :=
    have hprecedes : t.Precedes p.steps q.steps := precedes_of_next? hdistinct hp hnext
    ⟨validIn_of_advance? hdistinct hnext, hprecedes, hprecedes.apart⟩
  levels := ⟨Ty.length_levels hp [], Ty.getElem?_levels hdistinct hp⟩
  visits := advances_eq hdistinct hp
  ends n := by
    rw [advances_eq hdistinct hp, ← Level.length_flatMap_later, isSome_getElem?, List.length_cons]
    exact Nat.lt_succ_iff

end Path

theorem Ty.reach?_of_resolve {t leaf : Ty} {chain : List Selector} {steps : List Step}
    (h : t.resolve chain = .ok (steps, leaf)) : t.reach? steps = some leaf := by
  induction chain generalizing t steps with
  | nil =>
    cases h
    rfl
  | cons s rest ih =>
    obtain ⟨step, inner, steps', hselect, hrest, rfl⟩ := resolve_cons_eq_ok h
    rw [reach?, slot?_of_select hselect]
    exact ih hrest

namespace Path

/-- **The way of a cursor.** The first slot and whatever designators select are places of the
aggregate. A cursor that starts at the first slot visits each slot of the aggregate once and in
order. From any place it moves on to later ones, by the levels around the place. -/
theorem cursor_visits_slots_in_order {t : Ty} (hdistinct : t.Distinct) :
    (∀ p, start? t = some p → p.ValidIn t) ∧
    (∀ s chain steps leaf, t.resolve (s :: chain) = .ok (steps, leaf) →
      ∃ p, ofSteps? steps leaf = some p ∧ p.ValidIn t) ∧
    (∀ step u, (step, u) ∈ t.slots ↔ t.slot? step = some u) ∧
    (t.slots.map (·.1)).Nodup ∧
    (∀ n, (start? t).bind (·.advances t n) = (t.slots.map ofSlot)[n]?) ∧
    ∀ p : Path, p.ValidIn t → p.MovesOn t := by
  refine ⟨fun p => validIn_of_start?, ?_, fun step u => Ty.mem_slots_iff hdistinct,
    Ty.nodup_slots hdistinct, advances_start? hdistinct, fun p => movesOn hdistinct⟩
  intro s chain steps leaf hresolve
  have hreach := Ty.reach?_of_resolve hresolve
  obtain ⟨step, inner, rest, -, -, rfl⟩ := Ty.resolve_cons_eq_ok hresolve
  exact ⟨⟨step, rest, leaf⟩, rfl, hreach⟩

/-- Two records, each with a row of three integers and a label. -/
def records : Ty :=
  .aliased "Records" (.array (.struct [("row", .array .integer 3), ("label", .string)]) 2)

/-- From the second integer of the first row, a cursor goes to the third one, to the label beside
the row, to the second record, and ends there. -/
theorem cursor_leaves_row :
    let p : Path := ⟨.index 0, [.component "row", .index 1], .integer⟩
    records.Distinct ∧ p.ValidIn records ∧
    (∀ n, (p.advances records n).map steps =
      [[.index 0, .component "row", .index 1], [.index 0, .component "row", .index 2],
        [.index 0, .component "label"], [.index 1]][n]?) ∧
    (∀ n, (p.advances records n).isSome = true ↔ n ≤ 3) ∧
    ∀ n, ((start? records).bind (·.advances records n)).map steps =
      [[.index 0], [.index 1]][n]? := by
  intro p
  have hdistinct : records.Distinct := by
    have hinteger : Ty.Distinct .integer := Ty.distinct_of_isAtom rfl
    have hstring : Ty.Distinct .string := Ty.distinct_of_isAtom rfl
    simpa [records, Ty.Distinct, Ty.everywhere_aliased, Ty.everywhere_array, Ty.everywhere_struct,
      Ty.DistinctNames] using And.intro hinteger hstring
  obtain ⟨-, -, -, -, hstart, hmoves⟩ := cursor_visits_slots_in_order hdistinct
  have hp : p.ValidIn records := rfl
  refine ⟨hdistinct, hp, fun n => ?_, (hmoves p hp).ends, fun n => ?_⟩
  · rw [(hmoves p hp).visits, ← List.getElem?_map]
    rfl
  · rw [hstart, ← List.getElem?_map]
    rfl

end Path

end Pseudocode
