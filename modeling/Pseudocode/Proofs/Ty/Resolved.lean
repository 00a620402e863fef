import Pseudocode.Path.Step

/-!
# Types that were made out

A type is *resolved* when no unknown type occurs in it: not as the type itself, not behind an alias,
not as the item of an array and not as a component of a structure, however deep. Resolution goes
down to every slot that a step or a path can reach.
-/

namespace Pseudocode

theorem mem_of_lookup {α β : Type} [BEq α] [LawfulBEq α] {key : α} {b : β} {entries : List (α × β)}
    (h : entries.lookup key = some b) : (key, b) ∈ entries := by
  obtain ⟨before, after, rfl, -⟩ := List.lookup_eq_some_iff.mp h
  simp

namespace Ty

/-- The types that a type is made of directly. -/
def parts : Ty → List Ty
  | .array item _ => [item]
  | .struct components => components.map (·.2)
  | .aliased _ target => [target]
  | _ => []

/-- Known, and not made of other types. -/
def isAtom : Ty → Bool
  | .void | .boolean | .character | .integer | .real | .file | .string | .boundedString _ => true
  | _ => false

/-- Known without any further data. -/
def isBasic : Ty → Bool
  | .void | .boolean | .character | .integer | .real | .file | .string => true
  | _ => false

theorem isAtom_of_isBasic {t : Ty} (h : t.isBasic = true) : t.isAtom = true := by
  cases t <;> simp [isBasic, isAtom] at h ⊢

theorem unaliased_of_isAtom {t : Ty} (h : t.isAtom = true) : t.unaliased = t := by
  cases t with
  | aliased => cases h
  | _ => rfl

/-- `p` holds of the type itself and, at any depth, of the types it is made of. -/
inductive Everywhere (p : Ty → Prop) : Ty → Prop
  | intro {t : Ty} (here : p t) (inside : ∀ u ∈ t.parts, Everywhere p u) : Everywhere p t

/-- No unknown type occurs in the type, at any depth. -/
def Resolved (t : Ty) : Prop := t.Everywhere fun u => ∀ origin, u ≠ .unknown origin

variable {p : Ty → Prop}

theorem everywhere_iff {t : Ty} : t.Everywhere p ↔ p t ∧ ∀ u ∈ t.parts, u.Everywhere p := by
  constructor
  · rintro ⟨here, inside⟩
    exact ⟨here, inside⟩
  · rintro ⟨here, inside⟩
    exact .intro here inside

theorem Everywhere.here {t : Ty} (h : t.Everywhere p) : p t := (everywhere_iff.mp h).1

theorem Everywhere.inside {t : Ty} (h : t.Everywhere p) : ∀ u ∈ t.parts, u.Everywhere p :=
  (everywhere_iff.mp h).2

theorem Everywhere.imp {q : Ty → Prop} {t : Ty} (h : t.Everywhere p) (himp : ∀ u, p u → q u) :
    t.Everywhere q := by
  induction h with
  | intro here _ ih => exact .intro (himp _ here) ih

theorem Everywhere.everywhere {t : Ty} (h : t.Everywhere p) : t.Everywhere (Everywhere p) := by
  induction h with
  | intro here inside ih => exact .intro (.intro here inside) ih

theorem Everywhere.unaliased {t : Ty} (h : t.Everywhere p) : t.unaliased.Everywhere p := by
  fun_induction Ty.unaliased t with
  | case1 name target ih => exact ih (h.inside target (by simp [parts]))
  | case2 t _ => exact h

/-- Whatever holds throughout a type holds throughout the type of each of its slots. -/
theorem Everywhere.slot? {t u : Ty} {step : Step} (h : t.Everywhere p)
    (hslot : t.slot? step = some u) : u.Everywhere p := by
  have hun := h.unaliased
  unfold Ty.slot? at hslot
  split at hslot
  · rename_i item length i heq
    rw [heq] at hun
    split at hslot
    · cases hslot
      exact hun.inside _ (by simp [parts])
    · cases hslot
  · rename_i components name heq
    rw [heq] at hun
    refine hun.inside u ?_
    rw [parts, List.mem_map]
    exact ⟨(name, u), mem_of_lookup hslot, rfl⟩
  · cases hslot

theorem everywhere_array {item : Ty} {length : Nat} :
    (array item length).Everywhere p ↔ p (.array item length) ∧ item.Everywhere p := by
  simp [everywhere_iff (t := .array item length), parts]

theorem everywhere_struct {components : List (String × Ty)} :
    (struct components).Everywhere p ↔
      p (.struct components) ∧ ∀ c ∈ components, c.2.Everywhere p := by
  simp only [everywhere_iff (t := .struct components), parts, List.forall_mem_map]

theorem everywhere_aliased {name : String} {target : Ty} :
    (aliased name target).Everywhere p ↔ p (.aliased name target) ∧ target.Everywhere p := by
  simp [everywhere_iff (t := .aliased name target), parts]

theorem everywhere_of_isAtom {t : Ty} (h : t.isAtom = true) (here : p t) : t.Everywhere p := by
  refine .intro here ?_
  cases t <;> simp [parts, isAtom] at h ⊢

theorem everywhere_unknown {origin : Span} :
    (unknown origin).Everywhere p ↔ p (.unknown origin) := by
  simp [everywhere_iff (t := .unknown origin), parts]

/-! ### Resolved types -/

theorem Resolved.unaliased {t : Ty} (h : t.Resolved) : t.unaliased.Resolved :=
  Everywhere.unaliased h

theorem Resolved.slot? {t u : Ty} {step : Step} (h : t.Resolved) (hslot : t.slot? step = some u) :
    u.Resolved :=
  Everywhere.slot? h hslot

theorem Resolved.isUnknown_eq_false {t : Ty} (h : t.Resolved) : t.isUnknown = false := by
  rw [Bool.eq_false_iff]
  intro hunknown
  obtain ⟨origin, horigin⟩ := isUnknown_iff.mp hunknown
  exact h.unaliased.here origin horigin

@[simp]
theorem not_resolved_unknown (origin : Span) : ¬ (unknown origin).Resolved := fun h =>
  h.here origin rfl

@[simp]
theorem resolved_array {item : Ty} {length : Nat} :
    (array item length).Resolved ↔ item.Resolved := by
  simp [Resolved, everywhere_array]

@[simp]
theorem resolved_struct {components : List (String × Ty)} :
    (struct components).Resolved ↔ ∀ c ∈ components, c.2.Resolved := by
  simp [Resolved, everywhere_struct]

@[simp]
theorem resolved_aliased {name : String} {target : Ty} :
    (aliased name target).Resolved ↔ target.Resolved := by
  simp [Resolved, everywhere_aliased]

theorem resolved_of_isAtom {t : Ty} (h : t.isAtom = true) : t.Resolved := by
  refine everywhere_of_isAtom h ?_
  rintro origin rfl
  cases h

end Ty

end Pseudocode
