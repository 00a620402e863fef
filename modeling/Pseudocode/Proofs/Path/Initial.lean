import Pseudocode.Proofs.Path.Slots

/-!
# Initial contents have the shape of their type

The initial contents of an aggregate are made along its type, with one fill for all elements of an
array and under the name of each alias. A path is followed along the contents alone. The two agree:
a path finds something in the initial contents if and only if its steps lead somewhere in the type,
and what it finds are the initial contents of the type that they lead to.
-/

namespace Pseudocode

namespace Ty

/-- The steps lead from the type to the type `u`. An index has to be below the length of an array,
a name has to be that of a component, and aliases are looked through at each step. -/
inductive Reaches : Ty → List Step → Ty → Prop
  | here (t : Ty) : Reaches t [] t
  | element {t item u : Ty} {length i : Nat} {rest : List Step}
      (harray : t.unaliased = .array item length) (hi : i < length) (h : Reaches item rest u) :
      Reaches t (.index i :: rest) u
  | component {t inner u : Ty} {components : List (String × Ty)} {name : String} {rest : List Step}
      (hstruct : t.unaliased = .struct components) (hname : components.lookup name = some inner)
      (h : Reaches inner rest u) : Reaches t (.component name :: rest) u

variable {t u : Ty}

theorem Reaches.reach?_eq {steps : List Step} (h : t.Reaches steps u) :
    t.reach? steps = some u := by
  induction h with
  | here t => rfl
  | element harray hi _ ih => simpa [reach?, slot?, harray, hi] using ih
  | component hstruct hname _ ih => simpa [reach?, slot?, hstruct, hname] using ih

theorem reaches_cons {inner : Ty} {step : Step} {rest : List Step}
    (hslot : t.slot? step = some inner) (h : inner.Reaches rest u) :
    t.Reaches (step :: rest) u := by
  unfold slot? at hslot
  split at hslot
  · rename_i harray
    split at hslot
    · rename_i hi
      cases hslot
      exact .element harray hi h
    · cases hslot
  · rename_i hstruct
    exact .component hstruct hslot h
  · cases hslot

theorem reaches_iff {steps : List Step} : t.Reaches steps u ↔ t.reach? steps = some u := by
  refine ⟨Reaches.reach?_eq, fun h => ?_⟩
  induction steps generalizing t with
  | nil =>
    cases h
    exact .here _
  | cons step rest ih =>
    obtain ⟨inner, hslot, hrest⟩ := exists_slot?_of_reach? h
    exact reaches_cons hslot (ih hrest)

/-- What is at the end of steps in the initial contents is told by the type. -/
theorem get?_initial (t : Ty) (steps : List Step) :
    t.initial.get? steps = (t.reach? steps).map initial := by
  induction steps generalizing t with
  | nil => rfl
  | cons step rest ih =>
    rw [Value.get?, slot?_initial, reach?]
    cases t.slot? step with
    | none => rfl
    | some inner => exact ih inner

/-- **Initial contents have the shape of their type.** They are of the type itself. A path whose
steps lead to some type in it finds the initial contents of that type, and a path whose steps lead
nowhere finds nothing. -/
theorem initial_has_shape_of_type (t : Ty) :
    t.initial.type = t ∧
    ∀ p : Path,
      (∀ u, t.Reaches p.steps u → p.get? t.initial = some u.initial) ∧
      ((∀ u, ¬ t.Reaches p.steps u) → p.get? t.initial = none) := by
  refine ⟨t.type_initial, fun p => ⟨fun u h => ?_, fun h => ?_⟩⟩
  · rw [Path.get?, get?_initial, h.reach?_eq, Option.map_some]
  · rw [Path.get?, get?_initial, Option.map_eq_none_iff, Option.eq_none_iff_forall_ne_some]
    intro u hu
    exact h u (reaches_iff.mpr hu)

/-- Cards with a name, two tags of a type that could not be made out, and an empty part. -/
def cards : Ty :=
  .array (.aliased "Card" (.struct
    [("name", .aliased "Text" .string), ("tags", .array (.unknown default) 2),
      ("rest", .struct [])])) 1000

/-- The last card has a name that nothing was stored in and a second tag that is invalid. There is
nothing behind the last card and nothing inside its empty part. -/
theorem initial_cards :
    let name : Path := ⟨.index 999, [.component "name"], .string⟩
    let tag : Path := ⟨.index 999, [.component "tags", .index 1], .integer⟩
    let beyond : Path := ⟨.index 1000, [.component "name"], .string⟩
    let inside : Path := ⟨.index 999, [.component "rest", .component "name"], .string⟩
    cards.Reaches name.steps (.aliased "Text" .string) ∧
    name.get? cards.initial = some (.garbage (.aliased "Text" .string)) ∧
    tag.get? cards.initial = some (.invalid (.unknown default)) ∧
    beyond.get? cards.initial = none ∧
    inside.get? cards.initial = none := by
  intro name tag beyond inside
  obtain ⟨-, hpaths⟩ := initial_has_shape_of_type cards
  have hname : cards.Reaches name.steps (.aliased "Text" .string) := reaches_iff.mpr rfl
  refine ⟨hname, (hpaths name).1 _ hname, (hpaths tag).1 _ (reaches_iff.mpr rfl),
    (hpaths beyond).2 fun u h => ?_, (hpaths inside).2 fun u h => ?_⟩
  · cases h.reach?_eq
  · cases h.reach?_eq

end Ty

end Pseudocode
