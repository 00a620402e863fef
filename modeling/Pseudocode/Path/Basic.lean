import Pseudocode.Path.Step

/-!
# Positions in an aggregate that an initializer fills

A path is a non-empty chain of steps together with the type at its end. Filling an aggregate moves a
path from slot to slot: the innermost level goes first, and a level that is used up hands over to
the level around it.
-/

namespace Pseudocode

structure Path where
  first : Step
  rest : List Step
  /-- The type at the end of the path. -/
  type : Ty

namespace Path

def steps (p : Path) : List Step := p.first :: p.rest

/-- The path along `steps`, if there are any, to a slot of type `leaf`. -/
def ofSteps? : List Step → Ty → Option Path
  | [], _ => none
  | first :: rest, leaf => some ⟨first, rest, leaf⟩

/-- The path of the single step to a slot. -/
def ofSlot (slot : Step × Ty) : Path := ⟨slot.1, [], slot.2⟩

/-- The first slot of an aggregate. -/
def start? (aggregate : Ty) : Option Path := aggregate.firstSlot?.map ofSlot

/-- The position after the one that the steps lead to. -/
def next? (aggregate : Ty) : Step → List Step → Option Path
  | first, [] => (aggregate.nextSlot? first).map ofSlot
  | first, second :: rest =>
    match aggregate.slot? first with
    | none => none
    | some inner =>
      match next? inner second rest with
      | some p => some ⟨first, p.steps, p.type⟩
      | none => (aggregate.nextSlot? first).map ofSlot

def advance? (p : Path) (aggregate : Ty) : Option Path := next? aggregate p.first p.rest

def get? (p : Path) (v : Value) : Option Value := v.get? p.steps

def set (p : Path) (v new : Value) : Value := v.set p.steps new

@[simp]
theorem steps_ofSlot (slot : Step × Ty) : (ofSlot slot).steps = [slot.1] := rfl

theorem steps_of_ofSteps? {steps : List Step} {leaf : Ty} {p : Path}
    (h : ofSteps? steps leaf = some p) : p.steps = steps ∧ p.type = leaf := by
  cases steps with
  | nil => cases h
  | cons first rest =>
    cases h
    exact ⟨rfl, rfl⟩

end Path

end Pseudocode
