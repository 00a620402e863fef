import Pseudocode.Value.Basic

/-!
# Steps into an aggregate

A step leads from an aggregate to one of its slots: an element of an array or a component of a
structure. Types tell which slots there are and in which order; values tell what is in them.
-/

namespace Pseudocode

inductive Step where
  /-- Zero-based index into an array. -/
  | index (i : Nat)
  | component (name : String)
deriving DecidableEq

/-- Why a designator selects nothing. -/
inductive DesignatorError where
  /-- The one-based `index` is outside `1` to `length`. -/
  | indexOutOfBounds (index : Int32) (length : Nat)
  | noSuchComponent
  /-- An index into something not an array, or a component of something not a structure. -/
  | wrongAggregate
deriving DecidableEq

namespace Ty

/-- The slot for the one-based `index`, and its type. -/
def indexStep (t : Ty) (index : Int32) : Except DesignatorError (Step × Ty) :=
  match t.unaliased with
  | .array item length =>
    if 1 ≤ index.toInt ∧ index.toInt ≤ length then .ok (.index (index.toInt.toNat - 1), item)
    else .error (.indexOutOfBounds index length)
  | _ => .error .wrongAggregate

/-- The slot for the component `name`, and its type. -/
def componentStep (t : Ty) (name : String) : Except DesignatorError (Step × Ty) :=
  match t.unaliased with
  | .struct components =>
    match components.lookup name with
    | some type => .ok (.component name, type)
    | none => .error .noSuchComponent
  | _ => .error .wrongAggregate

/-- The type of the slot that `step` leads to. -/
def slot? (t : Ty) (step : Step) : Option Ty :=
  match t.unaliased, step with
  | .array item length, .index i => if i < length then some item else none
  | .struct components, .component name => components.lookup name
  | _, _ => none

/-- The first slot and its type. -/
def firstSlot? (t : Ty) : Option (Step × Ty) :=
  match t.unaliased with
  | .array item length => if 0 < length then some (.index 0, item) else none
  | .struct components => components.head?.map fun (name, type) => (.component name, type)
  | _ => none

/-- What follows the first component called `name`. -/
def componentsAfter (name : String) : List (String × Ty) → List (String × Ty)
  | [] => []
  | (n, _) :: rest => if n = name then rest else componentsAfter name rest

/-- The slot after the one that `step` leads to, and its type. -/
def nextSlot? (t : Ty) (step : Step) : Option (Step × Ty) :=
  match t.unaliased, step with
  | .array item length, .index i => if i + 1 < length then some (.index (i + 1), item) else none
  | .struct components, .component name =>
    (componentsAfter name components).head?.map fun (name, type) => (.component name, type)
  | _, _ => none

end Ty

namespace Value

/-- What is in the slot that `step` leads to. Only a known aggregate has slots. -/
def slot? (v : Value) (step : Step) : Option Value :=
  match v.status, step with
  | .known (.array elements), .index i => elements.get? i
  | .known (.struct components), .component name => components.lookup name
  | _, _ => none

/-- Changes the first component called `name`. -/
def modifyComponent (name : String) (f : Value → Value) :
    List (String × Value) → List (String × Value)
  | [] => []
  | (n, v) :: rest => if n = name then (n, f v) :: rest else (n, v) :: modifyComponent name f rest

/-- Changes what is in the slot that `step` leads to, if there is such a slot. -/
def modifySlot (v : Value) (step : Step) (f : Value → Value) : Value :=
  match v.status, step with
  | .known (.array elements), .index i => ⟨v.type, .known (.array (elements.modify i f))⟩
  | .known (.struct components), .component name =>
    ⟨v.type, .known (.struct (modifyComponent name f components))⟩
  | _, _ => v

/-- What is at the end of the steps. -/
def get? (v : Value) : List Step → Option Value
  | [] => some v
  | step :: rest => (v.slot? step).bind (get? · rest)

/-- Puts `new` at the end of the steps, if they lead anywhere. -/
def set (v : Value) : List Step → Value → Value
  | [], new => new
  | step :: rest, new => v.modifySlot step (set · rest new)

end Value

end Pseudocode
