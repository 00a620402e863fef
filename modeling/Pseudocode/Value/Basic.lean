import Pseudocode.Ty.Relation
import Pseudocode.Real.Binary
import Pseudocode.Value.SparseArray

/-!
# Values

A value has a type and a status. The status says how much is known about the value during analysis.
-/

namespace Pseudocode

mutual

structure Value where
  type : Ty
  status : Status

inductive Status where
  /-- Fully known. -/
  | known (datum : Datum)
  /-- Decided when the program runs. -/
  | runtime
  /-- The contents of a place that nothing was stored in. -/
  | garbage
  /-- The result of an erroneous expression, which causes no further errors. -/
  | invalid

inductive Datum where
  | boolean (b : Bool)
  | character (c : Char)
  | integer (n : Int32)
  | real (x : Float)
  | string (s : String)
  | array (elements : SparseArray Value)
  /-- Components in declaration order. -/
  | struct (components : List (String × Value))

end

namespace Value

def known (type : Ty) (datum : Datum) : Value := ⟨type, .known datum⟩

def runtime (type : Ty) : Value := ⟨type, .runtime⟩

def garbage (type : Ty) : Value := ⟨type, .garbage⟩

def invalid (type : Ty) : Value := ⟨type, .invalid⟩

def boolean (b : Bool) : Value := known .boolean (.boolean b)

def character (c : Char) : Value := known .character (.character c)

def integer (n : Int32) : Value := known .integer (.integer n)

def real (x : Float) : Value := known .real (.real x)

/-- A string literal is typed by its length. -/
def string (s : String) : Value := known (.boundedString s.length) (.string s)

def datum? (v : Value) : Option Datum :=
  match v.status with
  | .known d => some d
  | _ => none

def isKnown (v : Value) : Bool := v.datum?.isSome

def isInvalid (v : Value) : Bool :=
  match v.status with
  | .invalid => true
  | _ => false

def boolean? (v : Value) : Option Bool :=
  match v.status with
  | .known (.boolean b) => some b
  | _ => none

def character? (v : Value) : Option Char :=
  match v.status with
  | .known (.character c) => some c
  | _ => none

def integer? (v : Value) : Option Int32 :=
  match v.status with
  | .known (.integer n) => some n
  | _ => none

def string? (v : Value) : Option String :=
  match v.status with
  | .known (.string s) => some s
  | _ => none

def elements? (v : Value) : Option (SparseArray Value) :=
  match v.status with
  | .known (.array elements) => some elements
  | _ => none

/-- The first component called `name`. -/
def component? (v : Value) (name : String) : Option Value :=
  match v.status with
  | .known (.struct components) => components.lookup name
  | _ => none

end Value

/-- The number that a datum stands for, an integer being taken as a real. -/
def Datum.number? : Datum → Option Float
  | .integer n => some (Real.ofInteger n)
  | .real x => some x
  | _ => none

def Value.real? (v : Value) : Option Float := v.datum?.bind Datum.number?

/-- A status under a new type: a known integer becomes a real if the type asks for one. -/
def Status.convertTo : Status → Ty → Status
  | .known (.integer n), target =>
    match target.unaliased with
    | .real => .known (.real (Real.ofInteger n))
    | _ => .known (.integer n)
  | status, _ => status

/-- Gives `v` the type `target`, which its own type is assignable to. -/
def Value.convertTo (v : Value) (target : Ty) : Value := ⟨target, v.status.convertTo target⟩

/-- What a place of type `target` holds once `v` is stored in it. -/
def Value.storedAs (v : Value) (target : Ty) : Value :=
  if v.type.assignable target then v.convertTo target else invalid target

mutual

/-- The contents of a place that was declared and not yet written. -/
def Ty.initial : Ty → Value
  | .unknown origin => .invalid (.unknown origin)
  | .void => .runtime .void
  | .boolean => .known .boolean (.boolean false)
  | .character => .known .character (.character (Char.ofNat 0))
  | .integer => .known .integer (.integer 0)
  | .real => .known .real (.real 0)
  | .file => .garbage .file
  | .string => .garbage .string
  | .boundedString n => .garbage (.boundedString n)
  | .array item n => .known (.array item n) (.array (.filled n item.initial))
  | .struct components =>
    .known (.struct components) (.struct (Ty.initialComponents components))
  | .aliased name target => ⟨.aliased name target, target.initial.status⟩

def Ty.initialComponents : List (String × Ty) → List (String × Value)
  | [] => []
  | (name, t) :: rest => (name, t.initial) :: Ty.initialComponents rest

end

@[simp]
theorem Ty.type_initial (t : Ty) : t.initial.type = t := by
  cases t <;> simp [Ty.initial, Value.invalid, Value.runtime, Value.known, Value.garbage]

@[simp]
theorem Value.type_convertTo (v : Value) (target : Ty) : (v.convertTo target).type = target := rfl

@[simp]
theorem Value.type_storedAs (v : Value) (target : Ty) : (v.storedAs target).type = target := by
  unfold Value.storedAs
  split <;> rfl

end Pseudocode
