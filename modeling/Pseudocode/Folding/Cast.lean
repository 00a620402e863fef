import Pseudocode.Folding.Operation

/-!
# Casts
-/

namespace Pseudocode

inductive CastKind where
  /-- The value would have been converted anyway. -/
  | redundant
  | explicit
  /-- There is no conversion. -/
  | invalid
deriving DecidableEq

structure Cast where
  kind : CastKind
  value : Value

/-- The conversions that only a cast does: between booleans and integers, between characters and
integers, and from a real to an integer. -/
def Ty.castable (source target : Ty) : Bool :=
  match source.unaliased, target.unaliased with
  | .boolean, .integer
  | .integer, .boolean
  | .character, .integer
  | .integer, .character
  | .real, .integer => true
  | _, _ => false

/-- The datum as a datum of type `target`, if it has one that corresponds. -/
def Datum.cast? (d : Datum) (target : Ty) : Option Datum :=
  match d, target.unaliased with
  | .boolean b, .integer => some (.integer (if b then 1 else 0))
  | .integer n, .boolean => some (.boolean (n != 0))
  | .character c, .integer => (Integer.ofInt? c.toNat).map .integer
  | .integer n, .character => (Integer.toChar? n).map .character
  | .real x, .integer => (Real.truncate? x).map .integer
  | _, _ => none

def Value.cast (v : Value) (target : Ty) : Cast :=
  if v.type.isUnknown || target.isUnknown then ⟨.explicit, .invalid target⟩
  else if v.type.convertible target then ⟨.redundant, v.convertTo target⟩
  else if v.type.castable target then
    match v.datum? with
    | some d =>
      match d.cast? target with
      | some d => ⟨.explicit, .known target d⟩
      | none => ⟨.explicit, .runtime target⟩
    | none => ⟨.explicit, ⟨target, .pending v.isInvalid⟩⟩
  else ⟨.invalid, .invalid target⟩

end Pseudocode
