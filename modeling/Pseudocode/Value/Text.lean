import Pseudocode.Real.Decimal
import Pseudocode.Text
import Pseudocode.Ty.Text
import Pseudocode.Value.Basic

/-!
# Values in messages
-/

namespace Pseudocode

/-- How many elements of an array are shown. -/
def shownElements : Nat := 8

def arrayElementsText (texts : SparseArray String) : String :=
  let shown := ", ".intercalate (texts.take shownElements)
  let hidden := texts.length - shownElements
  if hidden = 0 then "\x7b" ++ shown ++ "\x7d"
  else "\x7b" ++ shown ++ s!", ({hidden} more...)\x7d"

mutual

def Status.text : Status → String
  | .known datum => datum.text
  | .runtime => "<runtime>"
  | .garbage => "<garbage>"
  | .invalid => "<invalid>"

def Datum.text : Datum → String
  | .boolean b => if b then "vrai" else "faux"
  | .character c => "'" ++ Text.escapeChar c ++ "'"
  | .integer n => toString n.toInt
  | .real x => Real.text x
  | .string s => "\"" ++ Text.escape s ++ "\""
  | .array ⟨length, ⟨_, fill⟩, written⟩ =>
    arrayElementsText ⟨length, fill.text, Datum.writtenTexts written⟩
  | .struct components => "\x7b" ++ ", ".intercalate (Datum.componentTexts components) ++ "\x7d"

/-- The texts of the stored elements of an array. -/
def Datum.writtenTexts : List (Nat × Value) → List (Nat × String)
  | [] => []
  | (i, ⟨_, status⟩) :: rest => (i, status.text) :: Datum.writtenTexts rest

def Datum.componentTexts : List (String × Value) → List String
  | [] => []
  | (name, ⟨_, status⟩) :: rest => ("." ++ name ++ " := " ++ status.text) :: Datum.componentTexts rest

end

def Value.text (v : Value) : String := v.status.text ++ " (" ++ v.type.text ++ ")"

end Pseudocode
