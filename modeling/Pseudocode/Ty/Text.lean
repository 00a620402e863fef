import Pseudocode.Ty.Basic

/-!
# Types in messages
-/

namespace Pseudocode.Ty

/-- How many components of a structure are shown. -/
def shownComponents : Nat := 3

/-- Encloses the text of an item type in the array levels around it, outermost first. -/
def arrayText (lengths : List Nat) (item : String) : String :=
  if lengths.isEmpty then item
  else "tableau(" ++ item ++ ")" ++ String.join (lengths.map fun n => s!"[{n}]")

def structText (components : List String) : String :=
  if components.isEmpty then "structure \x7b \x7d"
  else
    let shown := ", ".intercalate (components.take shownComponents)
    let hidden := components.length - shownComponents
    if hidden = 0 then "structure \x7b " ++ shown ++ " \x7d"
    else "structure \x7b " ++ shown ++ s!", ... ({hidden} more...) \x7d"

mutual

/-- The text of a type that is the item of array levels of the given lengths. -/
def textWithin (lengths : List Nat) : Ty → String
  | .unknown _ => arrayText lengths "<unknown-type>"
  | .void => arrayText lengths "<void>"
  | .boolean => arrayText lengths "booléen"
  | .character => arrayText lengths "caractère"
  | .integer => arrayText lengths "entier"
  | .real => arrayText lengths "réel"
  | .file => arrayText lengths "nomFichierLog"
  | .string => arrayText lengths "chaîne"
  | .boundedString n => arrayText lengths s!"chaîne({n})"
  | .array item n => textWithin (lengths ++ [n]) item
  | .struct components => arrayText lengths (structText (componentTexts components))
  | .aliased name _ => arrayText lengths name

def componentTexts : List (String × Ty) → List String
  | [] => []
  | (name, t) :: rest => (name ++ ": " ++ textWithin [] t) :: componentTexts rest

end

/-- The short form of a type: an alias is shown by its name. -/
def text (t : Ty) : String := textWithin [] t

/-- The long form of a type: an alias is shown with what it stands for. -/
def fullText : Ty → String
  | .aliased name target => "'" ++ name ++ "' \x7baka '" ++ target.unaliased.text ++ "'\x7d"
  | t => "'" ++ t.text ++ "'"

end Pseudocode.Ty
