/-!
# Quoted characters and byte ranges of a text
-/

namespace Pseudocode.Text

/-- Spells `c` with printable ASCII characters only. -/
def escapeChar (c : Char) : String :=
  match c.toNat with
  | 9 => "\\t"
  | 10 => "\\n"
  | 13 => "\\r"
  | 34 => "\\\""
  | 39 => "\\'"
  | 92 => "\\\\"
  | n =>
    if 32 ≤ n ∧ n ≤ 126 then String.singleton c
    else "\\u\x7b" ++ String.ofList (Nat.toDigits 16 n) ++ "\x7d"

def escape (s : String) : String := String.join (s.toList.map escapeChar)

/-- What remains of a text after its first `n` bytes, if they end at a character's end. -/
def dropBytes : Nat → List Char → Option (List Char)
  | 0, cs => some cs
  | _ + 1, [] => none
  | n + 1, c :: cs => if c.utf8Size ≤ n + 1 then dropBytes (n + 1 - c.utf8Size) cs else none

/-- The first `n` bytes of a text, if they end at a character's end. -/
def takeBytes : Nat → List Char → Option (List Char)
  | 0, _ => some []
  | _ + 1, [] => none
  | n + 1, c :: cs =>
    if c.utf8Size ≤ n + 1 then (takeBytes (n + 1 - c.utf8Size) cs).map (c :: ·) else none

/-- The `length` bytes of `text` from byte `offset` on, if both ends are ends of characters. -/
def slice? (text : String) (offset length : Nat) : Option String :=
  ((dropBytes offset text.toList).bind (takeBytes length)).map String.ofList

end Pseudocode.Text
