import Pseudocode.Real.Binary

/-!
# Decimal text of a real

The text has the fewest digits that read back as the same double. Such digits lie on the coarsest
decimal grid `10 ^ k` that has a point among the numbers that round to the double.
-/

namespace Pseudocode.Real

/-- The numbers that round to a double, as fractions of one denominator. Both ends belong to the
interval if `closed` holds. -/
structure Rounding where
  low : Nat
  value : Nat
  high : Nat
  denominator : Nat
  closed : Bool

/-- The interval of `significand * 2 ^ exponent`. It reaches half way to each neighbour; below the
least significand of an exponent the neighbour is only half as far. -/
def Rounding.of (significand : Nat) (exponent : Int) : Rounding :=
  let below := if significand = 1 <<< 52 ∧ -1074 < exponent then 1 else 2
  let scale := 1 <<< (exponent - 2).toNat
  { low := (4 * significand - below) * scale
    value := 4 * significand * scale
    high := (4 * significand + 2) * scale
    denominator := 1 <<< (2 - exponent).toNat
    closed := significand % 2 = 0 }

/-- The multiple of `10 ^ k` next to the value, if it lies in the interval. Of two equally near ones
it is the larger. -/
def Rounding.onGrid (r : Rounding) (k : Int) : Option Nat :=
  let up := Nat.pow 10 (-k).toNat
  let unit := r.denominator * Nat.pow 10 k.toNat
  let floor := r.value * up / unit
  let below : Bool :=
    if r.closed then r.low * up ≤ floor * unit else r.low * up < floor * unit
  let above : Bool :=
    if r.closed then (floor + 1) * unit ≤ r.high * up else (floor + 1) * unit < r.high * up
  match below, above with
  | true, true => some (if (2 * floor + 1) * unit ≤ 2 * (r.value * up) then floor + 1 else floor)
  | true, false => some floor
  | false, true => some (floor + 1)
  | false, false => none

/-- Grids from coarse to fine. No double needs one outside this range. -/
def gridExponents : List Int := (List.range 634).map fun i : Nat => 309 - (i : Int)

/-- The digits `n` and the exponent `k` of the shortest decimal `n * 10 ^ k` in the interval. -/
def Rounding.shortest (r : Rounding) : Nat × Int :=
  (gridExponents.findSome? fun k => (r.onGrid k).map (·, k)).getD (0, 0)

def zeros (n : Nat) : List Char := List.replicate n '0'

/-- Writes `n * 10 ^ k` without an exponent, with at least one digit after the point. -/
def positional (digits : List Char) (k : Int) : List Char :=
  let whole := (digits.length + k).toNat
  if 0 ≤ k then digits ++ zeros k.toNat ++ ['.', '0']
  else if whole = 0 then ['0', '.'] ++ zeros (-k - digits.length).toNat ++ digits
  else digits.take whole ++ ['.'] ++ digits.drop whole

/-- Writes the number with its point after the first digit and an exponent `e`. -/
def scientific (digits : List Char) (e : Int) : List Char :=
  let fraction := digits.drop 1
  digits.take 1 ++ (if fraction.isEmpty then [] else '.' :: fraction) ++ ['e'] ++
    (toString e).toList

/-- Writes a positive magnitude: without an exponent from `10 ^ -4` up to `10 ^ 16`. -/
def magnitudeText (significand : Nat) (exponent : Int) : List Char :=
  let (n, k) := (Rounding.of significand exponent).shortest
  let digits := Nat.toDigits 10 n
  let e := k + digits.length - 1
  if -4 ≤ e ∧ e < 16 then positional digits k else scientific digits e

def text (x : Float) : String :=
  match parts x with
  | .notANumber => "NaN"
  | .infinite negative => if negative then "-inf" else "inf"
  | .finite negative significand exponent =>
    let digits := if significand = 0 then ['0', '.', '0'] else magnitudeText significand exponent
    String.ofList (if negative then '-' :: digits else digits)

end Pseudocode.Real
