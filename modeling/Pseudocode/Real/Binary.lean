import Pseudocode.Integer

/-!
# Doubles as exact numbers

A finite double is a sign and a magnitude `significand * 2 ^ exponent`. Remainder and truncation
are computed on that form, in exact integer arithmetic.
-/

namespace Pseudocode.Real

inductive Parts where
  | notANumber
  | infinite (negative : Bool)
  | finite (negative : Bool) (significand : Nat) (exponent : Int)
deriving DecidableEq

/-- Reads a double from its sign bit, its 11 exponent bits and its 52 fraction bits. -/
def parts (x : Float) : Parts :=
  let bits := x.toBits.toNat
  let negative := decide (1 <<< 63 ≤ bits)
  let exponent : Nat := bits >>> 52 % 2048
  let fraction := bits % 1 <<< 52
  if exponent = 2047 then
    if fraction = 0 then .infinite negative else .notANumber
  else if exponent = 0 then .finite negative fraction (-1074)
  else .finite negative (fraction + 1 <<< 52) ((exponent : Int) - 1075)

/-- The double with the given sign and magnitude `significand * 2 ^ exponent`, for a magnitude that
some double has. The significand is moved up to 53 bits as far as the least exponent allows. -/
def ofParts (negative : Bool) (significand : Nat) (exponent : Int) : Float :=
  let shift := min (52 - significand.log2) (exponent + 1074).toNat
  let significand := significand <<< shift
  let magnitude :=
    if significand < 1 <<< 52 then significand
    else (exponent - shift + 1075).toNat <<< 52 + (significand - 1 <<< 52)
  Float.ofBits (UInt64.ofNat ((if negative then 1 <<< 63 else 0) + magnitude))

def nan : Float := Float.ofBits 0x7ff8000000000000

/-- The remainder of the quotient rounded toward zero, without rounding error. It has the sign of
`x`. -/
def remainder (x y : Float) : Float :=
  match parts x, parts y with
  | .finite negative a p, .finite _ b q =>
    if b = 0 then nan
    else
      let e := min p q
      ofParts negative (a <<< (p - e).toNat % b <<< (q - e).toNat) e
  | .finite .., .infinite _ => x
  | _, _ => nan

/-- Drops the fraction, if the rest is an integer of the language. -/
def truncate? (x : Float) : Option Int32 :=
  match parts x with
  | .finite negative significand exponent =>
    let magnitude := significand <<< exponent.toNat >>> (-exponent).toNat
    Integer.ofInt? (if negative then -magnitude else magnitude)
  | _ => none

def ofInteger (n : Int32) : Float := Float.ofInt n.toInt

/-- The order of two reals; none if one of them is not a number. -/
def compare? (x y : Float) : Option Ordering :=
  if x < y then some .lt
  else if x == y then some .eq
  else if y < x then some .gt
  else none

end Pseudocode.Real
