/-!
# Integers of the language

An integer of the language has 32 bits. Arithmetic is carried out exactly, and a result that does
not fit is no integer of the language at all: it never wraps around.
-/

namespace Pseudocode.Integer

/-- The integer of the language that equals `n`, if there is one. -/
def ofInt? (n : Int) : Option Int32 :=
  if Int32.minValue.toInt ≤ n ∧ n ≤ Int32.maxValue.toInt then some (Int32.ofInt n) else none

def add? (a b : Int32) : Option Int32 := ofInt? (a.toInt + b.toInt)

def sub? (a b : Int32) : Option Int32 := ofInt? (a.toInt - b.toInt)

def mul? (a b : Int32) : Option Int32 := ofInt? (a.toInt * b.toInt)

/-- The quotient, rounded toward zero. -/
def div? (a b : Int32) : Option Int32 := ofInt? (a.toInt.tdiv b.toInt)

/-- The remainder that goes with `div?`: it has the sign of `a`. -/
def mod? (a b : Int32) : Option Int32 := ofInt? (a.toInt.tmod b.toInt)

def neg? (a : Int32) : Option Int32 := ofInt? (-a.toInt)

/-- The character with scalar value `n`, if there is one. -/
def toChar? (n : Int32) : Option Char :=
  if 0 ≤ n.toInt ∧ n.toInt.toNat.isValidChar then some (Char.ofNat n.toInt.toNat) else none

theorem ofInt?_eq_some_iff {n : Int} {k : Int32} : ofInt? n = some k ↔ k.toInt = n := by
  unfold ofInt?
  split <;> rename_i h
  · rw [Option.some_inj]
    constructor
    · rintro rfl
      exact Int32.toInt_ofInt_of_le h.1 (Int.lt_add_one_of_le h.2)
    · rintro rfl
      exact Int32.ofInt_toInt k
  · constructor
    · intro hnone
      cases hnone
    · rintro rfl
      exact absurd ⟨k.minValue_le_toInt, k.toInt_le⟩ h

theorem ofInt?_toInt (k : Int32) : ofInt? k.toInt = some k := ofInt?_eq_some_iff.mpr rfl

theorem ofInt?_eq_none_iff {n : Int} :
    ofInt? n = none ↔ n < Int32.minValue.toInt ∨ Int32.maxValue.toInt < n := by
  unfold ofInt?
  split <;> rename_i h
  · simp only [reduceCtorEq, false_iff]
    omega
  · simp only [true_iff]
    omega

end Pseudocode.Integer
