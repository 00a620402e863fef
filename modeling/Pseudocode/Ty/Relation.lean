import Pseudocode.Ty.Basic

/-!
# How types relate

Three relations, each wider than the one before: two types are the same, a value of one converts to
the other, a value of one may be stored in a place of the other. Aliases do not matter to any of
them, and an unknown type is the same as every type.
-/

namespace Pseudocode.Ty

mutual

def same : Ty → Ty → Bool
  | .aliased _ a, b => same a b
  | .array a n, b =>
    match b.unaliased with
    | .unknown _ => true
    | .array b m => n == m && same a b
    | _ => false
  | .struct as, b =>
    match b.unaliased with
    | .unknown _ => true
    | .struct bs => sameComponents as bs
    | _ => false
  | a, b =>
    match a, b.unaliased with
    | .unknown _, _ | _, .unknown _ => true
    | .void, .void
    | .boolean, .boolean
    | .character, .character
    | .integer, .integer
    | .real, .real
    | .file, .file
    | .string, .string => true
    | .boundedString n, .boundedString m => n == m
    | _, _ => false

/-- Equally many components, pairwise of one name and the same type. -/
def sameComponents : List (String × Ty) → List (String × Ty) → Bool
  | [], [] => true
  | (n, a) :: as, (m, b) :: bs => n == m && same a b && sameComponents as bs
  | _, _ => false

end

@[simp]
theorem same_unaliased_left (a b : Ty) : a.unaliased.same b = a.same b := by
  fun_induction unaliased a with
  | case1 name target ih => rw [ih, same]
  | case2 t _ => rfl

/-- A conversion without a cast: an integer to a real, a bounded string to a string. -/
def convertible (a b : Ty) : Bool :=
  a.same b ||
    match a.unaliased, b.unaliased with
    | .integer, .real | .boundedString _, .string => true
    | _, _ => false

/-- Convertible, or a bounded string that fits into a place for a longer one. -/
def assignable (a b : Ty) : Bool :=
  a.convertible b ||
    match a.unaliased, b.unaliased with
    | .boundedString n, .boundedString m => n ≤ m
    | _, _ => false

theorem convertible_of_same {a b : Ty} (h : a.same b = true) : a.convertible b = true := by
  simp [convertible, h]

theorem assignable_of_convertible {a b : Ty} (h : a.convertible b = true) :
    a.assignable b = true := by
  simp [assignable, h]

end Pseudocode.Ty
