/-!
# Arrays that store only what was written

Every element that was never fetched for writing reads as the fill, so the cost of an array follows
what is written to it and not its length.
-/

namespace Pseudocode

structure SparseArray (α : Type) where
  length : Nat
  fill : α
  /-- The stored elements, each under its zero-based index. -/
  written : List (Nat × α)

namespace SparseArray

variable {α β : Type}

/-- `length` copies of `fill`. -/
def filled (length : Nat) (fill : α) : SparseArray α := ⟨length, fill, []⟩

def isEmpty (a : SparseArray α) : Bool := a.length == 0

/-- The element stored at index `i`, or else the fill. -/
def read (a : SparseArray α) (i : Nat) : α := (a.written.lookup i).getD a.fill

def get? (a : SparseArray α) (i : Nat) : Option α := if i < a.length then some (a.read i) else none

/-- Stores `x` under `i` in place of what is stored there. -/
def store (i : Nat) (x : α) : List (Nat × α) → List (Nat × α)
  | [] => [(i, x)]
  | (j, y) :: rest => if i = j then (i, x) :: rest else (j, y) :: store i x rest

/-- Fetches the element at index `i` for writing and puts `f` of it back. The element is stored from
then on, even if `f` leaves it alone. -/
def modify (a : SparseArray α) (i : Nat) (f : α → α) : SparseArray α :=
  if i < a.length then { a with written := store i (f (a.read i)) a.written } else a

def set (a : SparseArray α) (i : Nat) (x : α) : SparseArray α := a.modify i fun _ => x

/-- Fetches the element at index `i` for writing: what it holds, and what the array becomes once a
value is put back. To write nothing is to put back what was held. -/
def fetch? (a : SparseArray α) (i : Nat) : Option (α × (α → SparseArray α)) :=
  if i < a.length then some (a.read i, a.set i) else none

/-- How many elements are stored. -/
def writtenCount (a : SparseArray α) : Nat := a.written.length

/-- The first `n` elements. -/
def take (a : SparseArray α) (n : Nat) : List α := (List.range (min n a.length)).map a.read

def toList (a : SparseArray α) : List α := a.take a.length

theorem lookup_store_self (i : Nat) (x : α) (written : List (Nat × α)) :
    (store i x written).lookup i = some x := by
  induction written with
  | nil => simp [store]
  | cons entry rest ih =>
    obtain ⟨j, y⟩ := entry
    by_cases hij : i = j
    · simp [store, hij]
    · have hbeq : (i == j) = false := by simp [hij]
      simp [store, hij, List.lookup_cons, hbeq, ih]

theorem lookup_store_of_ne {i j : Nat} (hne : j ≠ i) (x : α) (written : List (Nat × α)) :
    (store i x written).lookup j = written.lookup j := by
  have hbeq : (j == i) = false := by simp [hne]
  induction written with
  | nil => simp [store, List.lookup_cons, hbeq]
  | cons entry rest ih =>
    obtain ⟨k, y⟩ := entry
    by_cases hik : i = k
    · subst hik
      simp [store, List.lookup_cons, hbeq]
    · simp [store, hik, List.lookup_cons, ih]

@[simp]
theorem length_modify (a : SparseArray α) (i : Nat) (f : α → α) :
    (a.modify i f).length = a.length := by
  unfold modify
  split <;> rfl

@[simp]
theorem fill_modify (a : SparseArray α) (i : Nat) (f : α → α) :
    (a.modify i f).fill = a.fill := by
  unfold modify
  split <;> rfl

theorem read_modify_self (a : SparseArray α) {i : Nat} (f : α → α) (h : i < a.length) :
    (a.modify i f).read i = f (a.read i) := by
  simp [modify, h, read, lookup_store_self]

theorem read_modify_of_ne (a : SparseArray α) {i j : Nat} (f : α → α) (hne : j ≠ i) :
    (a.modify i f).read j = a.read j := by
  unfold modify
  split
  · simp [read, lookup_store_of_ne hne]
  · rfl

theorem get?_eq_none_iff (a : SparseArray α) (i : Nat) : a.get? i = none ↔ a.length ≤ i := by
  simp [get?]

theorem get?_modify_self (a : SparseArray α) (i : Nat) (f : α → α) :
    (a.modify i f).get? i = (a.get? i).map f := by
  by_cases h : i < a.length
  · simp [get?, h, read_modify_self]
  · simp [get?, h]

theorem get?_modify_of_ne (a : SparseArray α) {i j : Nat} (f : α → α) (hne : j ≠ i) :
    (a.modify i f).get? j = a.get? j := by
  simp [get?, read_modify_of_ne a f hne]

@[simp]
theorem length_toList (a : SparseArray α) : a.toList.length = a.length := by
  simp [toList, take]

theorem getElem?_toList (a : SparseArray α) (i : Nat) : a.toList[i]? = a.get? i := by
  by_cases h : i < a.length
  · simp [toList, take, get?, h]
  · simp [toList, take, get?, h]

end SparseArray

end Pseudocode
