import Mathlib.Data.Finset.Card
import Pseudocode.Value.SparseArray

/-!
# Sparse arrays as total functions

A sparse array is written to by fetching its elements, one at a time. Whatever the history of
fetches, the array reads as a table with an entry for each index below its length: the entry is what
was written there last, or else the fill. What it stores is one element for each index that was
fetched, no matter whether anything was written.
-/

namespace Pseudocode.SparseArray

variable {α : Type}

/-- An element is fetched for writing. What is written to it is `value`, if anything is. -/
structure Fetch (α : Type) where
  index : Nat
  value : Option α

/-- The array after the fetch. Outside of the array there is nothing to fetch. -/
def perform (a : SparseArray α) (f : Fetch α) : SparseArray α :=
  match a.fetch? f.index with
  | some (old, put) => put (f.value.getD old)
  | none => a

def performAll (a : SparseArray α) (fs : List (Fetch α)) : SparseArray α := fs.foldl perform a

/-- The last value that was written at index `i`. -/
def lastWritten? (i : Nat) (fs : List (Fetch α)) : Option α :=
  ((fs.filter (·.index = i)).filterMap (·.value)).getLast?

/-- The different indices below `n` that were fetched. -/
def fetchedBelow (n : Nat) (fs : List (Fetch α)) : Finset Nat :=
  ((fs.map (·.index)).filter (· < n)).toFinset

/-! ### Single fetches -/

theorem isSome_fetch? (a : SparseArray α) (i : Nat) :
    (a.fetch? i).isSome = true ↔ i < a.length := by
  unfold fetch?
  split <;> rename_i hi <;> simp [hi]

theorem fetch?_eq_some {a : SparseArray α} {i : Nat} {old : α} {put : α → SparseArray α}
    (h : a.fetch? i = some (old, put)) :
    i < a.length ∧ a.get? i = some old ∧ put = a.set i := by
  unfold fetch? at h
  split at h
  · rename_i hi
    cases h
    exact ⟨hi, if_pos hi, rfl⟩
  · cases h

theorem perform_eq_modify (a : SparseArray α) (f : Fetch α) :
    a.perform f = a.modify f.index f.value.getD := by
  unfold perform fetch?
  by_cases hi : f.index < a.length
  · simp [hi, set, modify]
  · simp [hi, modify]

/-- Whatever is done to an element in place, it amounts to writing a value. -/
theorem modify_eq_perform (a : SparseArray α) (i : Nat) (f : α → α) :
    a.modify i f = a.perform ⟨i, (a.get? i).map f⟩ := by
  rw [perform_eq_modify]
  by_cases hi : i < a.length
  · simp [modify, get?, hi]
  · simp [modify, hi]

@[simp]
theorem length_perform (a : SparseArray α) (f : Fetch α) : (a.perform f).length = a.length := by
  rw [perform_eq_modify, length_modify]

theorem read_perform {a : SparseArray α} {i : Nat} (hi : i < a.length) (f : Fetch α) :
    (a.perform f).read i = (if f.index = i then f.value else none).getD (a.read i) := by
  rw [perform_eq_modify]
  by_cases heq : f.index = i
  · subst heq
    rw [if_pos rfl, read_modify_self a _ hi]
  · rw [if_neg heq, read_modify_of_ne a _ (Ne.symm heq), Option.getD_none]

/-! ### What is read after many fetches -/

theorem performAll_cons (a : SparseArray α) (f : Fetch α) (rest : List (Fetch α)) :
    a.performAll (f :: rest) = (a.perform f).performAll rest :=
  rfl

@[simp]
theorem length_performAll (a : SparseArray α) (fs : List (Fetch α)) :
    (a.performAll fs).length = a.length := by
  induction fs generalizing a with
  | nil => rfl
  | cons f rest ih => rw [performAll_cons, ih, length_perform]

theorem lastWritten?_cons (i : Nat) (f : Fetch α) (rest : List (Fetch α)) :
    lastWritten? i (f :: rest) =
      (lastWritten? i rest).or (if f.index = i then f.value else none) := by
  unfold lastWritten?
  by_cases heq : f.index = i
  · rw [if_pos heq, List.filter_cons_of_pos (by simpa using heq)]
    cases hvalue : f.value with
    | none => rw [List.filterMap_cons_none hvalue, Option.or_none]
    | some x =>
      rw [List.filterMap_cons_some hvalue, List.getLast?_cons]
      cases (List.filterMap (·.value) (rest.filter (·.index = i))).getLast? <;> rfl
  · rw [if_neg heq, List.filter_cons_of_neg (by simpa using heq), Option.or_none]

theorem read_performAll {a : SparseArray α} {i : Nat} (hi : i < a.length) (fs : List (Fetch α)) :
    (a.performAll fs).read i = (lastWritten? i fs).getD (a.read i) := by
  induction fs generalizing a with
  | nil => rfl
  | cons f rest ih =>
    have hi' : i < (a.perform f).length := by rwa [length_perform]
    -- What the first fetch wrote is the fallback for the rest, as the fill is for all of them.
    rw [performAll_cons, ih hi', read_perform hi, lastWritten?_cons, Option.getD_or]

/-! ### What is stored after many fetches -/

/-- The indices of the stored elements. -/
def storedIndices (a : SparseArray α) : List Nat := a.written.map (·.1)

/-- The array stores one element for each of the indices. -/
structure Stores (a : SparseArray α) (indices : Finset Nat) : Prop where
  nodup : a.storedIndices.Nodup
  toFinset_eq : a.storedIndices.toFinset = indices

theorem Stores.writtenCount_eq {a : SparseArray α} {indices : Finset Nat} (h : a.Stores indices) :
    a.writtenCount = indices.card := by
  rw [← h.toFinset_eq, List.toFinset_card_of_nodup h.nodup, storedIndices, List.length_map]
  rfl

theorem stores_filled (n : Nat) (fill : α) : (filled n fill).Stores ∅ := ⟨.nil, rfl⟩

theorem map_fst_store (i : Nat) (x : α) (written : List (Nat × α)) :
    (store i x written).map (·.1) =
      if i ∈ written.map (·.1) then written.map (·.1) else written.map (·.1) ++ [i] := by
  induction written with
  | nil => rfl
  | cons entry rest ih =>
    obtain ⟨j, y⟩ := entry
    rw [store]
    by_cases hij : i = j
    · simp [hij]
    · rw [if_neg hij, List.map_cons, ih, List.map_cons]
      by_cases hmem : i ∈ rest.map (·.1)
      · rw [if_pos hmem, if_pos (List.mem_cons_of_mem _ hmem)]
      · rw [if_neg hmem, if_neg (by simpa [hij] using hmem), List.cons_append]

/-- The index of a fetch is stored from then on, after those that were stored before. -/
theorem storedIndices_perform {a : SparseArray α} {f : Fetch α} (hi : f.index < a.length) :
    (a.perform f).storedIndices =
      if f.index ∈ a.storedIndices then a.storedIndices else a.storedIndices ++ [f.index] := by
  rw [perform_eq_modify, modify, if_pos hi]
  exact map_fst_store ..

theorem Stores.perform {a : SparseArray α} {indices : Finset Nat} (h : a.Stores indices)
    (f : Fetch α) :
    (a.perform f).Stores (if f.index < a.length then insert f.index indices else indices) := by
  by_cases hi : f.index < a.length
  · have hstored := storedIndices_perform hi
    rw [if_pos hi, ← h.toFinset_eq]
    by_cases hmem : f.index ∈ a.storedIndices
    · rw [if_pos hmem] at hstored
      refine ⟨hstored ▸ h.nodup, ?_⟩
      rw [hstored, Finset.insert_eq_of_mem (List.mem_toFinset.mpr hmem)]
    · rw [if_neg hmem] at hstored
      refine ⟨?_, ?_⟩
      · rw [hstored, ← List.concat_eq_append]
        exact h.nodup.concat hmem
      · rw [hstored, List.toFinset_append, Finset.union_comm]
        rfl
  · rw [if_neg hi, perform_eq_modify, modify, if_neg hi]
    exact h

theorem fetchedBelow_cons (n : Nat) (f : Fetch α) (rest : List (Fetch α)) :
    fetchedBelow n (f :: rest) =
      if f.index < n then insert f.index (fetchedBelow n rest) else fetchedBelow n rest := by
  unfold fetchedBelow
  by_cases hi : f.index < n <;> simp [hi]

theorem Stores.performAll {a : SparseArray α} {indices : Finset Nat} (h : a.Stores indices)
    (fs : List (Fetch α)) :
    (a.performAll fs).Stores (indices ∪ fetchedBelow a.length fs) := by
  induction fs generalizing a indices with
  | nil => simpa [SparseArray.performAll, fetchedBelow] using h
  | cons f rest ih =>
    rw [performAll_cons, fetchedBelow_cons]
    have hrest := ih (h.perform f)
    rw [length_perform] at hrest
    split <;> rename_i hi
    · rwa [if_pos hi, Finset.insert_union, ← Finset.union_insert] at hrest
    · rwa [if_neg hi] at hrest

theorem card_fetchedBelow_le (n : Nat) (fs : List (Fetch α)) :
    (fetchedBelow n fs).card ≤ n ∧ (fetchedBelow n fs).card ≤ fs.length := by
  constructor
  · have hsubset : fetchedBelow n fs ⊆ Finset.range n := by
      intro i hi
      simp only [fetchedBelow, List.mem_toFinset, List.mem_filter] at hi
      exact Finset.mem_range.mpr (by simpa using hi.2)
    simpa using Finset.card_le_card hsubset
  · calc (fetchedBelow n fs).card
        ≤ ((fs.map (·.index)).filter (· < n)).length := List.toFinset_card_le _
      _ ≤ (fs.map (·.index)).length := List.length_filter_le _ _
      _ = fs.length := List.length_map _

/-! ### The array as a whole -/

theorem map_some_toList (a : SparseArray α) :
    a.toList.map some = (List.range a.length).map a.get? := by
  refine List.ext_getElem? fun i => ?_
  rw [List.getElem?_map, a.getElem?_toList, List.getElem?_map]
  by_cases hi : i < a.length
  · rw [List.getElem?_range hi, Option.map_some, get?, if_pos hi, Option.map_some]
  · rw [List.getElem?_eq_none (by simpa using hi), get?, if_neg hi]
    rfl

/-- **A sparse array is a total function on the indices below its length.** After any fetches, an
index below the length reads as what was written there last, or else as the fill. Just these indices
can be fetched, and what is put back is seen at the fetched index only. The elements in order are
those that are read one by one. As many of them are stored as there are different indices that were
fetched. -/
theorem refines_total_function (n : Nat) (fill : α) (fs : List (Fetch α)) :
    let a := (filled n fill).performAll fs
    (∀ i, a.get? i = none ↔ n ≤ i) ∧
    (∀ i, i < n → a.get? i = some ((lastWritten? i fs).getD fill)) ∧
    (∀ i, (a.fetch? i).isSome = true ↔ i < n) ∧
    (∀ i old put, a.fetch? i = some (old, put) → a.get? i = some old ∧
      ∀ x, (put x).get? i = some x ∧ ∀ j, j ≠ i → (put x).get? j = a.get? j) ∧
    (∀ i f, a.modify i f = a.perform ⟨i, (a.get? i).map f⟩) ∧
    a.toList.length = n ∧
    a.toList.map some = (List.range n).map a.get? ∧
    a.writtenCount = (fetchedBelow n fs).card ∧
    a.writtenCount ≤ n ∧
    a.writtenCount ≤ fs.length := by
  intro a
  have hlength : a.length = n := length_performAll _ fs
  have hcount : a.writtenCount = (fetchedBelow n fs).card := by
    have hstores : a.Stores _ := (stores_filled n fill).performAll fs
    rw [Finset.empty_union] at hstores
    exact hstores.writtenCount_eq
  refine ⟨fun i => ?_, fun i hi => ?_, fun i => ?_, fun i old put hfetch => ?_,
    a.modify_eq_perform, ?_, ?_, hcount, ?_, ?_⟩
  · rw [a.get?_eq_none_iff, hlength]
  · have hread : a.read i = (lastWritten? i fs).getD fill := read_performAll hi fs
    rw [get?, hlength, if_pos hi, hread]
  · rw [a.isSome_fetch?, hlength]
  · obtain ⟨hi, hold, rfl⟩ := fetch?_eq_some hfetch
    refine ⟨hold, fun x => ⟨?_, fun j hj => a.get?_modify_of_ne _ hj⟩⟩
    rw [set, get?_modify_self, hold, Option.map_some]
  · rw [a.length_toList, hlength]
  · rw [a.map_some_toList, hlength]
  · rw [hcount]
    exact (card_fetchedBelow_le n fs).1
  · rw [hcount]
    exact (card_fetchedBelow_le n fs).2

/-- Of a million elements, two are stored: one is written twice and one is fetched for nothing. The
fetch behind the end has no effect. -/
theorem two_of_a_million_stored :
    let fs : List (Fetch Nat) :=
      [⟨999999, some 7⟩, ⟨3, none⟩, ⟨1000000, some 1⟩, ⟨999999, some 8⟩]
    let a := (filled 1000000 0).performAll fs
    a.get? 999999 = some 8 ∧ a.get? 3 = some 0 ∧ a.get? 1000000 = none ∧ a.writtenCount = 2 ∧
      ∀ x, (a.set 3 x).get? 999999 = some 8 := by
  intro fs a
  obtain ⟨hnone, hget, -, hput, -, -, -, hcount, -, -⟩ := refines_total_function 1000000 0 fs
  have hlast : a.get? 999999 = some 8 := hget 999999 (by decide)
  refine ⟨hlast, hget 3 (by decide), (hnone 1000000).mpr (by decide), hcount, fun x => ?_⟩
  have hothers := ((hput 3 0 (a.set 3) rfl).2 x).2 999999 (by decide)
  rw [hothers, hlast]

end Pseudocode.SparseArray
