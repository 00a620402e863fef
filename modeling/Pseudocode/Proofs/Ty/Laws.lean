import Pseudocode.Proofs.Ty.Erasure

/-!
# The laws of the relations between types

Each of the relations can be told from the erased types, so that aliases have no part in them. Among
resolved types sameness is equality of the erased types, and either of the wider relations adds
pairs of atoms to the one before. Their laws are those of equality and of the pairs.
-/

namespace Pseudocode.Ty

/-! ### Pairs of atoms -/

/-- A value of the first type is turned into one of the second where it is used. -/
inductive Promotes : Ty → Ty → Prop
  | integer : Promotes .integer .real
  | boundedString (n : Nat) : Promotes (.boundedString n) .string

/-- A bounded string has room in a place for a longer one. -/
inductive HasRoom : Ty → Ty → Prop
  | boundedString {n m : Nat} (h : n ≤ m) : HasRoom (.boundedString n) (.boundedString m)

section Pairs

variable {a b c : Ty}

theorem Promotes.not_promotes (hab : a.Promotes b) : ¬ b.Promotes c := by
  intro hbc
  cases hab <;> cases hbc

theorem Promotes.not_hasRoom (hab : a.Promotes b) : ¬ b.HasRoom c := by
  intro hbc
  cases hab <;> cases hbc

theorem HasRoom.promotes (hab : a.HasRoom b) (hbc : b.Promotes c) : a.Promotes c := by
  cases hab
  cases hbc
  exact .boundedString _

theorem HasRoom.trans (hab : a.HasRoom b) (hbc : b.HasRoom c) : a.HasRoom c := by
  obtain ⟨hle⟩ := hab
  obtain ⟨hle'⟩ := hbc
  exact .boundedString (Nat.le_trans hle hle')

theorem HasRoom.antisymm (hab : a.HasRoom b) (hba : b.HasRoom a) : a = b := by
  obtain ⟨hle⟩ := hab
  obtain ⟨hge⟩ := hba
  rw [Nat.le_antisymm hle hge]

/-! ### Relations told from the erased types -/

theorem promotes_erased_iff :
    a.erased.Promotes b.erased ↔
      a.unaliased = integer ∧ b.unaliased = real ∨
        ∃ n, a.unaliased = boundedString n ∧ b.unaliased = string := by
  constructor
  · intro h
    generalize ha : a.erased = a' at h
    generalize hb : b.erased = b' at h
    cases h with
    | integer =>
      exact .inl ⟨(erased_eq_iff_of_isAtom rfl).mp ha, (erased_eq_iff_of_isAtom rfl).mp hb⟩
    | boundedString n =>
      exact .inr ⟨n, (erased_eq_iff_of_isAtom rfl).mp ha, (erased_eq_iff_of_isAtom rfl).mp hb⟩
  · rintro (⟨ha, hb⟩ | ⟨n, ha, hb⟩)
    · rw [(erased_eq_iff_of_isAtom rfl).mpr ha, (erased_eq_iff_of_isAtom rfl).mpr hb]
      exact .integer
    · rw [(erased_eq_iff_of_isAtom rfl).mpr ha, (erased_eq_iff_of_isAtom rfl).mpr hb]
      exact .boundedString n

theorem hasRoom_erased_iff :
    a.erased.HasRoom b.erased ↔
      ∃ n m, a.unaliased = boundedString n ∧ b.unaliased = boundedString m ∧ n ≤ m := by
  constructor
  · intro h
    generalize ha : a.erased = a' at h
    generalize hb : b.erased = b' at h
    obtain ⟨hle⟩ := h
    exact ⟨_, _, (erased_eq_iff_of_isAtom rfl).mp ha, (erased_eq_iff_of_isAtom rfl).mp hb, hle⟩
  · rintro ⟨n, m, ha, hb, hle⟩
    rw [(erased_eq_iff_of_isAtom rfl).mpr ha, (erased_eq_iff_of_isAtom rfl).mpr hb]
    exact .boundedString hle

theorem convertible_iff_erased :
    a.convertible b = true ↔ a.same b = true ∨ a.erased.Promotes b.erased := by
  rw [convertible_iff, promotes_erased_iff]

theorem assignable_iff_erased :
    a.assignable b = true ↔ a.convertible b = true ∨ a.erased.HasRoom b.erased := by
  rw [assignable_iff, hasRoom_erased_iff]

end Pairs

/-- Types that differ in aliases only, at whatever depth, are in the same relations. -/
theorem relations_congr {a a' b b' : Ty} (ha : a.erased = a'.erased) (hb : b.erased = b'.erased) :
    a.same b = a'.same b' ∧ a.convertible b = a'.convertible b' ∧
      a.assignable b = a'.assignable b' := by
  have hsame : a.same b = a'.same b' := by
    rw [← same_erased_left, ← same_erased_right, ha, hb, same_erased_left, same_erased_right]
  have hconvertible : a.convertible b = a'.convertible b' := by
    rw [Bool.eq_iff_iff, convertible_iff_erased, convertible_iff_erased, hsame, ha, hb]
  refine ⟨hsame, hconvertible, ?_⟩
  rw [Bool.eq_iff_iff, assignable_iff_erased, assignable_iff_erased, hconvertible, ha, hb]

/-! ### Resolved types -/

section Resolved

variable {a b c : Ty} (ha : a.Resolved) (hb : b.Resolved) (hc : c.Resolved)

include ha hb

theorem same_iff_erased_eq : a.same b = true ↔ a.erased = b.erased := by
  refine ⟨erased_eq_of_same ha hb, fun h => ?_⟩
  rw [← same_erased_left, h, same_erased_left]
  exact same_refl b

theorem convertible_iff_of_resolved :
    a.convertible b = true ↔ a.erased = b.erased ∨ a.erased.Promotes b.erased := by
  rw [convertible_iff_erased, same_iff_erased_eq ha hb]

theorem assignable_iff_of_resolved :
    a.assignable b = true ↔
      (a.erased = b.erased ∨ a.erased.Promotes b.erased) ∨ a.erased.HasRoom b.erased := by
  rw [assignable_iff_erased, convertible_iff_of_resolved ha hb]

theorem same_of_assignable (hab : a.assignable b = true) (hba : b.assignable a = true) :
    a.same b = true := by
  rw [assignable_iff_of_resolved ha hb] at hab
  rw [assignable_iff_of_resolved hb ha] at hba
  rw [same_iff_erased_eq ha hb]
  obtain (heq | hab) | hab := hab
  · exact heq
  · -- Nothing leads back from a promoted type but equality.
    obtain (heq | hba) | hba := hba
    · exact heq.symm
    · exact absurd hba hab.not_promotes
    · exact absurd hba hab.not_hasRoom
  · obtain (heq | hba) | hba := hba
    · exact heq.symm
    · exact absurd hab hba.not_hasRoom
    · exact hab.antisymm hba

include hc

theorem convertible_trans (hab : a.convertible b = true) (hbc : b.convertible c = true) :
    a.convertible c = true := by
  rw [convertible_iff_of_resolved ha hb] at hab
  rw [convertible_iff_of_resolved hb hc] at hbc
  rw [convertible_iff_of_resolved ha hc]
  obtain heq | hab := hab
  · rw [heq]
    exact hbc
  · obtain heq | hbc := hbc
    · rw [← heq]
      exact .inr hab
    · exact absurd hbc hab.not_promotes

theorem assignable_trans (hab : a.assignable b = true) (hbc : b.assignable c = true) :
    a.assignable c = true := by
  rw [assignable_iff_of_resolved ha hb] at hab
  rw [assignable_iff_of_resolved hb hc] at hbc
  rw [assignable_iff_of_resolved ha hc]
  obtain (heq | hab) | hab := hab
  · rw [heq]
    exact hbc
  · obtain (heq | hbc) | hbc := hbc
    · rw [← heq]
      exact .inl (.inr hab)
    · exact absurd hbc hab.not_promotes
    · exact absurd hbc hab.not_hasRoom
  · obtain (heq | hbc) | hbc := hbc
    · rw [← heq]
      exact .inr hab
    · exact .inl (.inr (hab.promotes hbc))
    · exact .inr (hab.trans hbc)

end Resolved

/-! ### Main result -/

/-- **The laws of the three relations.** Among resolved types sameness is an equivalence, the other
two are reflexive and transitive, and types that are assignable to each other are the same. Each
relation contains the one before. Types that differ in aliases only are in the same relations. On
all types, sameness is reflexive and symmetric. -/
theorem laws_of_relations :
    Equivalence (fun a b : Subtype Resolved => a.1.same b.1 = true) ∧
    (∀ a : Subtype Resolved, a.1.convertible a.1 = true) ∧
    (∀ a b c : Subtype Resolved, a.1.convertible b.1 = true → b.1.convertible c.1 = true →
      a.1.convertible c.1 = true) ∧
    (∀ a : Subtype Resolved, a.1.assignable a.1 = true) ∧
    (∀ a b c : Subtype Resolved, a.1.assignable b.1 = true → b.1.assignable c.1 = true →
      a.1.assignable c.1 = true) ∧
    (∀ a b : Ty, (a.same b = true → a.convertible b = true) ∧
      (a.convertible b = true → a.assignable b = true)) ∧
    (∀ a b : Subtype Resolved, a.1.assignable b.1 = true → b.1.assignable a.1 = true →
      a.1.same b.1 = true) ∧
    (∀ a a' b b' : Ty, a.erased = a'.erased → b.erased = b'.erased →
      a.same b = a'.same b' ∧ a.convertible b = a'.convertible b' ∧
        a.assignable b = a'.assignable b') ∧
    (∀ a : Ty, a.same a = true) ∧
    ∀ a b : Ty, a.same b = b.same a := by
  refine ⟨⟨fun a => same_refl a.1, same_symm, fun {a b c} => same_trans b.2⟩, ?_, ?_, ?_, ?_, ?_,
    ?_, ?_, same_refl, same_comm⟩
  · intro a
    exact convertible_of_same (same_refl a.1)
  · intro a b c
    exact convertible_trans a.2 b.2 c.2
  · intro a
    exact assignable_of_convertible (convertible_of_same (same_refl a.1))
  · intro a b c
    exact assignable_trans a.2 b.2 c.2
  · intro a b
    exact ⟨convertible_of_same, assignable_of_convertible⟩
  · intro a b
    exact same_of_assignable a.2 b.2
  · intro a a' b b'
    exact relations_congr

end Pseudocode.Ty
