import Pseudocode.Proofs.Ty.Resolved
import Pseudocode.Ty.Relation

/-!
# Sameness of types

Sameness looks through aliases on both sides and takes an unknown type to be the same as every type.
It is reflexive and symmetric. Chaining it through an unknown type proves nothing, so it is
transitive only where the type in the middle is resolved.
-/

namespace Pseudocode.Ty

/-! ### Aliases and unknown types -/

theorem unaliased_ne_aliased (t : Ty) (name : String) (target : Ty) :
    t.unaliased ≠ aliased name target := by
  intro h
  fun_induction unaliased t with
  | case1 _ _ ih => exact ih h
  | case2 t hnot => exact hnot _ _ h

@[simp]
theorem same_unaliased_right (a b : Ty) : a.same b.unaliased = a.same b := by
  fun_induction unaliased a with
  | case1 name target ih => simp only [same, ih]
  | case2 t hnot =>
    cases t with
    | aliased name target => exact absurd rfl (hnot name target)
    | _ => simp only [same, unaliased_unaliased]

theorem same_of_isUnknown_left {a b : Ty} (h : a.isUnknown = true) : a.same b = true := by
  obtain ⟨origin, horigin⟩ := isUnknown_iff.mp h
  rw [← same_unaliased_left, horigin]
  simp [same]

theorem same_of_isUnknown_right {a b : Ty} (h : b.isUnknown = true) : a.same b = true := by
  obtain ⟨origin, horigin⟩ := isUnknown_iff.mp h
  rw [← same_unaliased_left, ← same_unaliased_right, horigin]
  cases ha : a.unaliased with
  | aliased name target => exact absurd ha (unaliased_ne_aliased a name target)
  | _ => simp [same, unaliased]

/-! ### What is the same as a type of a given shape -/

theorem array_same_iff {item b : Ty} {length : Nat} :
    (array item length).same b = true ↔
      b.isUnknown = true ∨ ∃ item', b.unaliased = array item' length ∧ item.same item' = true := by
  simp only [same]
  cases hb : b.unaliased with
  | array item' length' =>
    simp only [isUnknown, hb, Bool.and_eq_true, beq_iff_eq, Bool.false_eq_true, false_or,
      array.injEq]
    constructor
    · rintro ⟨rfl, hsame⟩
      exact ⟨item', ⟨rfl, rfl⟩, hsame⟩
    · rintro ⟨item'', ⟨rfl, rfl⟩, hsame⟩
      exact ⟨rfl, hsame⟩
  | _ => simp [isUnknown, hb]

theorem struct_same_iff {components : List (String × Ty)} {b : Ty} :
    (struct components).same b = true ↔
      b.isUnknown = true ∨
        ∃ components', b.unaliased = struct components' ∧
          sameComponents components components' = true := by
  simp only [same]
  cases hb : b.unaliased with
  | _ => simp [isUnknown, hb]

/-- An atom is the same as itself only, aliases and unknown types apart. -/
theorem atom_same_iff {a b : Ty} (hatom : a.isAtom = true) :
    a.same b = true ↔ b.isUnknown = true ∨ b.unaliased = a := by
  cases a with
  | unknown | array | struct | aliased => cases hatom
  | boundedString n =>
    simp only [same]
    cases hb : b.unaliased with
    | boundedString m => simpa [isUnknown, hb] using eq_comm
    | _ => simp [isUnknown, hb]
  | _ =>
    simp only [same]
    cases hb : b.unaliased <;> simp [isUnknown, hb]

/-! ### The laws of sameness -/

mutual

theorem same_refl : ∀ a : Ty, a.same a = true
  | .aliased name target => by
    rw [same, ← same_unaliased_right, unaliased_aliased, same_unaliased_right]
    exact same_refl target
  | .array item length => array_same_iff.mpr (.inr ⟨item, rfl, same_refl item⟩)
  | .struct components =>
    struct_same_iff.mpr (.inr ⟨components, rfl, sameComponents_refl components⟩)
  | .unknown _ | .void | .boolean | .character | .integer | .real | .file | .string
  | .boundedString _ => by simp [same, unaliased]

theorem sameComponents_refl :
    ∀ components : List (String × Ty), sameComponents components components = true
  | [] => by simp [sameComponents]
  | (name, t) :: rest => by simp [sameComponents, same_refl t, sameComponents_refl rest]

end

mutual

theorem same_symm : ∀ {a b : Ty}, a.same b = true → b.same a = true
  | .aliased name target, b, h => by
    rw [← same_unaliased_right, unaliased_aliased, same_unaliased_right]
    rw [same] at h
    exact same_symm h
  | .array item length, b, h => by
    obtain hunknown | ⟨item', hb, hitem⟩ := array_same_iff.mp h
    · exact same_of_isUnknown_left hunknown
    · rw [← same_unaliased_left, hb]
      exact array_same_iff.mpr (.inr ⟨item, rfl, same_symm hitem⟩)
  | .struct components, b, h => by
    obtain hunknown | ⟨components', hb, hcomponents⟩ := struct_same_iff.mp h
    · exact same_of_isUnknown_left hunknown
    · rw [← same_unaliased_left, hb]
      exact struct_same_iff.mpr (.inr ⟨components, rfl, sameComponents_symm hcomponents⟩)
  | .unknown origin, b, _ => same_of_isUnknown_right rfl
  | .void, b, h | .boolean, b, h | .character, b, h | .integer, b, h | .real, b, h | .file, b, h
  | .string, b, h | .boundedString _, b, h => by
    obtain hunknown | hb := (atom_same_iff rfl).mp h
    · exact same_of_isUnknown_left hunknown
    · rw [← same_unaliased_left, hb]
      exact same_refl _

theorem sameComponents_symm : ∀ {as bs : List (String × Ty)},
    sameComponents as bs = true → sameComponents bs as = true
  | [], [], _ => by simp [sameComponents]
  | (n, a) :: as, (m, b) :: bs, h => by
    simp only [sameComponents, Bool.and_eq_true, beq_iff_eq] at h ⊢
    obtain ⟨⟨hname, hsame⟩, hrest⟩ := h
    exact ⟨⟨hname.symm, same_symm hsame⟩, sameComponents_symm hrest⟩
  | [], _ :: _, h | _ :: _, [], h => by simp [sameComponents] at h

end

theorem same_comm (a b : Ty) : a.same b = b.same a :=
  Bool.eq_iff_iff.mpr ⟨same_symm, same_symm⟩

mutual

/-- **Sameness chains through resolved types.** The types at the two ends may hold unknown types. -/
theorem same_trans : ∀ {a b c : Ty}, b.Resolved → a.same b = true → b.same c = true →
    a.same c = true
  | a, .aliased name target, c, hb, hab, hbc => by
    rw [← same_unaliased_right, unaliased_aliased, same_unaliased_right] at hab
    rw [same] at hbc
    exact same_trans (resolved_aliased.mp hb) hab hbc
  | a, .array item length, c, hb, hab, hbc => by
    -- An unknown type at either end is the same as everything; otherwise all three are arrays.
    obtain hunknown | ⟨item₁, ha, hitem₁⟩ := array_same_iff.mp (same_symm hab)
    · exact same_of_isUnknown_left hunknown
    obtain hunknown | ⟨item₂, hc, hitem₂⟩ := array_same_iff.mp hbc
    · exact same_of_isUnknown_right hunknown
    rw [← same_unaliased_left, ha]
    exact array_same_iff.mpr
      (.inr ⟨item₂, hc, same_trans (resolved_array.mp hb) (same_symm hitem₁) hitem₂⟩)
  | a, .struct components, c, hb, hab, hbc => by
    obtain hunknown | ⟨components₁, ha, hcomponents₁⟩ := struct_same_iff.mp (same_symm hab)
    · exact same_of_isUnknown_left hunknown
    obtain hunknown | ⟨components₂, hc, hcomponents₂⟩ := struct_same_iff.mp hbc
    · exact same_of_isUnknown_right hunknown
    rw [← same_unaliased_left, ha]
    exact struct_same_iff.mpr (.inr ⟨components₂, hc, sameComponents_trans (resolved_struct.mp hb)
      (sameComponents_symm hcomponents₁) hcomponents₂⟩)
  | a, .unknown origin, c, hb, _, _ => absurd hb (not_resolved_unknown origin)
  | a, .void, c, _, hab, hbc | a, .boolean, c, _, hab, hbc | a, .character, c, _, hab, hbc
  | a, .integer, c, _, hab, hbc | a, .real, c, _, hab, hbc | a, .file, c, _, hab, hbc
  | a, .string, c, _, hab, hbc | a, .boundedString _, c, _, hab, hbc => by
    obtain hunknown | ha := (atom_same_iff rfl).mp (same_symm hab)
    · exact same_of_isUnknown_left hunknown
    · rw [← same_unaliased_left, ha]
      exact hbc

theorem sameComponents_trans : ∀ {as bs cs : List (String × Ty)}, (∀ b ∈ bs, b.2.Resolved) →
    sameComponents as bs = true → sameComponents bs cs = true → sameComponents as cs = true
  | [], [], [], _, _, _ => by simp [sameComponents]
  | (_, a) :: as, (_, b) :: bs, (_, c) :: cs, hbs, hab, hbc => by
    simp only [sameComponents, Bool.and_eq_true, beq_iff_eq] at hab hbc ⊢
    obtain ⟨⟨hname₁, hsame₁⟩, hrest₁⟩ := hab
    obtain ⟨⟨hname₂, hsame₂⟩, hrest₂⟩ := hbc
    obtain ⟨hb, hbs⟩ := List.forall_mem_cons.mp hbs
    exact ⟨⟨hname₁.trans hname₂, same_trans hb hsame₁ hsame₂⟩,
      sameComponents_trans hbs hrest₁ hrest₂⟩
  | [], _ :: _, _, _, hab, _ | _ :: _, [], _, _, hab, _ => by simp [sameComponents] at hab
  | _, [], _ :: _, _, _, hbc | _, _ :: _, [], _, _, hbc => by simp [sameComponents] at hbc

end

/-! ### Shapes of resolved types that are the same -/

theorem same_array_of_resolved {a b item : Ty} {length : Nat} (hb : b.Resolved)
    (hsame : a.same b = true) (ha : a.unaliased = array item length) :
    ∃ item', b.unaliased = array item' length ∧ item.same item' = true := by
  rw [← same_unaliased_left, ha] at hsame
  obtain hunknown | hshape := array_same_iff.mp hsame
  · rw [hb.isUnknown_eq_false] at hunknown
    cases hunknown
  · exact hshape

theorem same_struct_of_resolved {a b : Ty} {components : List (String × Ty)} (hb : b.Resolved)
    (hsame : a.same b = true) (ha : a.unaliased = struct components) :
    ∃ components', b.unaliased = struct components' ∧
      sameComponents components components' = true := by
  rw [← same_unaliased_left, ha] at hsame
  obtain hunknown | hshape := struct_same_iff.mp hsame
  · rw [hb.isUnknown_eq_false] at hunknown
    cases hunknown
  · exact hshape

theorem same_atom_of_resolved {a b : Ty} (hb : b.Resolved) (hsame : a.same b = true)
    (hatom : a.unaliased.isAtom = true) : b.unaliased = a.unaliased := by
  rw [← same_unaliased_left] at hsame
  obtain hunknown | hshape := (atom_same_iff hatom).mp hsame
  · rw [hb.isUnknown_eq_false] at hunknown
    cases hunknown
  · exact hshape

/-! ### Ways to be assignable -/

theorem convertible_iff {a b : Ty} :
    a.convertible b = true ↔
      a.same b = true ∨ a.unaliased = integer ∧ b.unaliased = real ∨
        ∃ n, a.unaliased = boundedString n ∧ b.unaliased = string := by
  rw [convertible, Bool.or_eq_true]
  refine or_congr_right ⟨fun h => ?_, ?_⟩
  · split at h
    · rename_i ha hb
      exact .inl ⟨ha, hb⟩
    · rename_i n ha hb
      exact .inr ⟨n, ha, hb⟩
    · cases h
  · rintro (⟨ha, hb⟩ | ⟨n, ha, hb⟩)
    · rw [ha, hb]
    · rw [ha, hb]

theorem assignable_iff {a b : Ty} :
    a.assignable b = true ↔
      a.convertible b = true ∨
        ∃ n m, a.unaliased = boundedString n ∧ b.unaliased = boundedString m ∧ n ≤ m := by
  rw [assignable, Bool.or_eq_true]
  refine or_congr_right ⟨fun h => ?_, ?_⟩
  · split at h
    · rename_i n m ha hb
      exact ⟨n, m, ha, hb, of_decide_eq_true h⟩
    · cases h
  · rintro ⟨n, m, ha, hb, hle⟩
    rw [ha, hb]
    exact decide_eq_true hle

end Pseudocode.Ty
