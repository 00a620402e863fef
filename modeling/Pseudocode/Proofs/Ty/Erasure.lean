import Pseudocode.Folding.Cast
import Pseudocode.Proofs.Ty.Same

/-!
# Types without their aliases

`erased` removes the aliases from a type, at every depth. Whatever looks through aliases can be told
from the erased type. Resolved types that are the same differ in aliases only, so that erasure makes
them equal.
-/

namespace Pseudocode.Ty

mutual

def erased : Ty → Ty
  | .array item length => .array item.erased length
  | .struct components => .struct (erasedComponents components)
  | .aliased _ target => target.erased
  | t => t

def erasedComponents : List (String × Ty) → List (String × Ty)
  | [] => []
  | (name, t) :: rest => (name, t.erased) :: erasedComponents rest

end

@[simp]
theorem erased_unaliased (t : Ty) : t.unaliased.erased = t.erased := by
  fun_induction unaliased t with
  | case1 name target ih => rw [ih, erased]
  | case2 t _ => rfl

theorem lookup_erasedComponents (components : List (String × Ty)) (name : String) :
    (erasedComponents components).lookup name = (components.lookup name).map erased := by
  induction components with
  | nil => rfl
  | cons head rest ih =>
    obtain ⟨n, t⟩ := head
    simp only [erasedComponents, List.lookup_cons]
    split
    · rfl
    · exact ih

/-! ### What can be told from the erased type -/

/-- Behind the outermost aliases, only an aggregate has more to be erased. -/
theorem unaliased_cases (t : Ty) :
    (t.isAggregate = false ∧ t.erased = t.unaliased) ∨
      (∃ item length, t.unaliased = array item length ∧ t.erased = array item.erased length) ∨
      ∃ components, t.unaliased = struct components ∧
        t.erased = struct (erasedComponents components) := by
  rw [← erased_unaliased t, isAggregate]
  cases h : t.unaliased with
  | array item length => exact .inr (.inl ⟨item, length, rfl, by rw [erased]⟩)
  | struct components => exact .inr (.inr ⟨components, rfl, by rw [erased]⟩)
  | aliased name target => exact absurd h (unaliased_ne_aliased t name target)
  | _ => exact .inl ⟨rfl, by simp [erased]⟩

theorem erased_of_isAtom {t : Ty} (h : t.isAtom = true) : t.erased = t := by
  cases t with
  | unknown | array | struct | aliased => cases h
  | _ => simp only [erased]

/-- An atom is told from the erased type. -/
theorem erased_eq_iff_of_isAtom {t u : Ty} (h : u.isAtom = true) :
    t.erased = u ↔ t.unaliased = u := by
  obtain ⟨-, ht⟩ | ⟨item, length, ht, ht'⟩ | ⟨components, ht, ht'⟩ := t.unaliased_cases
  · rw [ht]
  · rw [ht, ht']
    constructor
    all_goals
      rintro rfl
      cases h
  · rw [ht, ht']
    constructor
    all_goals
      rintro rfl
      cases h

theorem unaliased_congr {a b : Ty} (h : a.erased = b.erased) :
    (a.isAggregate = false ∧ a.unaliased = b.unaliased) ∨
      (∃ item item' length, a.unaliased = array item length ∧ b.unaliased = array item' length ∧
        item.erased = item'.erased) ∨
      ∃ components components', a.unaliased = struct components ∧
        b.unaliased = struct components' ∧
        erasedComponents components = erasedComponents components' := by
  obtain ⟨hscalar, ha⟩ | ⟨item, length, ha, ha'⟩ | ⟨components, ha, ha'⟩ := a.unaliased_cases
  · refine .inl ⟨hscalar, ?_⟩
    obtain ⟨-, hb⟩ | ⟨_, _, -, hb⟩ | ⟨_, -, hb⟩ := b.unaliased_cases
    · rw [← ha, h, hb]
    all_goals simp [isAggregate, ← ha, h, hb] at hscalar
  · rw [ha'] at h
    obtain ⟨hscalar, hb⟩ | ⟨_, _, hb, hb'⟩ | ⟨_, -, hb⟩ := b.unaliased_cases
    · simp [isAggregate, ← hb, ← h] at hscalar
    · obtain ⟨hitem, rfl⟩ := array.inj (h.trans hb')
      exact .inr (.inl ⟨_, _, _, ha, hb, hitem⟩)
    · cases h.trans hb
  · rw [ha'] at h
    obtain ⟨hscalar, hb⟩ | ⟨_, _, -, hb⟩ | ⟨_, hb, hb'⟩ := b.unaliased_cases
    · simp [isAggregate, ← hb, ← h] at hscalar
    · cases h.trans hb
    · exact .inr (.inr ⟨_, _, ha, hb, struct.inj (h.trans hb')⟩)

mutual

@[simp]
theorem same_erased_left : ∀ a b : Ty, a.erased.same b = a.same b
  | .aliased name target, b => by rw [erased, same, same_erased_left target b]
  | .array item length, b => by simp only [erased, same, same_erased_left item]
  | .struct components, b => by simp only [erased, same, sameComponents_erased_left components]
  | .unknown _, _ | .void, _ | .boolean, _ | .character, _ | .integer, _ | .real, _ | .file, _
  | .string, _ | .boundedString _, _ => by simp only [erased]

theorem sameComponents_erased_left :
    ∀ as bs : List (String × Ty), sameComponents (erasedComponents as) bs = sameComponents as bs
  | [], [] | [], _ :: _ | _ :: _, [] => by simp [erasedComponents, sameComponents]
  | (n, a) :: as, (m, b) :: bs => by
    simp only [erasedComponents, sameComponents, same_erased_left a,
      sameComponents_erased_left as]

end

@[simp]
theorem same_erased_right (a b : Ty) : a.same b.erased = a.same b := by
  rw [same_comm, same_erased_left, same_comm]

mutual

theorem erased_eq_of_same : ∀ {a b : Ty}, a.Resolved → b.Resolved → a.same b = true →
    a.erased = b.erased
  | .aliased name target, b, ha, hb, h => by
    rw [same] at h
    rw [erased]
    exact erased_eq_of_same (resolved_aliased.mp ha) hb h
  | .array item length, b, ha, hb, h => by
    obtain ⟨item', hb', hitem⟩ := same_array_of_resolved hb h rfl
    have hitem' : item'.Resolved := resolved_array.mp (hb' ▸ hb.unaliased)
    rw [← erased_unaliased b, hb', erased, erased,
      erased_eq_of_same (resolved_array.mp ha) hitem' hitem]
  | .struct components, b, ha, hb, h => by
    obtain ⟨components', hb', hcomponents⟩ := same_struct_of_resolved hb h rfl
    have hresolved : (struct components').Resolved := hb' ▸ hb.unaliased
    rw [← erased_unaliased b, hb', erased, erased, erasedComponents_eq_of_sameComponents
      (resolved_struct.mp ha) (resolved_struct.mp hresolved) hcomponents]
  | .unknown origin, b, ha, _, _ => absurd ha (not_resolved_unknown origin)
  | .void, b, _, hb, h | .boolean, b, _, hb, h | .character, b, _, hb, h | .integer, b, _, hb, h
  | .real, b, _, hb, h | .file, b, _, hb, h | .string, b, _, hb, h
  | .boundedString _, b, _, hb, h => by
    rw [← erased_unaliased b, same_atom_of_resolved hb h rfl]
    rfl

theorem erasedComponents_eq_of_sameComponents : ∀ {as bs : List (String × Ty)},
    (∀ a ∈ as, a.2.Resolved) → (∀ b ∈ bs, b.2.Resolved) → sameComponents as bs = true →
      erasedComponents as = erasedComponents bs
  | [], [], _, _, _ => rfl
  | (n, a) :: as, (m, b) :: bs, has, hbs, h => by
    simp only [sameComponents, Bool.and_eq_true, beq_iff_eq] at h
    obtain ⟨⟨rfl, hsame⟩, hrest⟩ := h
    obtain ⟨ha, has⟩ := List.forall_mem_cons.mp has
    obtain ⟨hb, hbs⟩ := List.forall_mem_cons.mp hbs
    rw [erasedComponents, erasedComponents, erased_eq_of_same ha hb hsame,
      erasedComponents_eq_of_sameComponents has hbs hrest]
  | [], _ :: _, _, _, h | _ :: _, [], _, _, h => by simp [sameComponents] at h

end

section Congruence

variable {a b : Ty} (h : a.erased = b.erased)

include h

theorem isUnknown_congr : a.isUnknown = b.isUnknown := by
  obtain ⟨-, hun⟩ | ⟨_, _, _, ha, hb, -⟩ | ⟨_, _, ha, hb, -⟩ := unaliased_congr h
  · rw [isUnknown, isUnknown, hun]
  · rw [isUnknown, isUnknown, ha, hb]
  · rw [isUnknown, isUnknown, ha, hb]

theorem castable_congr (target : Ty) : a.castable target = b.castable target := by
  obtain ⟨-, hun⟩ | ⟨_, _, _, ha, hb, -⟩ | ⟨_, _, ha, hb, -⟩ := unaliased_congr h
  · rw [castable, castable, hun]
  · rw [castable, castable, ha, hb]
  · rw [castable, castable, ha, hb]

theorem operandKind_congr : a.operandKind = b.operandKind := by
  obtain ⟨-, hun⟩ | ⟨_, _, _, ha, hb, -⟩ | ⟨_, _, ha, hb, -⟩ := unaliased_congr h
  · rw [operandKind, operandKind, hun]
  · rw [operandKind, operandKind, ha, hb]
  · rw [operandKind, operandKind, ha, hb]

end Congruence

end Pseudocode.Ty
