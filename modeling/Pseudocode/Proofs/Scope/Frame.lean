import Pseudocode.Proofs.Scope.Evolution

/-!
# What an operation may touch

Work that is done inside a scope leaves the scopes that were there before alone, apart from that one
scope, and hangs every scope it opens below it. `Confined` says so. What may happen to the scope
itself is its `Effect`.
-/

namespace Pseudocode

/-- What may happen to the scope that something is done in. -/
inductive Effect where
  | nothing
  /-- Symbols are added behind those that were there. -/
  | appending
  /-- Symbols are added, and those that were there keep their names: a callable that was announced
  may become defined. -/
  | declaring

def Effect.Allows : Effect → Scope → Scope → Prop
  | .nothing, s, s' => s' = s
  | .appending, s, s' => s'.parent = s.parent ∧ s.symbols <+: s'.symbols
  | .declaring, s, s' =>
    s'.parent = s.parent ∧ s.symbols.map Symbol.name <+: s'.symbols.map Symbol.name

namespace Effect

theorem allows_refl (e : Effect) (s : Scope) : e.Allows s s := by
  cases e with
  | nothing => rfl
  | appending => exact ⟨rfl, List.prefix_rfl⟩
  | declaring => exact ⟨rfl, List.prefix_rfl⟩

theorem Allows.trans {e : Effect} {a b c : Scope} (hab : e.Allows a b) (hbc : e.Allows b c) :
    e.Allows a c := by
  cases e with
  | nothing => exact Eq.trans hbc hab
  | appending | declaring => exact ⟨hbc.1.trans hab.1, hab.2.trans hbc.2⟩

theorem Allows.parent_eq {e : Effect} {s s' : Scope} (h : e.Allows s s') :
    s'.parent = s.parent := by
  cases e with
  | nothing => rw [show s' = s from h]
  | appending | declaring => exact h.1

theorem Allows.declaring {e : Effect} {s s' : Scope} (h : e.Allows s s') :
    Effect.declaring.Allows s s' := by
  refine ⟨h.parent_eq, ?_⟩
  cases e with
  | nothing =>
    obtain rfl : s' = s := h
    exact List.prefix_rfl
  | appending => exact h.2.map _
  | declaring => exact h.2

end Effect

namespace ScopeTable

/-- From `t` to `t'`, the scope `scope` was changed as the effect allows, no other scope of `t` was
changed, and every scope opened meanwhile lies in `scope` or in another one opened meanwhile. -/
structure Confined (e : Effect) (scope : ScopeId) (t t' : ScopeTable) : Prop where
  size_le : t.size ≤ t'.size
  others : ∀ id < t.size, id ≠ scope → t'.scopes[id]? = t.scopes[id]?
  own : ∀ s, t.scopes[scope]? = some s → ∃ s', t'.scopes[scope]? = some s' ∧ e.Allows s s'
  opened : ∀ id, t.size ≤ id → id < t'.size →
    ∃ parent, t'.parent? id = some parent ∧ (parent = scope ∨ t.size ≤ parent ∧ parent < id)

variable {e : Effect} {scope : ScopeId} {t t' t'' : ScopeTable}

theorem confined_refl (e : Effect) (scope : ScopeId) (t : ScopeTable) : Confined e scope t t where
  size_le := Nat.le_refl _
  others _ _ _ := rfl
  own s hs := ⟨s, hs, e.allows_refl s⟩
  opened id hle hlt := by omega

theorem scopes_eq_some {t : ScopeTable} {id : ScopeId} (h : id < t.size) :
    ∃ s, t.scopes[id]? = some s :=
  ⟨t.scopes[id], Array.getElem?_eq_getElem h⟩

theorem lt_size_of_scopes_eq_some {t : ScopeTable} {id : ScopeId} {s : Scope}
    (h : t.scopes[id]? = some s) : id < t.size :=
  (Array.getElem?_eq_some_iff.mp h).1

/-- A scope keeps its parent, whatever else happens to it. -/
theorem Confined.parent?_eq (h : Confined e scope t t') {id : ScopeId} (hid : id < t.size) :
    t'.parent? id = t.parent? id := by
  by_cases hscope : id = scope
  · subst hscope
    obtain ⟨s, hs⟩ := scopes_eq_some hid
    obtain ⟨s', hs', hallows⟩ := h.own s hs
    simp only [parent?, hs, hs', Option.bind_some]
    exact hallows.parent_eq
  · simp only [parent?, h.others id hid hscope]

theorem Confined.trans (h : Confined e scope t t') (h' : Confined e scope t' t'') :
    Confined e scope t t'' where
  size_le := Nat.le_trans h.size_le h'.size_le
  others id hid hscope := by
    have hid' : id < t'.size := Nat.lt_of_lt_of_le hid h.size_le
    rw [h'.others id hid' hscope, h.others id hid hscope]
  own s hs := by
    obtain ⟨s', hs', hallows⟩ := h.own s hs
    obtain ⟨s'', hs'', hallows'⟩ := h'.own s' hs'
    exact ⟨s'', hs'', hallows.trans hallows'⟩
  opened id hle hlt := by
    by_cases hid : id < t'.size
    · -- Opened by the first of the two, so the second one kept its parent.
      rw [h'.parent?_eq hid]
      exact h.opened id hle hid
    · obtain ⟨parent, hparent, hwhere⟩ := h'.opened id (by omega) hlt
      refine ⟨parent, hparent, hwhere.imp_right fun ⟨hle', hlt'⟩ => ?_⟩
      exact ⟨Nat.le_trans h.size_le hle', hlt'⟩

theorem Confined.appending (h : Confined .nothing scope t t') : Confined .appending scope t t' where
  size_le := h.size_le
  others := h.others
  own s hs := by
    obtain ⟨s', hs', rfl⟩ := h.own s hs
    exact ⟨s', hs', rfl, List.prefix_rfl⟩
  opened := h.opened

theorem Confined.declaring (h : Confined e scope t t') : Confined .declaring scope t t' where
  size_le := h.size_le
  others := h.others
  own s hs := by
    obtain ⟨s', hs', hallows⟩ := h.own s hs
    exact ⟨s', hs', hallows.declaring⟩
  opened := h.opened

/-- Where nothing may happen to the scope itself, every scope is as it was. -/
theorem Confined.scopes_eq (h : Confined .nothing scope t t') {id : ScopeId} (hid : id < t.size) :
    t'.scopes[id]? = t.scopes[id]? := by
  by_cases hscope : id = scope
  · subst hscope
    obtain ⟨s, hs⟩ := scopes_eq_some hid
    obtain ⟨s', hs', rfl⟩ := h.own s hs
    rw [hs, hs']
  · exact h.others id hid hscope

/-! ### Operations -/

@[simp]
theorem size_push (t : ScopeTable) (parent : ScopeId) : (t.push parent).2.size = t.size + 1 := by
  simp [push, size]

@[simp]
theorem size_modifySymbols (t : ScopeTable) (id : ScopeId) (f : List Symbol → List Symbol) :
    (t.modifySymbols id f).size = t.size := by
  simp [modifySymbols, size]

theorem scopes_push_of_lt {t : ScopeTable} (parent : ScopeId) {id : ScopeId} (h : id < t.size) :
    (t.push parent).2.scopes[id]? = t.scopes[id]? := by
  have hne : id ≠ t.scopes.size := by
    intro heq
    exact absurd h (by simp [size, heq])
  simp [push, Array.getElem?_push, hne]

theorem scopes_push_self (t : ScopeTable) (parent : ScopeId) :
    (t.push parent).2.scopes[t.size]? = some ⟨some parent, []⟩ := by
  simp [push, size]

theorem scopes_modifySymbols_of_ne {t : ScopeTable} {id other : ScopeId} (h : other ≠ id)
    (f : List Symbol → List Symbol) :
    (t.modifySymbols id f).scopes[other]? = t.scopes[other]? := by
  simp [modifySymbols, Array.getElem?_modify, Ne.symm h]

theorem scopes_modifySymbols_self {t : ScopeTable} {id : ScopeId} {s : Scope}
    (h : t.scopes[id]? = some s) (f : List Symbol → List Symbol) :
    (t.modifySymbols id f).scopes[id]? = some { s with symbols := f s.symbols } := by
  simp [modifySymbols, Array.getElem?_modify, h]

theorem confined_modifySymbols (t : ScopeTable) (scope : ScopeId) {f : List Symbol → List Symbol}
    (h : ∀ s : Scope, e.Allows s { s with symbols := f s.symbols }) :
    Confined e scope t (t.modifySymbols scope f) where
  size_le := by simp
  others id _ hscope := scopes_modifySymbols_of_ne hscope f
  own s hs := ⟨_, scopes_modifySymbols_self hs f, h s⟩
  opened id hle hlt := by
    rw [size_modifySymbols] at hlt
    omega

theorem confined_bind (t : ScopeTable) (scope : ScopeId) (symbol : Symbol) :
    Confined .appending scope t (t.bind scope symbol) :=
  confined_modifySymbols t scope fun s => ⟨rfl, List.prefix_append s.symbols [symbol]⟩

/-- What is done in a scope of its own does not reach the scope around it. -/
theorem Confined.of_push {parent : ScopeId}
    (h : Confined .appending t.size (t.push parent).2 t') : Confined .nothing parent t t' := by
  have hsize : t.size + 1 ≤ t'.size := by simpa using h.size_le
  have hkept : ∀ id < t.size, t'.scopes[id]? = t.scopes[id]? := by
    intro id hid
    rw [h.others id (by rw [size_push]; omega) (by omega), scopes_push_of_lt parent hid]
  refine ⟨by omega, fun id hid _ => hkept id hid, ?_, ?_⟩
  · intro s hs
    exact ⟨s, by rw [hkept parent (lt_size_of_scopes_eq_some hs), hs], rfl⟩
  · intro id hle hlt
    by_cases hid : id = t.size
    · subst hid
      obtain ⟨s', hs', hparent, -⟩ := h.own _ (scopes_push_self t parent)
      exact ⟨parent, by simp [parent?, hs', hparent], .inl rfl⟩
    · obtain ⟨owner, howner, hwhere⟩ := h.opened id (by rw [size_push]; omega) hlt
      refine ⟨owner, howner, .inr ?_⟩
      rcases hwhere with rfl | ⟨hle', hlt'⟩
      · exact ⟨Nat.le_refl _, Nat.lt_of_le_of_ne hle (Ne.symm hid)⟩
      · rw [size_push] at hle'
        exact ⟨by omega, hlt'⟩

theorem confined_of_declare {symbol : Symbol} (h : t.declare scope symbol = .ok t') :
    Confined .appending scope t t' := by
  obtain ⟨-, rfl⟩ := declare_eq_ok h
  exact confined_bind t scope symbol

theorem confined_of_declareCallable {c : Callable} (h : t.declareCallable scope c = .ok t') :
    Confined .declaring scope t t' := by
  obtain rfl | ⟨-, rfl⟩ := declareCallable_eq_ok h
  · exact confined_refl _ _ _
  · exact (confined_bind t scope _).declaring

theorem confined_of_defineCallable {c : Callable} (h : t.defineCallable scope c = .ok t') :
    Confined .declaring scope t t' := by
  obtain ⟨-, rfl⟩ | ⟨_, -, -, rfl⟩ := defineCallable_eq_ok h
  · exact (confined_bind t scope _).declaring
  · refine confined_modifySymbols t scope fun s => ⟨rfl, ?_⟩
    simp only [map_name_markDefined, List.prefix_rfl]

end ScopeTable

end Pseudocode
