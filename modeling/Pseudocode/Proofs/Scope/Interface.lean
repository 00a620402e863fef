import Pseudocode.Proofs.Scope.Evolution

/-!
# Scopes without values

The interface of a scope table leaves out what constants stand for: it takes a constant for a
variable of the same type. Names are looked up in the interface as they are in the table, so tables
of one interface resolve every name in the same way, or fail to.
-/

namespace Pseudocode

/-- The symbol without its value. -/
def Symbol.interface : Symbol → Symbol
  | .constant name type _ => .localVariable name type
  | s => s

@[simp]
theorem Symbol.name_interface (s : Symbol) : s.interface.name = s.name := by
  cases s <;> rfl

@[simp]
theorem Symbol.interface_interface (s : Symbol) : s.interface.interface = s.interface := by
  cases s <;> rfl

@[simp]
theorem Symbol.alias?_interface (s : Symbol) : s.interface.alias? = s.alias? := by
  cases s <;> rfl

@[simp]
theorem Symbol.callable?_interface (s : Symbol) : s.interface.callable? = s.callable? := by
  cases s <;> rfl

@[simp]
theorem Symbol.valueType?_interface (s : Symbol) : s.interface.valueType? = s.valueType? := by
  cases s <;> rfl

namespace ScopeTable

/-- The scopes are listed before they are mapped, so that the interface can be evaluated. -/
def interface (t : ScopeTable) : ScopeTable :=
  ⟨(t.scopes.toList.map fun s => ⟨s.parent, s.symbols.map Symbol.interface⟩).toArray⟩

theorem symbols_interface (t : ScopeTable) (id : ScopeId) :
    t.interface.symbols id = (t.symbols id).map Symbol.interface := by
  simp only [interface, symbols, List.getElem?_toArray, List.getElem?_map, Array.getElem?_toList]
  cases t.scopes[id]? <;> rfl

theorem interface_interface (t : ScopeTable) : t.interface.interface = t.interface := by
  simp [interface, Function.comp_def]

theorem parent?_interface (t : ScopeTable) (id : ScopeId) :
    t.interface.parent? id = t.parent? id := by
  simp only [interface, parent?, List.getElem?_toArray, List.getElem?_map, Array.getElem?_toList]
  cases t.scopes[id]? <;> rfl

theorem chain_interface (t : ScopeTable) (id : ScopeId) : t.interface.chain id = t.chain id := by
  have hgo (n : Nat) (id : ScopeId) : chain.go t.interface n id = chain.go t n id := by
    induction n generalizing id with
    | zero => rfl
    | succ n ih =>
      rw [chain.go, chain.go, parent?_interface]
      cases t.parent? id with
      | none => rfl
      | some parent => exact congrArg (id :: ·) (ih parent)
  exact hgo (id + 1) id

theorem lookup_interface (t : ScopeTable) (id : ScopeId) (name : String) :
    t.interface.lookup id name = (t.lookup id name).map Symbol.interface := by
  have hlocal (id : ScopeId) :
      t.interface.local? id name = (t.local? id name).map Symbol.interface := by
    rw [local?, symbols_interface, List.find?_map, local?]
    simp only [Function.comp_def, Symbol.name_interface]
  rw [lookup, lookup, chain_interface, List.map_findSome?]
  simp only [hlocal, Function.comp_def]

/-- Tables of one interface resolve a name to things that are related if symbols of one interface
stand for such things. -/
theorem resolve_congr {α : Type} {t t' : ScopeTable} {r : α → α → Prop}
    {select : Symbol → Option α} (h : t.interface = t'.interface)
    (hselect : ∀ id id', ∀ s ∈ t.symbols id, ∀ s' ∈ t'.symbols id', s.interface = s'.interface →
      Option.Rel r (select s) (select s'))
    (id : ScopeId) (name : String) (expected : SymbolClass) :
    (∃ a a', t.resolve id name expected select = .ok a ∧
      t'.resolve id name expected select = .ok a' ∧ r a a') ∨
    ∃ error error', t.resolve id name expected select = .error error ∧
      t'.resolve id name expected select = .error error' := by
  have hlookup : (t.lookup id name).map Symbol.interface =
      (t'.lookup id name).map Symbol.interface := by
    rw [← lookup_interface, h, lookup_interface]
  unfold resolve
  cases hs : t.lookup id name with
  | none =>
    rw [hs] at hlookup
    rw [Option.map_eq_none_iff.mp hlookup.symm]
    exact .inr ⟨_, _, rfl, rfl⟩
  | some s =>
    rw [hs] at hlookup
    obtain ⟨s', hs', hinterface⟩ := Option.map_eq_some_iff.mp hlookup.symm
    obtain ⟨owner, hmem⟩ := mem_symbols_of_lookup hs
    obtain ⟨owner', hmem'⟩ := mem_symbols_of_lookup hs'
    have hrel := hselect owner owner' s hmem s' hmem' hinterface.symm
    rw [hs']
    dsimp only
    generalize select s = x at hrel ⊢
    generalize select s' = y at hrel ⊢
    cases hrel with
    | some hr => exact .inl ⟨_, _, rfl, rfl, hr⟩
    | none => exact .inr ⟨_, _, rfl, rfl⟩

/-- What the interface of a symbol decides is the same in both tables. -/
theorem resolve_congr_eq {α : Type} {t t' : ScopeTable} {select : Symbol → Option α}
    (h : t.interface = t'.interface) (hselect : ∀ s : Symbol, select s.interface = select s)
    (id : ScopeId) (name : String) (expected : SymbolClass) :
    (∃ a, t.resolve id name expected select = .ok a ∧
      t'.resolve id name expected select = .ok a) ∨
    ∃ error error', t.resolve id name expected select = .error error ∧
      t'.resolve id name expected select = .error error' := by
  have hrel (x : Option α) : Option.Rel Eq x x := by
    cases x with
    | none => exact .none
    | some a => exact .some rfl
  refine (resolve_congr (r := Eq) h ?_ id name expected).imp_left ?_
  · intro _ _ s _ s' _ hinterface
    rw [← hselect s, hinterface, hselect]
    exact hrel _
  · rintro ⟨a, _, ha, ha', rfl⟩
    exact ⟨a, ha, ha'⟩

end ScopeTable

end Pseudocode
