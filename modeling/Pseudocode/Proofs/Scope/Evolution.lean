import Mathlib.Logic.Relation
import Pseudocode.Scope.Table

/-!
# How a table of scopes evolves

A table changes in three ways only: a scope is opened, a symbol is bound to a free name, a callable
that was announced becomes defined. Each operation on the table is one of them or leaves the table
alone. What a table binds to a constant therefore stays bound to it in every table that it evolves
into.
-/

namespace Pseudocode.ScopeTable

/-! ### Symbols after an operation -/

@[simp]
theorem symbols_initial (id : ScopeId) : initial.symbols id = [] := by
  cases id with
  | zero => rfl
  | succ n => rfl

@[simp]
theorem symbols_push (t : ScopeTable) (parent id : ScopeId) :
    (t.push parent).2.symbols id = t.symbols id := by
  simp only [push, symbols, Array.getElem?_push]
  split
  · rename_i hid
    simp [hid]
  · rfl

theorem symbols_modifySymbols (t : ScopeTable) (id other : ScopeId)
    (f : List Symbol → List Symbol) :
    (t.modifySymbols id f).symbols other =
      if id = other ∧ id < t.size then f (t.symbols other) else t.symbols other := by
  simp only [modifySymbols, symbols, size, Array.getElem?_modify]
  by_cases hid : id = other
  · subst hid
    by_cases hlt : id < t.scopes.size <;> simp [hlt]
  · simp [hid]

theorem mem_symbols_bind {t : ScopeTable} {id other : ScopeId} {symbol s : Symbol}
    (h : s ∈ (t.bind id symbol).symbols other) : s ∈ t.symbols other ∨ s = symbol := by
  rw [bind, symbols_modifySymbols] at h
  split at h
  · simpa using h
  · exact .inl h

theorem mem_symbols_of_bind {t : ScopeTable} {id other : ScopeId} {symbol s : Symbol}
    (h : s ∈ t.symbols other) : s ∈ (t.bind id symbol).symbols other := by
  rw [bind, symbols_modifySymbols]
  split
  · exact List.mem_append_left _ h
  · exact h

theorem mem_markDefined {name : String} {symbols : List Symbol} {s : Symbol}
    (h : s ∈ markDefined name symbols) :
    s ∈ symbols ∨ ∃ c, .callable c ∈ symbols ∧ s = .callable { c with state := .defined } := by
  fun_induction markDefined name symbols with
  | case1 => exact .inl h
  | case2 c rest hname =>
    obtain rfl | hrest := List.mem_cons.mp h
    · exact .inr ⟨c, List.mem_cons_self, rfl⟩
    · exact .inl (List.mem_cons_of_mem _ hrest)
  | case3 c rest hname ih =>
    obtain rfl | hrest := List.mem_cons.mp h
    · exact .inl List.mem_cons_self
    · obtain hold | ⟨c', hc', rfl⟩ := ih hrest
      · exact .inl (List.mem_cons_of_mem _ hold)
      · exact .inr ⟨c', List.mem_cons_of_mem _ hc', rfl⟩
  | case4 symbol rest hsymbol ih =>
    obtain rfl | hrest := List.mem_cons.mp h
    · exact .inl List.mem_cons_self
    · obtain hold | ⟨c', hc', rfl⟩ := ih hrest
      · exact .inl (List.mem_cons_of_mem _ hold)
      · exact .inr ⟨c', List.mem_cons_of_mem _ hc', rfl⟩

theorem map_name_markDefined (name : String) (symbols : List Symbol) :
    (markDefined name symbols).map Symbol.name = symbols.map Symbol.name := by
  fun_induction markDefined name symbols with
  | case1 => rfl
  | case2 => rfl
  | case3 c rest hname ih => rw [List.map_cons, ih, List.map_cons]
  | case4 symbol rest hsymbol ih => rw [List.map_cons, ih, List.map_cons]

/-- Defining a callable leaves every symbol alone that is not a callable. -/
theorem mem_markDefined_of_callable?_eq_none {name : String} {symbols : List Symbol} {s : Symbol}
    (h : s ∈ symbols) (hs : s.callable? = none) : s ∈ markDefined name symbols := by
  fun_induction markDefined name symbols with
  | case1 => exact h
  | case2 c rest hname =>
    obtain rfl | hrest := List.mem_cons.mp h
    · cases hs
    · exact List.mem_cons_of_mem _ hrest
  | case3 c rest hname ih =>
    obtain rfl | hrest := List.mem_cons.mp h
    · cases hs
    · exact List.mem_cons_of_mem _ (ih hrest)
  | case4 symbol rest hsymbol ih =>
    obtain rfl | hrest := List.mem_cons.mp h
    · exact List.mem_cons_self
    · exact List.mem_cons_of_mem _ (ih hrest)

theorem forall_of_markDefined {P : Symbol → Prop}
    (hP : ∀ c, P (.callable { c with state := .defined }) → P (.callable c)) {name : String}
    {symbols : List Symbol} (h : ∀ s ∈ markDefined name symbols, P s) : ∀ s ∈ symbols, P s := by
  fun_induction markDefined name symbols with
  | case1 => exact h
  | case2 c rest hname =>
    rw [List.forall_mem_cons] at h ⊢
    exact ⟨hP c h.1, h.2⟩
  | case3 c rest hname ih =>
    rw [List.forall_mem_cons] at h ⊢
    exact ⟨h.1, ih h.2⟩
  | case4 symbol rest hsymbol ih =>
    rw [List.forall_mem_cons] at h ⊢
    exact ⟨h.1, ih h.2⟩

/-! ### What an operation can do -/

theorem declare_eq_ok {t t' : ScopeTable} {id : ScopeId} {symbol : Symbol}
    (h : t.declare id symbol = .ok t') :
    t.local? id symbol.name.text = none ∧ t' = t.bind id symbol := by
  unfold declare at h
  split at h
  · cases h
  · rename_i hfree
    cases h
    exact ⟨hfree, rfl⟩

theorem declareCallable_eq_ok {t t' : ScopeTable} {id : ScopeId} {c : Callable}
    (h : t.declareCallable id c = .ok t') :
    t' = t ∨ t.local? id c.name.text = none ∧
      t' = t.bind id (.callable { c with state := .declared }) := by
  unfold declareCallable at h
  split at h
  · rename_i hfree
    cases h
    exact .inr ⟨hfree, rfl⟩
  · split at h
    · cases h
      exact .inl rfl
    · cases h
  · cases h

theorem defineCallable_eq_ok {t t' : ScopeTable} {id : ScopeId} {c : Callable}
    (h : t.defineCallable id c = .ok t') :
    (t.local? id c.name.text = none ∧ t' = t.bind id (.callable { c with state := .defined })) ∨
      ∃ existing, t.local? id c.name.text = some (.callable existing) ∧
        existing.state ≠ .defined ∧ t' = t.modifySymbols id (markDefined c.name.text) := by
  unfold defineCallable at h
  split at h
  · rename_i hfree
    cases h
    exact .inl ⟨hfree, rfl⟩
  · rename_i existing hlocal
    split at h
    · cases h
    · rename_i hstate
      split at h
      · cases h
        exact .inr ⟨existing, hlocal, hstate, rfl⟩
      · cases h
  · cases h

/-! ### Evolution -/

/-- One change to a table. -/
inductive Change : ScopeTable → ScopeTable → Prop
  | push (t : ScopeTable) (parent : ScopeId) : Change t (t.push parent).2
  | bind (t : ScopeTable) (id : ScopeId) (symbol : Symbol)
    (free : t.local? id symbol.name.text = none) : Change t (t.bind id symbol)
  | define (t : ScopeTable) (id : ScopeId) (name : String) (announced : Callable)
    (found : t.local? id name = some (.callable announced))
    (undefined : announced.state ≠ .defined) :
    Change t (t.modifySymbols id (markDefined name))

/-- Any number of changes. -/
def Evolves : ScopeTable → ScopeTable → Prop := Relation.ReflTransGen Change

theorem Evolves.refl (t : ScopeTable) : t.Evolves t := Relation.ReflTransGen.refl

theorem Evolves.trans {a b c : ScopeTable} (hab : a.Evolves b) (hbc : b.Evolves c) : a.Evolves c :=
  Relation.ReflTransGen.trans hab hbc

theorem Change.evolves {t t' : ScopeTable} (h : Change t t') : t.Evolves t' :=
  Relation.ReflTransGen.single h

theorem evolves_of_declare {t t' : ScopeTable} {id : ScopeId} {symbol : Symbol}
    (h : t.declare id symbol = .ok t') : t.Evolves t' := by
  obtain ⟨hfree, rfl⟩ := declare_eq_ok h
  exact (Change.bind t id symbol hfree).evolves

theorem evolves_of_declareCallable {t t' : ScopeTable} {id : ScopeId} {c : Callable}
    (h : t.declareCallable id c = .ok t') : t.Evolves t' := by
  obtain rfl | ⟨hfree, rfl⟩ := declareCallable_eq_ok h
  · exact Evolves.refl _
  · exact (Change.bind t id (.callable { c with state := .declared }) hfree).evolves

theorem evolves_of_defineCallable {t t' : ScopeTable} {id : ScopeId} {c : Callable}
    (h : t.defineCallable id c = .ok t') : t.Evolves t' := by
  obtain ⟨hfree, rfl⟩ | ⟨existing, hfound, hstate, rfl⟩ := defineCallable_eq_ok h
  · exact (Change.bind t id (.callable { c with state := .defined }) hfree).evolves
  · exact (Change.define t id _ existing hfound hstate).evolves

theorem Change.mem_symbols {t t' : ScopeTable} {id : ScopeId} {s : Symbol} (h : Change t t')
    (hs : s.callable? = none) (hmem : s ∈ t.symbols id) : s ∈ t'.symbols id := by
  cases h with
  | push parent => rwa [symbols_push]
  | bind other symbol _ => exact mem_symbols_of_bind hmem
  | define other name _ _ _ =>
    rw [symbols_modifySymbols]
    split
    · exact mem_markDefined_of_callable?_eq_none hmem hs
    · exact hmem

theorem Change.forall_symbols {P : Symbol → Prop}
    (hP : ∀ c, P (.callable { c with state := .defined }) → P (.callable c)) {t t' : ScopeTable}
    (h : Change t t') (ht' : ∀ id, ∀ s ∈ t'.symbols id, P s) : ∀ id, ∀ s ∈ t.symbols id, P s := by
  intro id s hs
  have hid := ht' id
  cases h with
  | push parent =>
    rw [symbols_push] at hid
    exact hid s hs
  | bind other symbol _ => exact hid s (mem_symbols_of_bind hs)
  | define other name _ _ _ =>
    rw [symbols_modifySymbols] at hid
    split at hid
    · exact forall_of_markDefined hP hid s hs
    · exact hid s hs

/-- **A binding outlives every change.** A symbol that is not a callable, once bound, is bound for
good and as it was. -/
theorem Evolves.mem_symbols {t t' : ScopeTable} {id : ScopeId} {s : Symbol} (h : t.Evolves t')
    (hs : s.callable? = none) (hmem : s ∈ t.symbols id) : s ∈ t'.symbols id := by
  induction h with
  | refl => exact hmem
  | tail _ hchange ih => exact hchange.mem_symbols hs ih

/-- What holds of all symbols, whatever the states of the callables among them, held of all symbols
before. -/
theorem Evolves.forall_symbols {P : Symbol → Prop}
    (hP : ∀ c, P (.callable { c with state := .defined }) → P (.callable c)) {t t' : ScopeTable}
    (h : t.Evolves t') (ht' : ∀ id, ∀ s ∈ t'.symbols id, P s) : ∀ id, ∀ s ∈ t.symbols id, P s := by
  induction h with
  | refl => exact ht'
  | tail _ hchange ih => exact ih (hchange.forall_symbols hP ht')

/-! ### Lookup -/

/-- A lookup finds a symbol that some scope binds. -/
theorem mem_symbols_of_lookup {t : ScopeTable} {id : ScopeId} {name : String} {s : Symbol}
    (h : t.lookup id name = some s) : ∃ owner, s ∈ t.symbols owner := by
  obtain ⟨owner, -, hlocal⟩ := List.exists_of_findSome?_eq_some h
  exact ⟨owner, List.mem_of_find?_eq_some hlocal⟩

section Resolve

variable {α : Type} {t : ScopeTable} {id : ScopeId} {name : String} {expected : SymbolClass}
  {select : Symbol → Option α} {a : α}

theorem lookup_of_resolve (h : t.resolve id name expected select = .ok a) :
    ∃ s, t.lookup id name = some s ∧ select s = some a := by
  unfold resolve at h
  split at h
  · cases h
  · rename_i s hlookup
    split at h
    · rename_i hselect
      cases h
      exact ⟨s, hlookup, hselect⟩
    · cases h

theorem exists_of_resolve (h : t.resolve id name expected select = .ok a) :
    ∃ owner, ∃ s ∈ t.symbols owner, select s = some a := by
  obtain ⟨s, hlookup, hselect⟩ := lookup_of_resolve h
  obtain ⟨owner, hmem⟩ := mem_symbols_of_lookup hlookup
  exact ⟨owner, s, hmem, hselect⟩

end Resolve

end Pseudocode.ScopeTable
