import Mathlib.Data.List.Nodup
import Pseudocode.Scope.Indexed

/-!
# Indexed scopes and what is found in them

The index of a scope and the list of its symbols are kept by different operations. Whatever
operations a table has been through, the index gives the positions of exactly the names that the
scope binds, and the parent of a scope has a smaller number than the scope. Both hold at the
beginning and are kept by each operation. It follows that a walk from a scope outwards comes to an
end, at the nearest scope that binds the name.
-/

namespace Pseudocode

namespace IndexedScope

/-- The index has the positions of the symbols under their names, and nothing else. -/
def Indexed (s : IndexedScope) : Prop :=
  ∀ name i, s.positions.get? name = some i ↔ s.symbols[i]?.map (·.name.text) = some name

variable {s : IndexedScope} {name : String} {symbol : Symbol}

theorem indexed_empty (parent : Option ScopeId) : (empty parent).Indexed := by
  intro name i
  simp [empty]

theorem Indexed.find?_eq_some_iff (h : s.Indexed) :
    s.find? name = some symbol ↔ symbol ∈ s.symbols.toList ∧ symbol.name.text = name := by
  rw [find?, Option.bind_eq_some_iff]
  constructor
  · rintro ⟨i, hi, hsymbol⟩
    have hname := (h name i).mp hi
    rw [hsymbol, Option.map_some] at hname
    exact ⟨Array.mem_toList_iff.mpr (Array.mem_of_getElem? hsymbol), Option.some.inj hname⟩
  · rintro ⟨hmem, hname⟩
    obtain ⟨i, hi⟩ := Array.mem_iff_getElem?.mp (Array.mem_toList_iff.mp hmem)
    refine ⟨i, (h name i).mpr ?_, hi⟩
    rw [hi, Option.map_some, hname]

theorem Indexed.find?_eq_none_iff (h : s.Indexed) :
    s.find? name = none ↔ ∀ symbol ∈ s.symbols.toList, symbol.name.text ≠ name := by
  rw [Option.eq_none_iff_forall_ne_some]
  constructor
  · intro hnone symbol hmem hname
    exact hnone symbol (h.find?_eq_some_iff.mpr ⟨hmem, hname⟩)
  · intro hfree symbol hsymbol
    obtain ⟨hmem, hname⟩ := h.find?_eq_some_iff.mp hsymbol
    exact hfree symbol hmem hname

/-- A scope binds a name at most once: the index has one position for it. -/
theorem Indexed.nodup (h : s.Indexed) : (s.symbols.toList.map (·.name.text)).Nodup := by
  rw [List.nodup_iff_getElem?_ne_getElem?]
  intro i j hij hj heq
  rw [List.length_map, Array.length_toList] at hj
  have hname : s.symbols[j]?.map (·.name.text) = some s.symbols[j].name.text := by
    rw [Array.getElem?_eq_getElem hj, Option.map_some]
  rw [List.getElem?_map, List.getElem?_map, Array.getElem?_toList, Array.getElem?_toList, hname]
    at heq
  have hpositions := ((h _ i).mpr heq).symm.trans ((h _ j).mpr hname)
  exact absurd (Option.some.inj hpositions) (Nat.ne_of_lt hij)

theorem Indexed.append (h : s.Indexed) (free : s.find? symbol.name.text = none) :
    (s.append symbol).Indexed := by
  intro name i
  rw [IndexedScope.append, NameIndex.get?_insert, Array.getElem?_push]
  by_cases hname : name = symbol.name.text
  · subst hname
    by_cases hi : i = s.symbols.size
    · simp [hi]
    · have hother : s.symbols[i]?.map (·.name.text) ≠ some symbol.name.text := by
        intro hsome
        obtain ⟨other, hother, heq⟩ := Option.map_eq_some_iff.mp hsome
        have hmem := Array.mem_toList_iff.mpr (Array.mem_of_getElem? hother)
        exact h.find?_eq_none_iff.mp free other hmem heq
      simpa [hi, Ne.symm hi] using hother
  · by_cases hi : i = s.symbols.size
    · have hnone := h name i
      simp only [hi, Array.getElem?_size, Option.map_none, reduceCtorEq, iff_false] at hnone
      simp [hi, hname, hnone, Ne.symm hname]
    · simpa [hi, hname] using h name i

/-- A symbol may be replaced by one of the same name. -/
theorem Indexed.replace (h : s.Indexed) (hname : symbol.name.text = name) :
    (s.replace name symbol).Indexed := by
  unfold IndexedScope.replace
  split
  · rename_i position hposition
    intro other i
    change s.positions.get? other = some i ↔ _
    rw [h other i, Array.getElem?_setIfInBounds]
    by_cases hi : position = i
    · subst hi
      rw [(h name position).mp hposition, if_pos rfl]
      have hlt : position < s.symbols.size := by
        by_contra hge
        have hnone := (h name position).mp hposition
        rw [Array.getElem?_eq_none (Nat.not_lt.mp hge)] at hnone
        cases hnone
      rw [if_pos hlt, Option.map_some, hname]
    · rw [if_neg hi]
  · exact h

end IndexedScope

namespace IndexedTable

/-! ### Operations -/

inductive Operation where
  | push (parent : ScopeId)
  | declare (scope : ScopeId) (symbol : Symbol)
  | declareCallable (scope : ScopeId) (callable : Callable)
  | defineCallable (scope : ScopeId) (callable : Callable)

namespace Operation

/-- The scope that has to be there for the operation. -/
def scope : Operation → ScopeId
  | .push parent => parent
  | .declare scope _ | .declareCallable scope _ | .defineCallable scope _ => scope

def perform (t : IndexedTable) : Operation → Binding
  | .push parent => (.ok (), (t.push parent).2)
  | .declare scope symbol => t.declare scope symbol
  | .declareCallable scope c => t.declareCallable scope c
  | .defineCallable scope c => t.defineCallable scope c

/-- The symbol that the operation binds if its name is free. -/
def symbol? : Operation → Option Symbol
  | .push _ => none
  | .declare _ symbol => some symbol
  | .declareCallable _ c => some (.callable { c with state := .declared })
  | .defineCallable _ c => some (.callable { c with state := .defined })

end Operation

/-- What an operation can do to a table. -/
inductive Does (t : IndexedTable) : Operation → Binding → Prop
  | opens (parent : ScopeId) : Does t (.push parent) (.ok (), (t.push parent).2)
  | fails (op : Operation) (error : DeclareError) : Does t op (.error error, t)
  | repeats (scope : ScopeId) (c existing : Callable)
    (found : t.local? scope c.name.text = some (.callable existing))
    (same : existing.sameSignature c = true) : Does t (.declareCallable scope c) (.ok (), t)
  | binds (op : Operation) (symbol : Symbol) (brought : op.symbol? = some symbol)
    (free : t.local? op.scope symbol.name.text = none) :
    Does t op (.ok (), t.modify op.scope (·.append symbol))
  | defines (scope : ScopeId) (c existing : Callable)
    (found : t.local? scope c.name.text = some (.callable existing))
    (undefined : existing.state ≠ .defined) (same : existing.sameSignature c = true) :
    Does t (.defineCallable scope c) (.ok (),
      t.modify scope (·.replace c.name.text (.callable { existing with state := .defined })))

theorem declare_of_free {t : IndexedTable} {scope : ScopeId} {symbol : Symbol}
    (free : t.local? scope symbol.name.text = none) :
    t.declare scope symbol = (.ok (), t.modify scope (·.append symbol)) := by
  rw [declare, free]

theorem does_perform (t : IndexedTable) (op : Operation) : Does t op (op.perform t) := by
  cases op with
  | push parent => exact .opens parent
  | declare scope symbol =>
    rw [Operation.perform, declare]
    split
    · exact .fails _ _
    · rename_i free
      exact .binds (.declare scope symbol) symbol rfl free
  | declareCallable scope c =>
    rw [Operation.perform, declareCallable]
    split
    · rename_i free
      rw [declare_of_free free]
      exact .binds (.declareCallable scope c) _ rfl free
    · rename_i existing found
      split
      · rename_i same
        exact .repeats scope c existing found same
      · exact .fails _ _
    · exact .fails _ _
  | defineCallable scope c =>
    rw [Operation.perform, defineCallable]
    split
    · rename_i free
      rw [declare_of_free free]
      exact .binds (.defineCallable scope c) _ rfl free
    · rename_i existing found
      split
      · exact .fails _ _
      · rename_i undefined
        split
        · rename_i same
          exact .defines scope c existing found undefined same
        · exact .fails _ _
    · exact .fails _ _

/-- The table after operations. -/
def after (t : IndexedTable) (ops : List Operation) : IndexedTable :=
  ops.foldl (fun t op => (op.perform t).2) t

/-- Each operation is on a scope that is there by then. -/
def Allows (t : IndexedTable) : List Operation → Prop
  | [] => True
  | op :: rest => op.scope < t.size ∧ (op.perform t).2.Allows rest

/-! ### Well-formed tables -/

structure WellFormed (t : IndexedTable) : Prop where
  indexed : ∀ (id : ScopeId) (s : IndexedScope), t.scopes[id]? = some s → s.Indexed
  root : t.scopes[ScopeTable.root]?.map (·.parent) = some none
  nested : ∀ (id : ScopeId) (s : IndexedScope), t.scopes[id]? = some s → id ≠ ScopeTable.root →
    ∃ parent < id, s.parent = some parent

theorem scopes_modify (t : IndexedTable) (id other : ScopeId) (f : IndexedScope → IndexedScope) :
    (t.modify id f).scopes[other]? =
      if id = other then t.scopes[other]?.map f else t.scopes[other]? :=
  Array.getElem?_modify ..

theorem eq_of_scopes_initial {id : ScopeId} {s : IndexedScope}
    (h : initial.scopes[id]? = some s) : id = ScopeTable.root ∧ s = .empty none := by
  have hlist : [IndexedScope.empty none][id]? = some s := by simpa [initial] using h
  cases id with
  | zero => exact ⟨rfl, (Option.some.inj hlist).symm⟩
  | succ n => cases hlist

theorem wellFormed_initial : WellFormed initial where
  indexed id s hs := by
    obtain ⟨-, rfl⟩ := eq_of_scopes_initial hs
    exact IndexedScope.indexed_empty none
  root := rfl
  nested id s hs hid := absurd (eq_of_scopes_initial hs).1 hid

variable {t : IndexedTable}

theorem WellFormed.push (h : t.WellFormed) {parent : ScopeId} (hparent : parent < t.size) :
    (t.push parent).2.WellFormed where
  indexed id s hs := by
    rw [IndexedTable.push, Array.getElem?_push] at hs
    split at hs
    · cases hs
      exact IndexedScope.indexed_empty _
    · exact h.indexed id s hs
  root := by
    have hroot : ScopeTable.root ≠ t.scopes.size := by
      intro heq
      rw [size, ← heq] at hparent
      exact Nat.not_lt_zero _ hparent
    rw [IndexedTable.push, Array.getElem?_push, if_neg hroot]
    exact h.root
  nested id s hs hid := by
    rw [IndexedTable.push, Array.getElem?_push] at hs
    split at hs
    · rename_i hnew
      cases hs
      exact ⟨parent, hnew ▸ hparent, rfl⟩
    · exact h.nested id s hs hid

theorem WellFormed.modify (h : t.WellFormed) {id : ScopeId} {f : IndexedScope → IndexedScope}
    (hf : ∀ s, t.scopes[id]? = some s → (f s).Indexed ∧ (f s).parent = s.parent) :
    (t.modify id f).WellFormed := by
  have hscope (other : ScopeId) (s : IndexedScope) (hs : (t.modify id f).scopes[other]? = some s) :
      ∃ s', t.scopes[other]? = some s' ∧ s.Indexed ∧ s.parent = s'.parent := by
    rw [scopes_modify] at hs
    split at hs
    · rename_i heq
      subst heq
      obtain ⟨s', hs', rfl⟩ := Option.map_eq_some_iff.mp hs
      exact ⟨s', hs', hf s' hs'⟩
    · exact ⟨s, hs, h.indexed other s hs, rfl⟩
  constructor
  · intro other s hs
    obtain ⟨-, -, hindexed, -⟩ := hscope other s hs
    exact hindexed
  · obtain ⟨s, hs, hparent⟩ := Option.map_eq_some_iff.mp h.root
    rw [scopes_modify, hs]
    split
    · rename_i heq
      subst heq
      rw [Option.map_some, Option.map_some, (hf s hs).2, hparent]
    · rw [Option.map_some, hparent]
  · intro other s hs hother
    obtain ⟨s', hs', -, hparent⟩ := hscope other s hs
    rw [hparent]
    exact h.nested other s' hs' hother

theorem local?_of_scopes {id : ScopeId} {s : IndexedScope} (hs : t.scopes[id]? = some s)
    (name : String) : t.local? id name = s.find? name := by
  rw [local?, hs, Option.bind_some]

theorem name_of_found (h : t.WellFormed) {id : ScopeId} {name : String} {symbol : Symbol}
    (found : t.local? id name = some symbol) : symbol.name.text = name := by
  obtain ⟨s, hs, hsymbol⟩ := Option.bind_eq_some_iff.mp found
  exact ((h.indexed id s hs).find?_eq_some_iff.mp hsymbol).2

theorem WellFormed.perform (h : t.WellFormed) {op : Operation} (hop : op.scope < t.size) :
    (op.perform t).2.WellFormed := by
  generalize hresult : op.perform t = result
  have hdoes := does_perform t op
  rw [hresult] at hdoes
  cases hdoes with
  | opens parent => exact h.push hop
  | fails op error => exact h
  | repeats scope c existing found same => exact h
  | binds op symbol brought free =>
    refine h.modify fun s hs => ⟨(h.indexed _ s hs).append ?_, rfl⟩
    rwa [← local?_of_scopes hs]
  | defines scope c existing found undefined same =>
    have hname : existing.name.text = c.name.text := name_of_found h found
    refine h.modify fun s hs => ⟨(h.indexed _ s hs).replace hname, ?_⟩
    unfold IndexedScope.replace
    split <;> rfl

theorem WellFormed.after (h : t.WellFormed) {ops : List Operation} (hops : t.Allows ops) :
    (t.after ops).WellFormed := by
  induction ops generalizing t with
  | nil => exact h
  | cons op rest ih => exact ih (h.perform hops.1) hops.2

end IndexedTable

end Pseudocode
