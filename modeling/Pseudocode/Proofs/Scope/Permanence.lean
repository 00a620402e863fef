import Pseudocode.Proofs.Scope.Lookup

/-!
# Bindings are for good

An operation on a table that fails leaves the table as it was. One that succeeds adds a symbol to a
scope, or makes an announced callable a defined one, or does nothing at all. So the first binding of
a name wins: the symbol keeps its place, and all that can happen to it is that it gets defined,
once.
-/

namespace Pseudocode

/-- The symbol is the same later on, or it is a callable that has been defined meanwhile. -/
inductive Symbol.Matures : Symbol → Symbol → Prop
  | same (symbol : Symbol) : Matures symbol symbol
  | defined (c : Callable) (undefined : c.state ≠ .defined) :
    Matures (.callable c) (.callable { c with state := .defined })

theorem Symbol.Matures.trans {a b c : Symbol} (hab : a.Matures b) (hbc : b.Matures c) :
    a.Matures c := by
  cases hab with
  | same => exact hbc
  | defined callable undefined =>
    cases hbc with
    | same => exact .defined callable undefined
    | defined _ undefined' => exact absurd rfl undefined'

/-- What is defined does not change any more. -/
theorem Symbol.Matures.eq_of_defined {c : Callable} {symbol : Symbol}
    (h : (Symbol.callable c).Matures symbol) (hc : c.state = .defined) : symbol = .callable c := by
  cases h with
  | same => rfl
  | defined _ undefined => exact absurd hc undefined

namespace IndexedTable

variable {t t' : IndexedTable} {scope id : ScopeId}

/-! ### What a change leaves alone -/

/-- Nothing but the symbols of `scope` and their index has changed. -/
structure ChangesOnly (scope : ScopeId) (t t' : IndexedTable) : Prop where
  size_eq : t'.size = t.size
  parent_eq : t'.parent? scope = t.parent? scope
  others : ∀ id : ScopeId, id ≠ scope → t'.scopes[id]? = t.scopes[id]?

theorem ChangesOnly.symbols_eq (h : ChangesOnly scope t t') (hid : id ≠ scope) :
    t'.symbols id = t.symbols id := by
  rw [symbols, h.others id hid, symbols]

theorem changesOnly_modify (t : IndexedTable) (scope : ScopeId)
    {f : IndexedScope → IndexedScope} (hf : ∀ s, (f s).parent = s.parent) :
    ChangesOnly scope t (t.modify scope f) where
  size_eq := Array.size_modify
  parent_eq := by
    rw [parent?, scopes_modify, if_pos rfl, parent?, Option.bind_map]
    simp only [Function.comp_def, hf]
  others id hid := by
    rw [scopes_modify, if_neg hid.symm]

/-! ### What success means -/

/-- The ways in which an operation that binds can lead from one table to another. -/
inductive Achieves (t t' : IndexedTable) : Operation → Prop
  /-- The symbol was added behind the others, and its name was free. -/
  | binds (op : Operation) (symbol : Symbol) (brought : op.symbol? = some symbol)
    (free : ∀ other ∈ t.symbols op.scope, other.name.text ≠ symbol.name.text)
    (only : ChangesOnly op.scope t t')
    (added : t'.symbols op.scope = t.symbols op.scope ++ [symbol]) : Achieves t t' op
  /-- The callable had been announced with the same signature, and nothing happened. -/
  | repeats (scope : ScopeId) (c existing : Callable)
    (bound : .callable existing ∈ t.symbols scope) (same : existing.sameSignature c = true)
    (unchanged : t' = t) : Achieves t t' (.declareCallable scope c)
  /-- One callable, bound to the same signature, is defined from now on. -/
  | defines (scope : ScopeId) (c existing : Callable) (i : Nat)
    (bound : (t.symbols scope)[i]? = some (.callable existing))
    (undefined : existing.state ≠ .defined) (same : existing.sameSignature c = true)
    (only : ChangesOnly scope t t')
    (updated : t'.symbols scope =
      (t.symbols scope).set i (.callable { existing with state := .defined })) :
    Achieves t t' (.defineCallable scope c)

theorem symbols_append (hscope : scope < t.size) (symbol : Symbol) :
    (t.modify scope (·.append symbol)).symbols scope = t.symbols scope ++ [symbol] := by
  have hs : t.scopes[scope]? = some t.scopes[scope] := Array.getElem?_eq_getElem hscope
  simp [symbols, scopes_modify, hs, IndexedScope.append]

theorem symbols_replace {name : String} {symbol existing : Symbol}
    (found : t.local? scope name = some existing) :
    ∃ i, (t.symbols scope)[i]? = some existing ∧
      (t.modify scope (·.replace name symbol)).symbols scope = (t.symbols scope).set i symbol := by
  obtain ⟨s, hs, hfind⟩ := Option.bind_eq_some_iff.mp found
  obtain ⟨i, hposition, hexisting⟩ := Option.bind_eq_some_iff.mp hfind
  refine ⟨i, ?_, ?_⟩
  · rw [symbols, hs, Option.map_some, Option.getD_some, Array.getElem?_toList, hexisting]
  · simp [symbols, scopes_modify, hs, IndexedScope.replace, hposition]

/-- An operation that binds achieves something or changes nothing. -/
theorem WellFormed.achieves (h : t.WellFormed) {op : Operation} (hop : op.scope < t.size)
    (hbinds : op.symbol? ≠ none) :
    (∃ error, op.perform t = (.error error, t)) ∨
      (op.perform t).1 = .ok () ∧ Achieves t (op.perform t).2 op := by
  generalize hresult : op.perform t = result
  have hdoes := does_perform t op
  rw [hresult] at hdoes
  cases hdoes with
  | opens parent => exact absurd rfl hbinds
  | fails op error => exact .inl ⟨error, rfl⟩
  | repeats scope c existing found same =>
    have hbound := (h.local?_eq_some_iff.mp found).1
    exact .inr ⟨rfl, .repeats scope c existing hbound same rfl⟩
  | binds op symbol brought free =>
    have honly := changesOnly_modify t op.scope (f := (·.append symbol)) fun _ => rfl
    refine .inr ⟨rfl, .binds op symbol brought ?_ honly (symbols_append hop symbol)⟩
    exact h.local?_eq_none_iff.mp free
  | defines scope c existing found undefined same =>
    obtain ⟨i, hbound, hset⟩ := symbols_replace found
    refine .inr ⟨rfl, .defines scope c existing i hbound undefined same ?_ hset⟩
    refine changesOnly_modify t scope fun s => ?_
    unfold IndexedScope.replace
    split <;> rfl

/-! ### What stays -/

theorem symbols_push (t : IndexedTable) (parent id : ScopeId) :
    (t.push parent).2.symbols id = t.symbols id := by
  simp only [push, symbols, Array.getElem?_push]
  split
  · rename_i hid
    simp [hid, IndexedScope.empty]
  · rfl

theorem Achieves.matures {op : Operation} (h : Achieves t t' op) {i : Nat} {symbol : Symbol}
    (hsymbol : (t.symbols id)[i]? = some symbol) :
    ∃ symbol', (t'.symbols id)[i]? = some symbol' ∧ symbol.Matures symbol' := by
  cases h with
  | binds op added brought free only hadded =>
    refine ⟨symbol, ?_, .same symbol⟩
    by_cases hid : id = op.scope
    · subst hid
      have hlt := (List.getElem?_eq_some_iff.mp hsymbol).1
      rw [hadded, List.getElem?_append_left hlt, hsymbol]
    · rw [only.symbols_eq hid, hsymbol]
  | repeats scope c existing bound same unchanged =>
    rw [unchanged]
    exact ⟨symbol, hsymbol, .same symbol⟩
  | defines scope c existing j bound undefined same only updated =>
    by_cases hid : id = scope
    · subst hid
      by_cases hij : j = i
      · subst hij
        obtain rfl := Option.some.inj (bound.symm.trans hsymbol)
        refine ⟨_, ?_, .defined existing undefined⟩
        rw [updated, List.getElem?_set_self (List.getElem?_eq_some_iff.mp bound).1]
      · refine ⟨symbol, ?_, .same symbol⟩
        rw [updated, List.getElem?_set_ne hij, hsymbol]
    · refine ⟨symbol, ?_, .same symbol⟩
      rw [only.symbols_eq hid, hsymbol]

theorem WellFormed.matures_perform (h : t.WellFormed) {op : Operation} (hop : op.scope < t.size)
    {i : Nat} {symbol : Symbol} (hsymbol : (t.symbols id)[i]? = some symbol) :
    ∃ symbol', ((op.perform t).2.symbols id)[i]? = some symbol' ∧ symbol.Matures symbol' := by
  by_cases hbinds : op.symbol? = none
  · cases op with
    | push parent =>
      refine ⟨symbol, ?_, .same symbol⟩
      rw [Operation.perform, symbols_push, hsymbol]
    | declare | declareCallable | defineCallable => cases hbinds
  · obtain ⟨error, hfailed⟩ | ⟨-, hachieves⟩ := h.achieves hop hbinds
    · rw [hfailed]
      exact ⟨symbol, hsymbol, .same symbol⟩
    · exact hachieves.matures hsymbol

/-- A symbol keeps its place for good. -/
theorem WellFormed.matures_after (h : t.WellFormed) {ops : List Operation} (hops : t.Allows ops)
    {i : Nat} {symbol : Symbol} (hsymbol : (t.symbols id)[i]? = some symbol) :
    ∃ symbol', ((t.after ops).symbols id)[i]? = some symbol' ∧ symbol.Matures symbol' := by
  induction ops generalizing t symbol with
  | nil => exact ⟨symbol, hsymbol, .same symbol⟩
  | cons op rest ih =>
    obtain ⟨next, hnext, hfirst⟩ := h.matures_perform hops.1 hsymbol
    obtain ⟨last, hlast, hrest⟩ := ih (h.perform hops.1) hops.2 hnext
    exact ⟨last, hlast, hfirst.trans hrest⟩

/-! ### Definitions -/

/-- The operations with their results. -/
def log (t : IndexedTable) : List Operation → List (Operation × Except DeclareError Unit)
  | [] => []
  | op :: rest => (op, (op.perform t).1) :: log (op.perform t).2 rest

/-- The callable `name` was defined in the scope. -/
def isDefinition (scope : ScopeId) (name : String) :
    Operation × Except DeclareError Unit → Bool
  | (.defineCallable id c, .ok ()) => id == scope && c.name.text == name
  | _ => false

/-- The scope binds `name` to a callable that is defined. -/
def IsDefined (t : IndexedTable) (scope : ScopeId) (name : String) : Prop :=
  ∃ c, t.local? scope name = some (.callable c) ∧ c.state = .defined

theorem WellFormed.isDefined_perform (h : t.WellFormed) {op : Operation} (hop : op.scope < t.size)
    {name : String} (hdefined : t.IsDefined scope name) :
    (op.perform t).2.IsDefined scope name := by
  obtain ⟨c, hlocal, hstate⟩ := hdefined
  obtain ⟨hmem, hname⟩ := h.local?_eq_some_iff.mp hlocal
  obtain ⟨i, hi⟩ := List.mem_iff_getElem?.mp hmem
  obtain ⟨symbol, hsymbol, hmatures⟩ := h.matures_perform hop hi
  rw [hmatures.eq_of_defined hstate] at hsymbol
  refine ⟨c, ?_, hstate⟩
  exact (h.perform hop).local?_eq_some_iff.mpr ⟨List.mem_of_getElem? hsymbol, hname⟩

theorem isDefinition_of_isDefined {op : Operation} {name : String}
    (hdefined : t.IsDefined scope name) :
    isDefinition scope name (op, (op.perform t).1) = false := by
  obtain ⟨existing, hlocal, hstate⟩ := hdefined
  refine eq_false_of_ne_true fun hdefinition => ?_
  cases op with
  | push | declare | declareCallable => cases hdefinition
  | defineCallable id c =>
    rw [Operation.perform] at hdefinition
    unfold isDefinition at hdefinition
    split at hdefinition
    · rename_i id c heq
      obtain ⟨hop, hok⟩ := Prod.mk.inj heq
      cases hop
      obtain ⟨rfl, rfl⟩ : id = scope ∧ c.name.text = name := by simpa using hdefinition
      rw [defineCallable, hlocal] at hok
      simp [hstate] at hok
    · cases hdefinition

theorem WellFormed.isDefined_of_isDefinition (h : t.WellFormed) {op : Operation}
    (hop : op.scope < t.size) {name : String}
    (hdefinition : isDefinition scope name (op, (op.perform t).1) = true) :
    (op.perform t).2.IsDefined scope name := by
  cases op with
  | push | declare | declareCallable => cases hdefinition
  | defineCallable id c =>
    have hformed := h.perform hop
    obtain ⟨error, hfailed⟩ | ⟨hok, hachieves⟩ := h.achieves hop (Option.some_ne_none _)
    · rw [hfailed] at hdefinition
      cases hdefinition
    · rw [hok] at hdefinition
      obtain ⟨rfl, rfl⟩ : id = scope ∧ c.name.text = name := by
        simpa [isDefinition] using hdefinition
      cases hachieves with
      | binds _ symbol brought free only added =>
        cases brought
        refine ⟨{ c with state := .defined }, hformed.local?_eq_some_iff.mpr ⟨?_, rfl⟩, rfl⟩
        change (Operation.perform t _).2.symbols id = t.symbols id ++ [_] at added
        rw [added]
        exact List.mem_append_right _ List.mem_cons_self
      | defines _ _ existing i bound undefined same only updated =>
        refine ⟨{ existing with state := .defined }, ?_, rfl⟩
        refine hformed.local?_eq_some_iff.mpr ⟨?_, ?_⟩
        · rw [updated]
          exact List.mem_set (List.getElem?_eq_some_iff.mp bound).1 _
        · simp only [Callable.sameSignature, Bool.and_eq_true, beq_iff_eq] at same
          exact same.1.1.1.2

theorem WellFormed.count_definitions_of_isDefined (h : t.WellFormed) {ops : List Operation}
    (hops : t.Allows ops) {name : String} (hdefined : t.IsDefined scope name) :
    (t.log ops).countP (isDefinition scope name) = 0 := by
  induction ops generalizing t with
  | nil => rfl
  | cons op rest ih =>
    rw [log, List.countP_cons_of_neg (by simp [isDefinition_of_isDefined hdefined])]
    exact ih (h.perform hops.1) hops.2 (h.isDefined_perform hops.1 hdefined)

/-- Of all attempts to define a callable in a scope, one at most succeeds. -/
theorem WellFormed.count_definitions_le (h : t.WellFormed) {ops : List Operation}
    (hops : t.Allows ops) (scope : ScopeId) (name : String) :
    (t.log ops).countP (isDefinition scope name) ≤ 1 := by
  induction ops generalizing t with
  | nil => exact Nat.zero_le 1
  | cons op rest ih =>
    rw [log, List.countP_cons]
    by_cases hdefinition : isDefinition scope name (op, (op.perform t).1) = true
    · have hdefined := h.isDefined_of_isDefinition hops.1 hdefinition
      have hrest := (h.perform hops.1).count_definitions_of_isDefined hops.2 hdefined
      rw [if_pos hdefinition]
      omega
    · rw [if_neg hdefinition]
      exact ih (h.perform hops.1) hops.2

/-! ### All tables -/

/-- **The first binding wins.** Whatever operations a table has been through: a binding that fails
leaves the table as it is, and one that succeeds adds a symbol, defines one callable or repeats an
announcement. Whatever comes later, each symbol stays where it is and at most becomes defined, and
no callable is defined twice. -/
theorem first_binding_wins (ops : List Operation) (h : initial.Allows ops) :
    let t := initial.after ops
    (∀ op : Operation, op.symbol? ≠ none → op.scope < t.size →
      (∀ error, (op.perform t).1 = .error error → (op.perform t).2 = t) ∧
      ((op.perform t).1 = .ok () → Achieves t (op.perform t).2 op)) ∧
    (∀ later, t.Allows later → ∀ (id : ScopeId) (i : Nat) (symbol : Symbol),
      (t.symbols id)[i]? = some symbol →
        ∃ symbol', ((t.after later).symbols id)[i]? = some symbol' ∧ symbol.Matures symbol') ∧
    ∀ scope name, (initial.log ops).countP (isDefinition scope name) ≤ 1 := by
  intro t
  have hformed : t.WellFormed := wellFormed_initial.after h
  refine ⟨?_, ?_, ?_⟩
  · intro op hbinds hop
    obtain ⟨error, hfailed⟩ | ⟨hok, hachieves⟩ := hformed.achieves hop hbinds
    · rw [hfailed]
      refine ⟨fun _ _ => rfl, fun hok => ?_⟩
      cases hok
    · refine ⟨fun error herror => ?_, fun _ => hachieves⟩
      rw [hok] at herror
      cases herror
  · intro later hlater id i symbol hsymbol
    exact hformed.matures_after hlater hsymbol
  · exact wellFormed_initial.count_definitions_le h

/-- A procedure without parameters. -/
def procedure (state : CallableState) : Callable :=
  ⟨⟨"p", default⟩, default, .procedure, [], .void, state⟩

/-- A procedure is announced, and defined later on. It is the first symbol of the scope all along,
and a second definition is refused. -/
theorem announced_procedure_matures :
    let announcement : Operation := .declareCallable ScopeTable.root (procedure .notDeclared)
    let definition : Operation := .defineCallable ScopeTable.root (procedure .notDeclared)
    let t := initial.after [announcement]
    initial.Allows [announcement, definition, definition] ∧
    (t.symbols ScopeTable.root)[0]? = some (.callable (procedure .declared)) ∧
    ((t.after [definition]).symbols ScopeTable.root)[0]? = some (.callable (procedure .defined)) ∧
    (Symbol.callable (procedure .declared)).Matures (.callable (procedure .defined)) ∧
    (initial.log [announcement, definition, definition]).countP
      (isDefinition ScopeTable.root "p") = 1 := by
  intro announcement definition t
  have hallows : initial.Allows [announcement] := ⟨by decide, trivial⟩
  have hlater : t.Allows [definition] := ⟨by decide, trivial⟩
  have hall : initial.Allows [announcement, definition, definition] :=
    ⟨by decide, by decide, by decide, trivial⟩
  have hdeclared : (t.symbols ScopeTable.root)[0]? = some (.callable (procedure .declared)) := rfl
  have hdefined : ((t.after [definition]).symbols ScopeTable.root)[0]? =
      some (.callable (procedure .defined)) := rfl
  obtain ⟨-, hmatures, -⟩ := first_binding_wins [announcement] hallows
  obtain ⟨-, -, hcount⟩ := first_binding_wins [announcement, definition, definition] hall
  refine ⟨hall, hdeclared, hdefined, ?_, Nat.le_antisymm (hcount _ _) (by decide)⟩
  obtain ⟨symbol, hsymbol, hprocedure⟩ := hmatures [definition] hlater ScopeTable.root 0 _ hdeclared
  obtain rfl := Option.some.inj (hdefined.symm.trans hsymbol)
  exact hprocedure

end IndexedTable

end Pseudocode
