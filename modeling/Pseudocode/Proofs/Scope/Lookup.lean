import Pseudocode.Proofs.Scope.Evolution
import Pseudocode.Proofs.Scope.Indexed

/-!
# The nearest binding

A name stands for the symbol that the nearest scope binds to it, from the inside out. What the
symbol is does not matter for this: it hides those further out even if the use of the name asks for
something else. An indexed table finds in this way what the plain table of the same scopes does.
-/

namespace Pseudocode

open ScopeTable (markDefined)

namespace IndexedTable

variable {t : IndexedTable} {id : ScopeId} {name : String} {symbol : Symbol}

/-! ### One scope -/

theorem WellFormed.local?_eq_some_iff (h : t.WellFormed) :
    t.local? id name = some symbol ↔ symbol ∈ t.symbols id ∧ symbol.name.text = name := by
  unfold local? symbols
  cases hs : t.scopes[id]? with
  | none => simp
  | some s => exact (h.indexed id s hs).find?_eq_some_iff

theorem WellFormed.local?_eq_none_iff (h : t.WellFormed) :
    t.local? id name = none ↔ ∀ symbol ∈ t.symbols id, symbol.name.text ≠ name := by
  unfold local? symbols
  cases hs : t.scopes[id]? with
  | none => simp
  | some s => exact (h.indexed id s hs).find?_eq_none_iff

theorem WellFormed.position?_eq_some_iff (h : t.WellFormed) {i : Nat} :
    t.position? id name = some i ↔ (t.symbols id)[i]?.map (·.name.text) = some name := by
  unfold position? symbols
  cases hs : t.scopes[id]? with
  | none => simp
  | some s =>
    have hindexed := h.indexed id s hs name i
    rwa [← Array.getElem?_toList] at hindexed

theorem WellFormed.nodup_names (h : t.WellFormed) (id : ScopeId) :
    ((t.symbols id).map (·.name.text)).Nodup := by
  unfold symbols
  cases hs : t.scopes[id]? with
  | none => exact List.nodup_nil
  | some s => exact (h.indexed id s hs).nodup

theorem WellFormed.parent?_root (h : t.WellFormed) : t.parent? ScopeTable.root = none := by
  obtain ⟨s, hs, hparent⟩ := Option.map_eq_some_iff.mp h.root
  rw [parent?, hs, Option.bind_some, hparent]

theorem WellFormed.parent_lt (h : t.WellFormed) {parent : ScopeId}
    (hparent : t.parent? id = some parent) : parent < id := by
  obtain ⟨s, hs, hsome⟩ := Option.bind_eq_some_iff.mp hparent
  have hid : id ≠ ScopeTable.root := by
    rintro rfl
    rw [h.parent?_root] at hparent
    cases hparent
  obtain ⟨parent', hlt, heq⟩ := h.nested id s hs hid
  rw [hsome] at heq
  cases heq
  exact hlt

theorem WellFormed.exists_parent (h : t.WellFormed) (hid : id < t.size)
    (hroot : id ≠ ScopeTable.root) : ∃ parent < id, t.parent? id = some parent := by
  have hs : t.scopes[id]? = some t.scopes[id] := Array.getElem?_eq_getElem hid
  obtain ⟨parent, hlt, hparent⟩ := h.nested id _ hs hroot
  refine ⟨parent, hlt, ?_⟩
  rw [parent?, hs, Option.bind_some, hparent]

/-! ### From the inside out -/

/-- A scope and those around it, inside out. -/
inductive Chain (t : IndexedTable) : ScopeId → List ScopeId → Prop
  | outermost {id : ScopeId} (last : t.parent? id = none) : Chain t id [id]
  | inside {id parent : ScopeId} {ids : List ScopeId} (next : t.parent? id = some parent)
    (rest : Chain t parent ids) : Chain t id (id :: ids)

/-- The symbol is bound to `name` by the nearest scope that binds the name. -/
def Nearest (t : IndexedTable) (id : ScopeId) (name : String) (symbol : Symbol) : Prop :=
  ∃ inner owner outer, t.Chain id (inner ++ owner :: outer) ∧
    (symbol ∈ t.symbols owner ∧ symbol.name.text = name) ∧
    ∀ scope ∈ inner, ∀ other ∈ t.symbols scope, other.name.text ≠ name

/-- No scope binds `name`. -/
def Unbound (t : IndexedTable) (id : ScopeId) (name : String) : Prop :=
  ∃ ids, t.Chain id ids ∧ ∀ scope ∈ ids, ∀ other ∈ t.symbols scope, other.name.text ≠ name

theorem WellFormed.length_le_of_chain (h : t.WellFormed) {ids : List ScopeId}
    (hchain : t.Chain id ids) : ids.length ≤ id + 1 := by
  induction hchain with
  | @outermost id last => exact Nat.le_add_left 1 id
  | @inside id parent ids next rest ih =>
    have hlt : parent + 1 ≤ id := h.parent_lt next
    exact Nat.succ_le_succ (Nat.le_trans ih hlt)

/-- The walk follows the chain, and ends with it. -/
theorem walk_of_chain {ids : List ScopeId} (h : t.Chain id ids) (name : String) {steps : Nat}
    (hsteps : ids.length ≤ steps) :
    t.walk name steps (some id) = some (ids.findSome? (t.local? · name)) := by
  induction h generalizing steps with
  | @outermost id last =>
    obtain ⟨steps, rfl⟩ := Nat.exists_eq_add_one_of_ne_zero (Nat.ne_of_gt hsteps)
    rw [walk]
    cases hlocal : t.local? id name with
    | some symbol => simp [hlocal]
    | none => simp [hlocal, last, walk]
  | @inside id parent ids next rest ih =>
    cases steps with
    | zero => cases hsteps
    | succ steps =>
      rw [walk]
      cases hlocal : t.local? id name with
      | some symbol => simp [hlocal]
      | none => simp [hlocal, next, ih (Nat.le_of_succ_le_succ hsteps)]

theorem WellFormed.lookup_of_chain (h : t.WellFormed) {ids : List ScopeId}
    (hchain : t.Chain id ids) (name : String) :
    t.lookup id name = ids.findSome? (t.local? · name) := by
  rw [lookup, walk_of_chain hchain name (h.length_le_of_chain hchain), Option.join_some]

/-! ### The plain table of the same scopes -/

theorem scopes_toTable (t : IndexedTable) (id : ScopeId) :
    t.toTable.scopes[id]? = t.scopes[id]?.map IndexedScope.toScope := by
  rw [toTable, Array.getElem?_map]

@[simp]
theorem parent?_toTable (t : IndexedTable) (id : ScopeId) :
    t.toTable.parent? id = t.parent? id := by
  rw [ScopeTable.parent?, scopes_toTable, parent?, Option.bind_map]
  rfl

@[simp]
theorem symbols_toTable (t : IndexedTable) (id : ScopeId) :
    t.toTable.symbols id = t.symbols id := by
  rw [ScopeTable.symbols, scopes_toTable, symbols, Option.map_map]
  rfl

theorem WellFormed.local?_toTable (h : t.WellFormed) (id : ScopeId) (name : String) :
    t.toTable.local? id name = t.local? id name := by
  rw [ScopeTable.local?, symbols_toTable]
  cases hfind : (t.symbols id).find? (·.name.text == name) with
  | none =>
    symm
    rw [h.local?_eq_none_iff]
    intro symbol hsymbol
    simpa using List.find?_eq_none.mp hfind symbol hsymbol
  | some symbol =>
    symm
    rw [h.local?_eq_some_iff]
    exact ⟨List.mem_of_find?_eq_some hfind, by simpa using List.find?_some hfind⟩

/-- The scopes around a scope have ever smaller numbers, so a number of steps above its own leads to
an outermost one. -/
theorem WellFormed.chain_go (h : t.WellFormed) {steps : Nat} (hid : id < steps) :
    t.Chain id (ScopeTable.chain.go t.toTable steps id) := by
  induction steps generalizing id with
  | zero => exact absurd hid (Nat.not_lt_zero id)
  | succ steps ih =>
    rw [ScopeTable.chain.go, parent?_toTable]
    cases hparent : t.parent? id with
    | none => exact .outermost hparent
    | some parent =>
      have hlt : parent < steps := Nat.lt_of_lt_of_le (h.parent_lt hparent) (Nat.le_of_lt_succ hid)
      exact .inside hparent (ih hlt)

theorem WellFormed.chain (h : t.WellFormed) (id : ScopeId) : t.Chain id (t.toTable.chain id) :=
  h.chain_go (Nat.lt_succ_self id)

theorem WellFormed.lookup_toTable (h : t.WellFormed) (id : ScopeId) (name : String) :
    t.toTable.lookup id name = t.lookup id name := by
  rw [ScopeTable.lookup, h.lookup_of_chain (h.chain id)]
  simp only [h.local?_toTable]

/-! ### What is found -/

theorem WellFormed.lookup_eq_some_iff (h : t.WellFormed) :
    t.lookup id name = some symbol ↔ t.Nearest id name symbol := by
  constructor
  · intro hlookup
    have hchain := h.chain id
    rw [h.lookup_of_chain hchain] at hlookup
    obtain ⟨inner, owner, outer, heq, hlocal, hinner⟩ := List.findSome?_eq_some_iff.mp hlookup
    rw [heq] at hchain
    refine ⟨inner, owner, outer, hchain, h.local?_eq_some_iff.mp hlocal, ?_⟩
    exact fun scope hscope => h.local?_eq_none_iff.mp (hinner scope hscope)
  · rintro ⟨inner, owner, outer, hchain, hbound, hinner⟩
    rw [h.lookup_of_chain hchain]
    refine List.findSome?_eq_some_iff.mpr ⟨inner, owner, outer, rfl, ?_, ?_⟩
    · exact h.local?_eq_some_iff.mpr hbound
    · exact fun scope hscope => h.local?_eq_none_iff.mpr (hinner scope hscope)

theorem WellFormed.lookup_eq_none_iff (h : t.WellFormed) :
    t.lookup id name = none ↔ t.Unbound id name := by
  constructor
  · intro hlookup
    have hchain := h.chain id
    rw [h.lookup_of_chain hchain, List.findSome?_eq_none_iff] at hlookup
    exact ⟨_, hchain, fun scope hscope => h.local?_eq_none_iff.mp (hlookup scope hscope)⟩
  · rintro ⟨ids, hchain, hfree⟩
    rw [h.lookup_of_chain hchain, List.findSome?_eq_none_iff]
    exact fun scope hscope => h.local?_eq_none_iff.mpr (hfree scope hscope)

/-- How a use of `name` ends that asks for something that `select` takes from a symbol. -/
structure Resolves {α : Type} (t : IndexedTable) (id : ScopeId) (name : String)
    (expected : SymbolClass) (select : Symbol → Option α) (result : Except LookupError α) :
    Prop where
  ok_iff : ∀ a, result = .ok a ↔ ∃ symbol, t.Nearest id name symbol ∧ select symbol = some a
  undefined_iff : result = .error (.undefined name expected) ↔ t.Unbound id name
  wrongKind_iff : ∀ label, result = .error (.wrongKind name label expected) ↔
    ∃ symbol, t.Nearest id name symbol ∧ select symbol = none ∧ symbol.label = label
  /-- There are no other errors. -/
  error : ∀ e, result = .error e →
    e = .undefined name expected ∨ ∃ label, e = .wrongKind name label expected

theorem WellFormed.resolves {α : Type} (h : t.WellFormed) (id : ScopeId) (name : String)
    (expected : SymbolClass) (select : Symbol → Option α) :
    t.Resolves id name expected select (t.resolve id name expected select) := by
  unfold IndexedTable.resolve
  cases hlookup : t.lookup id name with
  | none =>
    have hunbound : t.Unbound id name := h.lookup_eq_none_iff.mp hlookup
    have hnearest (symbol : Symbol) : ¬ t.Nearest id name symbol := by
      rw [← h.lookup_eq_some_iff, hlookup]
      exact Option.some_ne_none symbol ∘ Eq.symm
    constructor <;> simp [hunbound, hnearest]
  | some symbol =>
    have hbound : ¬ t.Unbound id name := by
      rw [← h.lookup_eq_none_iff, hlookup]
      exact Option.some_ne_none symbol
    have hnearest (other : Symbol) : t.Nearest id name other ↔ symbol = other := by
      rw [← h.lookup_eq_some_iff, hlookup, Option.some.injEq]
    cases hselect : select symbol <;> constructor <;> simp [hbound, hnearest, hselect]

/-! ### Operations on both tables -/

/-- What a plain table makes of the operation. -/
def Operation.attempt (t : ScopeTable) : Operation → Except DeclareError ScopeTable
  | .push parent => .ok (t.push parent).2
  | .declare scope symbol => t.declare scope symbol
  | .declareCallable scope c => t.declareCallable scope c
  | .defineCallable scope c => t.defineCallable scope c

/-- The plain table after operations. Those that fail leave it as it is. -/
def plainAfter (t : ScopeTable) (ops : List Operation) : ScopeTable :=
  ops.foldl (fun t op => (op.attempt t).toOption.getD t) t

theorem toTable_initial : initial.toTable = .initial := by
  simp [toTable, initial, ScopeTable.initial, IndexedScope.toScope, IndexedScope.empty]

theorem toTable_push (t : IndexedTable) (parent : ScopeId) :
    (t.push parent).2.toTable = (t.toTable.push parent).2 := by
  simp [toTable, push, ScopeTable.push, IndexedScope.toScope, IndexedScope.empty]

theorem toTable_modify {f : IndexedScope → IndexedScope} {g : List Symbol → List Symbol}
    (h : ∀ s, t.scopes[id]? = some s → (f s).toScope = ⟨s.parent, g s.symbols.toList⟩) :
    (t.modify id f).toTable = t.toTable.modifySymbols id g := by
  refine congrArg ScopeTable.mk (Array.ext_getElem? fun other => ?_)
  rw [Array.getElem?_map, scopes_modify, Array.getElem?_modify, scopes_toTable]
  split
  · rename_i hid
    subst hid
    cases hs : t.scopes[id]? with
    | none => rfl
    | some s => exact congrArg some (h s hs)
  · rfl

theorem toTable_append (t : IndexedTable) (id : ScopeId) (symbol : Symbol) :
    (t.modify id (·.append symbol)).toTable = t.toTable.bind id symbol := by
  refine toTable_modify fun s _ => ?_
  rw [IndexedScope.append, IndexedScope.toScope, Array.toList_push]

theorem markDefined_eq_set {symbols : List Symbol} {i : Nat} {c : Callable}
    (hi : symbols[i]? = some (.callable c)) (hname : c.name.text = name)
    (hfirst : ∀ j < i, symbols[j]?.map (·.name.text) ≠ some name) :
    markDefined name symbols = symbols.set i (.callable { c with state := .defined }) := by
  fun_induction markDefined name symbols generalizing i with
  | case1 => cases hi
  | case2 first rest hcalled =>
    cases i with
    | zero =>
      cases hi
      rfl
    | succ i =>
      refine absurd ?_ (hfirst 0 (Nat.succ_pos i))
      exact congrArg some (beq_iff_eq.mp hcalled)
  | case3 first rest hcalled ih =>
    cases i with
    | zero =>
      cases hi
      exact absurd (beq_iff_eq.mpr hname) hcalled
    | succ i =>
      rw [List.set_cons_succ, ih hi fun j hj => hfirst (j + 1) (Nat.succ_lt_succ hj)]
  | case4 first rest hfirst' ih =>
    cases i with
    | zero =>
      cases hi
      exact absurd rfl (hfirst' c)
    | succ i =>
      rw [List.set_cons_succ, ih hi fun j hj => hfirst (j + 1) (Nat.succ_lt_succ hj)]

theorem toTable_replace (h : t.WellFormed) {c : Callable}
    (found : t.local? id name = some (.callable c)) :
    (t.modify id (·.replace name (.callable { c with state := .defined }))).toTable =
      t.toTable.modifySymbols id (markDefined name) := by
  refine toTable_modify fun s hs => ?_
  have hindexed := h.indexed id s hs
  rw [local?_of_scopes hs, IndexedScope.find?, Option.bind_eq_some_iff] at found
  obtain ⟨i, hposition, hsymbol⟩ := found
  have hname := (hindexed name i).mp hposition
  rw [hsymbol] at hname
  rw [IndexedScope.replace, hposition, IndexedScope.toScope]
  dsimp only
  rw [Array.toList_setIfInBounds,
    markDefined_eq_set (Array.getElem?_toList.trans hsymbol) (Option.some.inj hname)]
  intro j hj hother
  rw [Array.getElem?_toList] at hother
  have heq := ((hindexed name j).mpr hother).symm.trans hposition
  exact absurd (Option.some.inj heq) (Nat.ne_of_lt hj)

/-- **Both tables go through the same operations.** They accept and refuse the same ones, for the
same reasons. -/
theorem WellFormed.attempt_toTable (h : t.WellFormed) (op : Operation) :
    op.attempt t.toTable = (op.perform t).1.map fun _ => (op.perform t).2.toTable := by
  cases op with
  | push parent => exact congrArg Except.ok (toTable_push t parent).symm
  | declare scope symbol =>
    rw [Operation.attempt, ScopeTable.declare, h.local?_toTable, Operation.perform, declare]
    cases hlocal : t.local? scope symbol.name.text with
    | none => exact congrArg Except.ok (toTable_append t scope symbol).symm
    | some existing => rw [← name_of_found h hlocal]; rfl
  | declareCallable scope c =>
    rw [Operation.attempt, ScopeTable.declareCallable, h.local?_toTable, Operation.perform,
      declareCallable]
    cases hlocal : t.local? scope c.name.text with
    | none =>
      dsimp only
      rw [declare_of_free hlocal]
      exact congrArg Except.ok (toTable_append t scope _).symm
    | some existing =>
      cases existing with
      | callable existing =>
        dsimp only
        split <;> rfl
      | localVariable | constant | parameter | typeAlias => rfl
  | defineCallable scope c =>
    rw [Operation.attempt, ScopeTable.defineCallable, h.local?_toTable, Operation.perform,
      defineCallable]
    cases hlocal : t.local? scope c.name.text with
    | none =>
      dsimp only
      rw [declare_of_free hlocal]
      exact congrArg Except.ok (toTable_append t scope _).symm
    | some existing =>
      cases existing with
      | callable existing =>
        dsimp only
        split
        · rfl
        · split
          · exact congrArg Except.ok (toTable_replace h hlocal).symm
          · rfl
      | localVariable | constant | parameter | typeAlias => rfl

theorem toTable_after (h : t.WellFormed) {ops : List Operation} (hops : t.Allows ops) :
    (t.after ops).toTable = plainAfter t.toTable ops := by
  induction ops generalizing t with
  | nil => rfl
  | cons op rest ih =>
    have hnext : (op.attempt t.toTable).toOption.getD t.toTable = (op.perform t).2.toTable := by
      rw [h.attempt_toTable op]
      generalize hresult : op.perform t = result
      have hdoes := does_perform t op
      rw [hresult] at hdoes
      cases hdoes <;> rfl
    rw [plainAfter, List.foldl_cons, hnext]
    exact ih (h.perform hops.1) hops.2

/-! ### All tables -/

/-- What holds of a scope of a table. -/
structure Lawful (t : IndexedTable) (id : ScopeId) : Prop where
  position?_iff : ∀ name i,
    t.position? id name = some i ↔ (t.symbols id)[i]?.map (·.name.text) = some name
  nodup : ((t.symbols id).map (·.name.text)).Nodup
  nested : id ≠ ScopeTable.root → ∃ parent < id, t.parent? id = some parent
  local?_iff : ∀ name symbol,
    t.local? id name = some symbol ↔ symbol ∈ t.symbols id ∧ symbol.name.text = name
  /-- Every walk ends before it has gone on for more than `id + 1` steps. -/
  walk_ends : ∀ name steps, id < steps → t.walk name steps (some id) = some (t.lookup id name)
  lookup_iff : ∀ name symbol, t.lookup id name = some symbol ↔ t.Nearest id name symbol
  unbound_iff : ∀ name, t.lookup id name = none ↔ t.Unbound id name
  lookupClass : ∀ name expected, t.Resolves id name expected
    (fun symbol => if expected.accepts symbol then some symbol else none)
    (t.lookupClass id name expected)
  lookupCallable : ∀ name,
    t.Resolves id name .callable Symbol.callable? (t.lookupCallable id name)
  lookupAlias : ∀ name, t.Resolves id name .typeAlias Symbol.alias? (t.lookupAlias id name)

theorem WellFormed.lawful (h : t.WellFormed) (hid : id < t.size) : t.Lawful id where
  position?_iff _ _ := h.position?_eq_some_iff
  nodup := h.nodup_names id
  nested := h.exists_parent hid
  local?_iff _ _ := h.local?_eq_some_iff
  walk_ends name steps hsteps := by
    have hchain := h.chain id
    rw [h.lookup_of_chain hchain,
      walk_of_chain hchain name (Nat.le_trans (h.length_le_of_chain hchain) hsteps)]
  lookup_iff _ _ := h.lookup_eq_some_iff
  unbound_iff _ := h.lookup_eq_none_iff
  lookupClass name expected := h.resolves id name expected _
  lookupCallable name := h.resolves id name .callable _
  lookupAlias name := h.resolves id name .typeAlias _

/-- **Whatever operations a table has been through,** its indices give the positions of exactly the
names bound, each scope lies in one of a smaller number, a name stands for its nearest binding, and
a use of it fails if and only if there is none or the nearest one is of another kind. The plain
table that goes through the same operations finds the same. -/
theorem lookup_finds_nearest (ops : List Operation) (h : initial.Allows ops) :
    let t := initial.after ops
    (∀ id < t.size, t.Lawful id) ∧
    t.parent? ScopeTable.root = none ∧
    t.toTable = plainAfter .initial ops ∧
    ∀ id name, t.toTable.lookup id name = t.lookup id name := by
  intro t
  have hformed : t.WellFormed := wellFormed_initial.after h
  refine ⟨fun id hid => hformed.lawful hid, hformed.parent?_root, ?_, hformed.lookup_toTable⟩
  rw [toTable_after wellFormed_initial h, toTable_initial]

/-- A variable, and an alias of the same name in a scope inside. -/
def hiddenVariable : List Operation :=
  [.declare ScopeTable.root (.localVariable ⟨"x", default⟩ .integer), .push ScopeTable.root,
    .declare 1 (.typeAlias ⟨"x", default⟩ .real)]

/-- The variable is not found past the alias. -/
theorem lookup_hiddenVariable :
    initial.Allows hiddenVariable ∧
    (initial.after hiddenVariable).Nearest 1 "x" (.typeAlias ⟨"x", default⟩ .real) ∧
    (initial.after hiddenVariable).lookupClass 1 "x" .value =
      .error (.wrongKind "x" .typeAlias .value) := by
  have hallows : initial.Allows hiddenVariable := ⟨by decide, by decide, by decide, trivial⟩
  have hlawful := (lookup_finds_nearest hiddenVariable hallows).1 1 (by decide)
  have hnearest : (initial.after hiddenVariable).Nearest 1 "x" (.typeAlias ⟨"x", default⟩ .real) :=
    (hlawful.lookup_iff _ _).mp rfl
  refine ⟨hallows, hnearest, ?_⟩
  exact ((hlawful.lookupClass "x" .value).wrongKind_iff .typeAlias).mpr ⟨_, hnearest, rfl, rfl⟩

end IndexedTable

end Pseudocode
