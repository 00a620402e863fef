import Pseudocode.Scope.Table

/-!
# Scopes with an index

Here each scope keeps an index beside its symbols, so that a name is found without a search, and an
operation changes the table in place. What an operation leaves behind is there also if it fails.
-/

namespace Pseudocode

/-- A map from names to positions. -/
structure NameIndex where
  /-- An entry hides those of the same name behind it. -/
  entries : List (String × Nat)

namespace NameIndex

def empty : NameIndex := ⟨[]⟩

def get? (x : NameIndex) (name : String) : Option Nat := x.entries.lookup name

def insert (x : NameIndex) (name : String) (position : Nat) : NameIndex :=
  ⟨(name, position) :: x.entries⟩

@[simp]
theorem get?_empty (name : String) : empty.get? name = none := rfl

theorem get?_insert (x : NameIndex) (name other : String) (position : Nat) :
    (x.insert name position).get? other = if other = name then some position else x.get? other := by
  rw [get?, insert, List.lookup_cons]
  by_cases h : other = name
  · simp [h]
  · have hbeq : (other == name) = false := by simpa using h
    simp [h, hbeq, get?]

end NameIndex

structure IndexedScope where
  parent : Option ScopeId
  symbols : Array Symbol
  positions : NameIndex

namespace IndexedScope

def empty (parent : Option ScopeId) : IndexedScope := ⟨parent, #[], .empty⟩

def find? (s : IndexedScope) (name : String) : Option Symbol :=
  (s.positions.get? name).bind (s.symbols[·]?)

/-- Adds a symbol, under its name. -/
def append (s : IndexedScope) (symbol : Symbol) : IndexedScope :=
  { s with
    symbols := s.symbols.push symbol
    positions := s.positions.insert symbol.name.text s.symbols.size }

/-- Puts a symbol in the place of the one that is found under `name`. -/
def replace (s : IndexedScope) (name : String) (symbol : Symbol) : IndexedScope :=
  match s.positions.get? name with
  | some i => { s with symbols := s.symbols.setIfInBounds i symbol }
  | none => s

/-- The scope without its index. -/
def toScope (s : IndexedScope) : Scope := ⟨s.parent, s.symbols.toList⟩

end IndexedScope

structure IndexedTable where
  scopes : Array IndexedScope

namespace IndexedTable

/-- What becomes of a table to which something is bound, or not. -/
abbrev Binding := Except DeclareError Unit × IndexedTable

def initial : IndexedTable := ⟨#[.empty none]⟩

def size (t : IndexedTable) : Nat := t.scopes.size

def push (t : IndexedTable) (parent : ScopeId) : ScopeId × IndexedTable :=
  (t.size, ⟨t.scopes.push (.empty (some parent))⟩)

def parent? (t : IndexedTable) (id : ScopeId) : Option ScopeId := t.scopes[id]?.bind (·.parent)

def symbols (t : IndexedTable) (id : ScopeId) : List Symbol :=
  (t.scopes[id]?.map (·.symbols.toList)).getD []

/-- Where the scope keeps the symbol called `name`. -/
def position? (t : IndexedTable) (id : ScopeId) (name : String) : Option Nat :=
  t.scopes[id]?.bind (·.positions.get? name)

def local? (t : IndexedTable) (id : ScopeId) (name : String) : Option Symbol :=
  t.scopes[id]?.bind (·.find? name)

/-! ### Looking up -/

/-- Goes from scope to scope until one of them binds `name`. There is no answer if the steps do not
suffice. -/
def walk (t : IndexedTable) (name : String) : Nat → Option ScopeId → Option (Option Symbol)
  | _, none => some none
  | 0, some _ => none
  | steps + 1, some id =>
    match t.local? id name with
    | some symbol => some (some symbol)
    | none => walk t name steps (t.parent? id)

/-- The symbol that the nearest scope binds to `name`. A scope is opened after its parent, so no
walk takes more than `id + 1` steps. -/
def lookup (t : IndexedTable) (id : ScopeId) (name : String) : Option Symbol :=
  (t.walk name (id + 1) (some id)).join

/-- What `select` takes from the nearest symbol called `name`. -/
def resolve {α : Type} (t : IndexedTable) (id : ScopeId) (name : String) (expected : SymbolClass)
    (select : Symbol → Option α) : Except LookupError α :=
  match t.lookup id name with
  | none => .error (.undefined name expected)
  | some symbol =>
    match select symbol with
    | some a => .ok a
    | none => .error (.wrongKind name symbol.label expected)

def lookupClass (t : IndexedTable) (id : ScopeId) (name : String) (expected : SymbolClass) :
    Except LookupError Symbol :=
  t.resolve id name expected fun symbol => if expected.accepts symbol then some symbol else none

def lookupAlias (t : IndexedTable) (id : ScopeId) (name : String) : Except LookupError Ty :=
  t.resolve id name .typeAlias Symbol.alias?

def lookupCallable (t : IndexedTable) (id : ScopeId) (name : String) :
    Except LookupError Callable :=
  t.resolve id name .callable Symbol.callable?

/-! ### Binding -/

/-- Changes one scope. -/
def modify (t : IndexedTable) (id : ScopeId) (f : IndexedScope → IndexedScope) : IndexedTable :=
  ⟨t.scopes.modify id f⟩

/-- Binds a symbol. The first binding of a name stays. -/
def declare (t : IndexedTable) (id : ScopeId) (symbol : Symbol) : Binding :=
  match t.local? id symbol.name.text with
  | some existing => (.error (.redefined existing.name.text symbol.label existing.label), t)
  | none => (.ok (), t.modify id (·.append symbol))

/-- Announces a callable. To announce it again with the same signature changes nothing. -/
def declareCallable (t : IndexedTable) (id : ScopeId) (c : Callable) : Binding :=
  match t.local? id c.name.text with
  | none => t.declare id (.callable { c with state := .declared })
  | some (.callable existing) =>
    if existing.sameSignature c then (.ok (), t)
    else (.error (.signatureMismatch c.name.text c.kind existing.span), t)
  | some existing => (.error (.redefined c.name.text (.callable c.kind) existing.label), t)

/-- Defines a callable, announced before or not. A callable is defined at most once. -/
def defineCallable (t : IndexedTable) (id : ScopeId) (c : Callable) : Binding :=
  match t.local? id c.name.text with
  | none => t.declare id (.callable { c with state := .defined })
  | some (.callable existing) =>
    if existing.state = .defined then
      (.error (.redefined c.name.text (.callable c.kind) (.callable existing.kind)), t)
    else if existing.sameSignature c then
      (.ok (), t.modify id (·.replace c.name.text (.callable { existing with state := .defined })))
    else (.error (.signatureMismatch c.name.text c.kind existing.span), t)
  | some existing => (.error (.redefined c.name.text (.callable c.kind) existing.label), t)

def callableState (t : IndexedTable) (id : ScopeId) (name : String) : CallableState :=
  match t.local? id name with
  | some (.callable c) => c.state
  | _ => .notDeclared

def toTable (t : IndexedTable) : ScopeTable := ⟨t.scopes.map IndexedScope.toScope⟩

end IndexedTable

end Pseudocode
