import Pseudocode.Scope.Symbol

/-!
# Scopes

All scopes of a program stand in one table, numbered in the order in which they were opened. A scope
keeps its symbols in declaration order and binds a name at most once.
-/

namespace Pseudocode

abbrev ScopeId := Nat

structure Scope where
  parent : Option ScopeId
  symbols : List Symbol

structure ScopeTable where
  scopes : Array Scope

namespace ScopeTable

def root : ScopeId := 0

/-- The table that holds the root scope only. -/
def initial : ScopeTable := ⟨#[⟨none, []⟩]⟩

def size (t : ScopeTable) : Nat := t.scopes.size

/-- Opens a scope inside `parent`. -/
def push (t : ScopeTable) (parent : ScopeId) : ScopeId × ScopeTable :=
  (t.size, ⟨t.scopes.push ⟨some parent, []⟩⟩)

def parent? (t : ScopeTable) (id : ScopeId) : Option ScopeId := t.scopes[id]?.bind (·.parent)

/-- The symbols bound in the scope itself, in declaration order. -/
def symbols (t : ScopeTable) (id : ScopeId) : List Symbol := (t.scopes[id]?.map (·.symbols)).getD []

/-- The symbol that the scope itself binds to `name`. -/
def local? (t : ScopeTable) (id : ScopeId) (name : String) : Option Symbol :=
  (t.symbols id).find? (·.name.text == name)

/-- The scope and those around it, inside out. A scope is opened after its parent, so there are at
most `id + 1` of them. -/
def chain (t : ScopeTable) (id : ScopeId) : List ScopeId := go (id + 1) id
where
  go : Nat → ScopeId → List ScopeId
    | 0, _ => []
    | n + 1, id =>
      id ::
        match t.parent? id with
        | some parent => go n parent
        | none => []

/-- The symbol that the nearest scope binds to `name`. -/
def lookup (t : ScopeTable) (id : ScopeId) (name : String) : Option Symbol :=
  (t.chain id).findSome? (t.local? · name)

/-- What `select` takes from the nearest symbol called `name`. A symbol it takes nothing from hides
those further out all the same. -/
def resolve {α : Type} (t : ScopeTable) (id : ScopeId) (name : String) (expected : SymbolClass)
    (select : Symbol → Option α) : Except LookupError α :=
  match t.lookup id name with
  | none => .error (.undefined name expected)
  | some symbol =>
    match select symbol with
    | some a => .ok a
    | none => .error (.wrongKind name symbol.label expected)

def lookupClass (t : ScopeTable) (id : ScopeId) (name : String) (expected : SymbolClass) :
    Except LookupError Symbol :=
  t.resolve id name expected fun symbol => if expected.accepts symbol then some symbol else none

def lookupValue (t : ScopeTable) (id : ScopeId) (name : String) : Except LookupError Value :=
  t.resolve id name .value Symbol.value?

def lookupAlias (t : ScopeTable) (id : ScopeId) (name : String) : Except LookupError Ty :=
  t.resolve id name .typeAlias Symbol.alias?

def lookupCallable (t : ScopeTable) (id : ScopeId) (name : String) : Except LookupError Callable :=
  t.resolve id name .callable Symbol.callable?

/-- Changes the symbols of one scope. -/
def modifySymbols (t : ScopeTable) (id : ScopeId) (f : List Symbol → List Symbol) : ScopeTable :=
  ⟨t.scopes.modify id fun s => { s with symbols := f s.symbols }⟩

/-- Binds a symbol whose name is free. -/
def bind (t : ScopeTable) (id : ScopeId) (symbol : Symbol) : ScopeTable :=
  t.modifySymbols id (· ++ [symbol])

/-- Binds a symbol. The first binding of a name stays. -/
def declare (t : ScopeTable) (id : ScopeId) (symbol : Symbol) : Except DeclareError ScopeTable :=
  match t.local? id symbol.name.text with
  | some existing => .error (.redefined symbol.name.text symbol.label existing.label)
  | none => .ok (t.bind id symbol)

def callableState (t : ScopeTable) (id : ScopeId) (name : String) : CallableState :=
  match t.local? id name with
  | some (.callable c) => c.state
  | _ => .notDeclared

/-- Announces a callable. To announce it again with the same signature changes nothing. -/
def declareCallable (t : ScopeTable) (id : ScopeId) (c : Callable) :
    Except DeclareError ScopeTable :=
  match t.local? id c.name.text with
  | none => .ok (t.bind id (.callable { c with state := .declared }))
  | some (.callable existing) =>
    if existing.sameSignature c then .ok t
    else .error (.signatureMismatch c.name.text c.kind existing.span)
  | some existing => .error (.redefined c.name.text (.callable c.kind) existing.label)

/-- Marks the callable called `name` as defined. -/
def markDefined (name : String) : List Symbol → List Symbol
  | [] => []
  | .callable c :: rest =>
    if c.name.text == name then .callable { c with state := .defined } :: rest
    else .callable c :: markDefined name rest
  | s :: rest => s :: markDefined name rest

/-- Defines a callable, announced before or not. A callable is defined at most once. -/
def defineCallable (t : ScopeTable) (id : ScopeId) (c : Callable) :
    Except DeclareError ScopeTable :=
  match t.local? id c.name.text with
  | none => .ok (t.bind id (.callable { c with state := .defined }))
  | some (.callable existing) =>
    if existing.state = .defined then
      .error (.redefined c.name.text (.callable c.kind) (.callable existing.kind))
    else if existing.sameSignature c then .ok (t.modifySymbols id (markDefined c.name.text))
    else .error (.signatureMismatch c.name.text c.kind existing.span)
  | some existing => .error (.redefined c.name.text (.callable c.kind) existing.label)

/-- The callables of a scope that were announced and never defined, in declaration order. -/
def undefinedCallables (t : ScopeTable) (id : ScopeId) : List Callable :=
  (t.symbols id).filterMap fun
    | .callable c => if c.state = .declared then some c else none
    | _ => none

end ScopeTable

end Pseudocode
