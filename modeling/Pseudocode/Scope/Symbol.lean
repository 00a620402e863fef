import Pseudocode.Lexicon
import Pseudocode.Value.Basic

/-!
# Symbols

What a name can be bound to, and what can go wrong when a name is bound or looked up.
-/

namespace Pseudocode

inductive CallableState where
  | notDeclared | declared | defined
deriving DecidableEq

def CallableState.text : CallableState → String
  | .notDeclared => "not-declared"
  | .declared => "declared"
  | .defined => "defined"

structure Parameter where
  name : Ident
  mode : Mode
  type : Ty

structure Callable where
  name : Ident
  /-- The extent of the signature. -/
  span : Span
  kind : CallableKind
  parameters : List Parameter
  returnType : Ty
  state : CallableState

/-- Same name, mode and type. -/
def Parameter.same (a b : Parameter) : Bool :=
  a.name.text == b.name.text && a.mode == b.mode && a.type.same b.type

/-- Same kind, name, return type and parameters. -/
def Callable.sameSignature (a b : Callable) : Bool :=
  a.kind == b.kind && a.name.text == b.name.text && a.returnType.same b.returnType &&
    a.parameters.length == b.parameters.length &&
    (a.parameters.zip b.parameters).all fun (p, q) => p.same q

inductive Symbol where
  | localVariable (name : Ident) (type : Ty)
  | constant (name : Ident) (type : Ty) (value : Value)
  | parameter (name : Ident) (type : Ty) (mode : Mode)
  | typeAlias (name : Ident) (target : Ty)
  | callable (callable : Callable)

/-- What a message calls a symbol. -/
inductive SymbolLabel where
  | localVariable | constant | parameter | typeAlias
  | callable (kind : CallableKind)
deriving DecidableEq

def SymbolLabel.text : SymbolLabel → String
  | .localVariable => "local variable"
  | .constant => "constant"
  | .parameter => "parameter"
  | .typeAlias => "type alias"
  | .callable kind => kind.text

namespace Symbol

def name : Symbol → Ident
  | .localVariable name _ | .constant name .. | .parameter name .. | .typeAlias name _ => name
  | .callable c => c.name

def label : Symbol → SymbolLabel
  | .localVariable .. => .localVariable
  | .constant .. => .constant
  | .parameter .. => .parameter
  | .typeAlias .. => .typeAlias
  | .callable c => .callable c.kind

/-- The type of a symbol that holds a value. -/
def valueType? : Symbol → Option Ty
  | .localVariable _ type | .constant _ type _ | .parameter _ type _ => some type
  | _ => none

/-- What is known of the value of a symbol that holds one. -/
def value? : Symbol → Option Value
  | .constant _ _ value => some value
  | .localVariable _ type | .parameter _ type _ => some (.runtime type)
  | _ => none

def alias? : Symbol → Option Ty
  | .typeAlias _ target => some target
  | _ => none

def callable? : Symbol → Option Callable
  | .callable c => some c
  | _ => none

def isConstant : Symbol → Bool
  | .constant .. => true
  | _ => false

end Symbol

/-- The kind of symbol that a use of a name asks for. -/
inductive SymbolClass where
  /-- Anything that holds a value. -/
  | value
  | typeAlias
  | callable
deriving DecidableEq

namespace SymbolClass

def all : List SymbolClass := [.value, .typeAlias, .callable]

def text : SymbolClass → String
  | .value => "variable"
  | .typeAlias => "type alias"
  | .callable => "function or procedure"

def accepts : SymbolClass → Symbol → Bool
  | .value, s => s.valueType?.isSome
  | .typeAlias, s => s.alias?.isSome
  | .callable, s => s.callable?.isSome

end SymbolClass

/-- A name could not be bound. -/
inductive DeclareError where
  | redefined (name : String) (new existing : SymbolLabel)
  /-- The extent of the signature that came first is `previous`. -/
  | signatureMismatch (name : String) (kind : CallableKind) (previous : Span)
deriving DecidableEq

def DeclareError.message : DeclareError → String
  | .redefined name new existing =>
    s!"{new.text} `{name}` redefines a {existing.text} of the same name"
  | .signatureMismatch name kind _ =>
    s!"this signature of {kind.text} `{name}` differs from previous signature"

/-- A name does not stand for what its use asks for. -/
inductive LookupError where
  | undefined (name : String) (expected : SymbolClass)
  | wrongKind (name : String) (actual : SymbolLabel) (expected : SymbolClass)
deriving DecidableEq

def LookupError.message : LookupError → String
  | .undefined name expected => s!"undefined {expected.text} `{name}`"
  | .wrongKind name actual expected => s!"`{name}` is a {actual.text}, {expected.text} expected"

end Pseudocode
