import Pseudocode.Analysis.Trace
import Pseudocode.Folding.Cast
import Pseudocode.Path.Step
import Pseudocode.Semantic.Expr

/-!
# Checks on analysed expressions

Each check looks at expressions that have been analysed, reports what is wrong with them and gives
the value of the expression they are part of.
-/

namespace Pseudocode

open Semantic (Site Expr Argument)
open Traced (emit report)

/-- Where a piece of syntax is analysed. -/
structure Env where
  table : ScopeTable
  scope : ScopeId

def Env.site (env : Env) (span : Span) : Site := ⟨env.scope, span⟩

namespace Check

/-- Reports an expression that does not convert to `target`. -/
def convertible (e : Expr) (target : Ty) : Traced Bool := do
  if e.type.convertible target then
    return true
  report (.wrongType e.type target) e.span
  return false

/-- Reports an expression that cannot be stored in a place of type `target`. -/
def assignable (e : Expr) (target : Ty) : Traced Unit := do
  unless e.type.assignable target do
    report (.wrongType e.type target) e.span

/-- Reports that the expression at `span` is not the constant it has to be, unless an error accounts
for its value. -/
def notConstant (value : Value) (span : Span) : Traced Unit := do
  unless value.isInvalid do
    emit (.notConstant span)

/-- Reports a value at `span` that is not known. -/
def constant (value : Value) (span : Span) : Traced Unit := do
  unless value.isKnown do
    notConstant value span

/-- Reports what is remarkable about the operation at `span`. -/
def remark (unsupported : Cause) (span : Span) : Remark → Traced Unit
  | .divisionByZero => report .divisionByZero span
  | .floatingPointEquality => report .floatingPointEquality span
  | .integerOverflow => emit (.overflow span)
  | .unsupportedOperation => report unsupported span

def remarks (unsupported : Cause) (span : Span) : List Remark → Traced Unit
  | [] => pure ()
  | r :: rest => do
    remark unsupported span r
    remarks unsupported span rest

def binary (op : BinaryOp) (left right : Expr) (span : Span) : Traced Value := do
  let operation := op.apply left.value right.value span
  remarks (.unsupportedBinary op left.type right.type) span operation.remarks
  return operation.value

def unary (op : UnaryOp) (operand : Expr) (span : Span) : Traced Value := do
  let operation := op.apply operand.value span
  remarks (.unsupportedUnary op operand.type) span operation.remarks
  return operation.value

def cast (value : Expr) (target : Ty) (span : Span) : Traced Value := do
  report (.unofficial .casts) span
  let cast := value.value.cast target
  match cast.kind with
  | .explicit => pure ()
  | .redundant => report (.redundantCast value.type target) span
  | .invalid => report (.invalidCast value.type target) span
  return cast.value

/-- How one argument differs from the parameter in its place. -/
def argumentProblems (formal : Parameter) (actual : Argument) : List CallProblem :=
  (if formal.mode = actual.mode then []
    else [.mode formal.name.text formal.mode actual.mode]) ++
  (if actual.value.type.convertible formal.type then []
    else [.type formal.name.text formal.type actual.value.type])

/-- How the arguments of a call differ from the parameters of its callee. -/
def callProblems (formals : List Parameter) (args : List Argument) : List CallProblem :=
  (if formals.length = args.length then [] else [.count formals.length args.length]) ++
  (formals.zip args).flatMap fun (formal, actual) => argumentProblems formal actual

def call (env : Env) (callee : Ident) (args : List Argument) (span : Span) : Traced Value := do
  match env.table.lookupCallable env.scope callee.text with
  | .error error =>
    report (.unresolved error) callee.span
    return .invalid (.unknown span)
  | .ok callable =>
    let problems := callProblems callable.parameters args
    unless problems.isEmpty do
      report (.callMismatch callable.kind callable.name.text problems) span
    return .runtime callable.returnType

def name (env : Env) (name : Ident) : Traced Value := do
  match env.table.lookupValue env.scope name.text with
  | .error error =>
    report (.unresolved error) name.span
    return .invalid (.unknown name.span)
  | .ok value => return value

/-- The element of `array` at a known one-based index. -/
def element (array : Expr) (item : Ty) (length : Nat) (n : Int32) (span : Span) :
    Traced Value := do
  if 1 ≤ n.toInt ∧ n.toInt ≤ length then
    return (array.value.slot? (.index (n.toInt.toNat - 1))).getD (.runtime item)
  report (.indexOutOfBounds n length) span
  return .invalid item

def subscript (array index : Expr) (span : Span) : Traced Value := do
  unless index.type.convertible .integer do
    report (.nonIntegerIndex index.type) index.span
  match array.type.unaliased with
  | .unknown _ => return .invalid array.type
  | .array item length =>
    match index.value.integer? with
    | some n => element array item length n index.span
    | none => return ⟨item, .pending (array.value.isInvalid || index.value.isInvalid)⟩
  | _ =>
    report (.subscriptOfNonArray array.type) array.span
    return .invalid (.unknown span)

/-- The name of a type that is an alias. -/
def aliasName? : Ty → Option String
  | .aliased name _ => some name
  | _ => none

def component (base : Expr) (name : Ident) (span : Span) : Traced Value := do
  match base.type.unaliased with
  | .unknown _ => return .invalid base.type
  | .struct components =>
    match components.lookup name.text with
    | some type =>
      return (base.value.slot? (.component name.text)).getD ⟨type, .pending base.value.isInvalid⟩
    | none =>
      report (.missingComponent (aliasName? base.type) name.text) name.span
      return .invalid (.unknown name.span)
  | _ =>
    report (.componentOfNonStruct name.text base.type) span
    return .invalid (.unknown span)

/-- The length that an expression gives to an array or a string: a known positive integer. -/
def length (e : Expr) : Traced (Option Nat) := do
  unless ← convertible e .integer do
    return none
  match e.value.integer? with
  | some n =>
    if 0 < n.toInt then
      return some n.toInt.toNat
    report (.nonPositiveLength n) e.span
    return none
  | none =>
    notConstant e.value e.span
    return none

/-- Adds components of one type to those of a structure. A name that is taken is left out. -/
def addComponents (type : Ty) : List Ident → List (String × Ty) → Traced (List (String × Ty))
  | [], components => pure components
  | name :: names, components => do
    if components.any (·.1 == name.text) then
      report (.duplicateComponent name.text) name.span
      addComponents type names components
    else addComponents type names (components ++ [(name.text, type)])

end Check

end Pseudocode
