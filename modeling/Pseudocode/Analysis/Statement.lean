import Pseudocode.Analysis.Initializer
import Pseudocode.Semantic.Statement
import Pseudocode.Syntax.Statement

/-!
# Analysis of statements

Statements bind names in their scope and open scopes for their blocks, so their analysis carries the
table of scopes along.
-/

namespace Pseudocode

/-- An analysis that may change the scopes. -/
abbrev Analyzer := StateT ScopeTable Traced

namespace Analyzer

variable {α : Type}

/-- An analysis that only reads the scopes, from within `scope`. -/
def reading (scope : ScopeId) (f : Env → Traced α) : Analyzer α := fun table => do
  let a ← f ⟨table, scope⟩
  return (a, table)

def openScope (parent : ScopeId) : Analyzer ScopeId := fun table => pure (table.push parent)

/-- Makes a binding, or reports at `span` why it cannot be made. -/
def bindAt (span : Span) (operation : ScopeTable → Except DeclareError ScopeTable) :
    Analyzer Unit := fun table =>
  match operation table with
  | .ok table => pure ((), table)
  | .error error => do
    Traced.report (.unbindable error) span
    return ((), table)

def declare (scope : ScopeId) (symbol : Symbol) : Analyzer Unit :=
  bindAt symbol.name.span (·.declare scope symbol)

def declareAll (scope : ScopeId) : List Symbol → Analyzer Unit
  | [] => pure ()
  | symbol :: rest => do
    declare scope symbol
    declareAll scope rest

/-- Analyses statements in a scope of their own. -/
def block (parent : ScopeId) (span : Span)
    (stmts : ScopeId → Analyzer (List Semantic.Stmt)) : Analyzer Semantic.Block := do
  let scope ← openScope parent
  let stmts ← stmts scope
  return ⟨⟨scope, span⟩, stmts⟩

end Analyzer

/-- What a return statement returns from. -/
inductive ReturnContext where
  | outside
  | main
  | callable (returnType : Ty)

/-- The type of the value to return. A main program returns an integer. -/
def ReturnContext.expected? : ReturnContext → Option Ty
  | .outside => none
  | .main => some .integer
  | .callable returnType => some returnType

namespace Analysis

open Traced (report)
open Analyzer (reading declareAll block)

/-! ### Parts of statements -/

def checkedExpr (env : Env) (target : Ty) (e : Syntax.Expr) : Traced Semantic.Expr := do
  let e ← expr env e
  let _ ← Check.convertible e target
  return e

def checkedExpr? (env : Env) (target : Ty) : Option Syntax.Expr → Traced (Option Semantic.Expr)
  | none => pure none
  | some e => do
    let e ← checkedExpr env target e
    return some e

def condition (env : Env) (e : Syntax.Expr) : Traced Semantic.Expr := checkedExpr env .boolean e

def expressionStmt (env : Env) (e : Syntax.Expr) : Traced Semantic.Stmt := do
  let e ← expr env e
  unless e.type.convertible .void do
    report .unusedValue e.span
  return .expr e

/-- The name of the constant that an assignment to the place would change. -/
def assignedConstant? (env : Env) (target : Syntax.Lvalue) : Option String :=
  match target.kind with
  | .name name =>
    match env.table.lookup env.scope name.text with
    | some symbol => if symbol.isConstant then some name.text else none
    | none => none
  | _ => none

def assignment (env : Env) (a : Syntax.Assignment) : Traced Semantic.Stmt := do
  let target ← lvalue env a.target
  match assignedConstant? env a.target with
  | some name => report (.constantAssigned name) a.span
  | none => pure ()
  let value ← expr env a.value
  Check.assignable value target.type
  return .assignment (env.site a.span) target value

/-- Analyses the operands of a routine. -/
def routineArgs (env : Env) : Syntax.RoutineCall → Traced (List Semantic.Expr)
  | .assign file name => do
    let file ← lvalue env file
    let _ ← Check.convertible file .file
    let name ← checkedExpr env .string name
    return [file, name]
  | .write file value => do
    let file ← checkedExpr env .file file
    let value ← expr env value
    return [file, value]
  | .print values => exprs env values
  | .read file target => do
    let file ← checkedExpr env .file file
    let target ← lvalue env target
    return [file, target]
  | .readKey target => do
    let target ← lvalue env target
    return [target]
  | .close file | .openAppend file | .openWrite file | .openRead file => do
    let file ← checkedExpr env .file file
    return [file]

/-- The variant, the bounds and the step of a counting loop. -/
def forHeader (env : Env) (variant : Syntax.Lvalue) (start stop : Syntax.Expr)
    (step : Option Syntax.Expr) :
    Traced (Semantic.Expr × Semantic.Expr × Semantic.Expr × Option Semantic.Expr) := do
  let variant ← lvalue env variant
  let start ← expr env start
  Check.assignable start variant.type
  let stop ← checkedExpr env variant.type stop
  let step ← checkedExpr? env variant.type step
  return (variant, start, stop, step)

/-- Analyses the initializer of local variables. -/
def localInitializer (env : Env) (type : Ty) :
    Option Syntax.Initializer → Traced (Option Semantic.Initializer)
  | none => pure none
  | some init => do
    let value ← initializer env type init
    unless type.isAggregate do
      report (.unofficial .scalarInitializers) init.span
    return some value

def locals (scope : ScopeId) (l : Syntax.LocalVariables) : Analyzer Semantic.Stmt := do
  let (type, init) ← reading scope fun env => do
    let type ← typeExpr env l.type
    let init ← localInitializer env type l.initializer
    return (type, init)
  declareAll scope (l.names.map fun name => .localVariable name type)
  return .locals ⟨scope, l.span⟩ type l.names init

def returnedValue (env : Env) : Option Syntax.Expr → Traced (Option Semantic.Expr)
  | none => pure none
  | some e => do
    let e ← expr env e
    return some e

def returnStmt (ctx : ReturnContext) (env : Env) (r : Syntax.Return) : Traced Semantic.Stmt := do
  let value ← returnedValue env r.value
  match ctx.expected?, value with
  | none, _ => report .returnOutsideBody r.span
  | some expected, some value =>
    let _ ← Check.convertible value expected
  | some expected, none =>
    unless expected.same .void do
      report (.returnWithoutValue expected) r.span
  return .returns (env.site r.span) value

def scrutinee (env : Env) (e : Syntax.Expr) : Traced Semantic.Expr := do
  let e ← expr env e
  if e.type.isStringLike then
    report .switchOnString e.span
  return e

/-- Analyses the value of a branch of a switch on a value of type `type`. A branch without a value
takes all that is left, so nothing may follow it. -/
def caseValue (env : Env) (type : Ty) (isLast : Bool) (span : Span) :
    Option Syntax.Expr → Traced (Option Semantic.Expr)
  | some e => do
    let e ← checkedExpr env type e
    Check.constant e.value e.span
    return some e
  | none => do
    unless isLast do
      report .defaultNotLast span
    return none

/-! ### Statements -/

mutual

def stmt (ctx : ReturnContext) (scope : ScopeId) : Syntax.Stmt → Analyzer Semantic.Stmt
  | .nop span => pure (.nop ⟨scope, span⟩)
  | .expr e => reading scope (expressionStmt · e)
  | .alternative span first others otherwise => do
    let first ← clause ctx scope first
    let others ← clauses ctx scope others
    match otherwise with
    | none => return .alternative ⟨scope, span⟩ first others none
    | some body =>
      let body ← block scope span (stmts ctx · body)
      return .alternative ⟨scope, span⟩ first others (some body)
  | .assignment a => reading scope (assignment · a)
  | .routine span call => do
    let args ← reading scope (routineArgs · call)
    return .routine ⟨scope, span⟩ call.routine args
  | .loop span kind cond body => do
    let cond ← reading scope (condition · cond)
    let body ← block scope span (stmts ctx · body)
    return .loop ⟨scope, span⟩ kind cond body
  | .forLoop span variant start stop step body => do
    let (variant, start, stop, step) ← reading scope (forHeader · variant start stop step)
    let body ← block scope span (stmts ctx · body)
    return .forLoop ⟨scope, span⟩ variant start stop step body
  | .locals l => locals scope l
  | .returns r => reading scope (returnStmt ctx · r)
  | .switch span e cases => do
    let e ← reading scope (scrutinee · e)
    let cases ← switchCases ctx scope e.type cases
    return .switch ⟨scope, span⟩ e cases
  | .directive d => do
    let d ← reading scope (directive · d)
    return .directive d

def clause (ctx : ReturnContext) (scope : ScopeId) : Syntax.Clause → Analyzer Semantic.Clause
  | ⟨span, cond, body⟩ => do
    let cond ← reading scope (condition · cond)
    let body ← block scope span (stmts ctx · body)
    return ⟨⟨scope, span⟩, cond, body⟩

def clauses (ctx : ReturnContext) (scope : ScopeId) :
    List Syntax.Clause → Analyzer (List Semantic.Clause)
  | [] => pure []
  | c :: rest => do
    let c ← clause ctx scope c
    let rest ← clauses ctx scope rest
    return c :: rest

def switchCases (ctx : ReturnContext) (scope : ScopeId) (type : Ty) :
    List Syntax.Case → Analyzer (List Semantic.Case)
  | [] => pure []
  | ⟨span, value, body⟩ :: rest => do
    let value ← reading scope (caseValue · type rest.isEmpty span value)
    let body ← block scope span (stmts ctx · body)
    let rest ← switchCases ctx scope type rest
    return ⟨⟨scope, span⟩, value, body⟩ :: rest

def stmts (ctx : ReturnContext) (scope : ScopeId) :
    List Syntax.Stmt → Analyzer (List Semantic.Stmt)
  | [] => pure []
  | s :: rest => do
    let s ← stmt ctx scope s
    let rest ← stmts ctx scope rest
    return s :: rest

end

end Analysis

end Pseudocode
