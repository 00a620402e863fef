import Pseudocode.Analysis.Algorithm

/-!
# Analysis in one pass

A session analyses an algorithm and reports as it goes. The scopes, the types of the nodes, the
overflows met so far, the return context and the destination of the diagnostics are its state. The
configuration is asked in three places: a local variable is hinted at only if such hints are wanted,
a report has to be enabled by its code, and the destination drops the codes that are suppressed.
-/

namespace Pseudocode

/-- Reports under the code are switched on. -/
def Config.enables (c : Config) : Code → Bool
  | .unofficialFeature => c.unofficialFeatures
  | .evaluateExpression | .evaluateType => c.debug
  | _ => true

structure Session where
  config : Config
  source : Option String
  scopes : ScopeTable
  types : Array (Syntax.NodeId × Ty)
  overflows : List Span
  mainSeen : Bool
  context : ReturnContext
  sink : Sink

/-- A part of an analysis that a session goes through. -/
abbrev Pass := StateM Session

namespace Session

open Analysis (expressionStmt assignment routineArgs condition forHeader returnStmt scrutinee
  caseValue directive directives signature constantValue typeExpr initializer undefinedCallables)

variable {α : Type}

def start (config : Config) (source : Option String) : Session :=
  { config
    source
    scopes := .initial
    types := #[]
    overflows := []
    mainSeen := false
    context := .outside
    sink := .empty config.suppressed }

def report (s : Session) (f : Finding) : Session :=
  if s.config.enables f.cause.code then { s with sink := s.sink.report (f.diagnostic s.source) }
  else s

def handle (s : Session) : Event → Session
  | .found finding => s.report finding
  | .notConstant span => s.report ⟨.notConstant (s.overflows.any span.encloses), span⟩
  | .overflow span => { s with overflows := span :: s.overflows }
  | .typed id type => { s with types := s.types.push (id, type) }

/-! ### Steps -/

/-- Handles the events of an analysis in order. -/
def perform (x : Traced α) : Pass α := fun s => (x.result, x.events.foldl handle s)

/-- Performs an analysis that only reads the scopes, from within `scope`. -/
def reading (scope : ScopeId) (f : Env → Traced α) : Pass α :=
  fun s => perform (f ⟨s.scopes, scope⟩) s

def openScope (parent : ScopeId) : Pass ScopeId := fun s =>
  let (scope, scopes) := s.scopes.push parent
  (scope, { s with scopes })

def bindAt (span : Span) (operation : ScopeTable → Except DeclareError ScopeTable) : Pass Unit :=
  fun s =>
    match operation s.scopes with
    | .ok scopes => ((), { s with scopes })
    | .error error => ((), s.report ⟨.unbindable error, span⟩)

def declare (scope : ScopeId) (symbol : Symbol) : Pass Unit :=
  bindAt symbol.name.span (·.declare scope symbol)

def declareAll (scope : ScopeId) : List Symbol → Pass Unit
  | [] => pure ()
  | symbol :: rest => do
    declare scope symbol
    declareAll scope rest

/-- Goes through a part of the analysis in another return context, and comes back to this one. -/
def within (context : ReturnContext) (p : Pass α) : Pass α := fun s =>
  let (a, s') := p { s with context }
  (a, { s' with context := s.context })

def block (parent : ScopeId) (span : Span) (stmts : ScopeId → Pass (List Semantic.Stmt)) :
    Pass Semantic.Block := do
  let scope ← openScope parent
  let stmts ← stmts scope
  return ⟨⟨scope, span⟩, stmts⟩

/-! ### Statements -/

def optionalInitializer (env : Env) (type : Ty) :
    Option Syntax.Initializer → Traced (Option Semantic.Initializer)
  | none => pure none
  | some init => do
    let value ← initializer env type init
    return some value

/-- The hint at a scalar local variable with an initializer. -/
def scalarHint (config : Config) (type : Ty) : Option Syntax.Initializer → Traced Unit
  | none => pure ()
  | some init => do
    if config.scalarInitializers && !type.isAggregate then
      Traced.report (.unofficial .scalarInitializers) init.span

def locals (scope : ScopeId) (l : Syntax.LocalVariables) : Pass Semantic.Stmt := do
  let type ← reading scope (typeExpr · l.type)
  let init ← reading scope (optionalInitializer · type l.initializer)
  let s ← get
  perform (scalarHint s.config type l.initializer)
  declareAll scope (l.names.map fun name => .localVariable name type)
  return .locals ⟨scope, l.span⟩ type l.names init

mutual

def stmt (scope : ScopeId) : Syntax.Stmt → Pass Semantic.Stmt
  | .nop span => pure (.nop ⟨scope, span⟩)
  | .expr e => reading scope (expressionStmt · e)
  | .alternative span first others otherwise => do
    let first ← clause scope first
    let others ← clauses scope others
    match otherwise with
    | none => return .alternative ⟨scope, span⟩ first others none
    | some body =>
      let body ← block scope span (stmts · body)
      return .alternative ⟨scope, span⟩ first others (some body)
  | .assignment a => reading scope (assignment · a)
  | .routine span call => do
    let args ← reading scope (routineArgs · call)
    return .routine ⟨scope, span⟩ call.routine args
  | .loop span kind cond body => do
    let cond ← reading scope (condition · cond)
    let body ← block scope span (stmts · body)
    return .loop ⟨scope, span⟩ kind cond body
  | .forLoop span variant start stop step body => do
    let (variant, start, stop, step) ← reading scope (forHeader · variant start stop step)
    let body ← block scope span (stmts · body)
    return .forLoop ⟨scope, span⟩ variant start stop step body
  | .locals l => locals scope l
  | .returns r => do
    let s ← get
    reading scope (returnStmt s.context · r)
  | .switch span e cases => do
    let e ← reading scope (scrutinee · e)
    let cases ← switchCases scope e.type cases
    return .switch ⟨scope, span⟩ e cases
  | .directive d => do
    let d ← reading scope (directive · d)
    return .directive d

def clause (scope : ScopeId) : Syntax.Clause → Pass Semantic.Clause
  | ⟨span, cond, body⟩ => do
    let cond ← reading scope (condition · cond)
    let body ← block scope span (stmts · body)
    return ⟨⟨scope, span⟩, cond, body⟩

def clauses (scope : ScopeId) : List Syntax.Clause → Pass (List Semantic.Clause)
  | [] => pure []
  | c :: rest => do
    let c ← clause scope c
    let rest ← clauses scope rest
    return c :: rest

def switchCases (scope : ScopeId) (type : Ty) : List Syntax.Case → Pass (List Semantic.Case)
  | [] => pure []
  | ⟨span, value, body⟩ :: rest => do
    let value ← reading scope (caseValue · type rest.isEmpty span value)
    let body ← block scope span (stmts · body)
    let rest ← switchCases scope type rest
    return ⟨⟨scope, span⟩, value, body⟩ :: rest

def stmts (scope : ScopeId) : List Syntax.Stmt → Pass (List Semantic.Stmt)
  | [] => pure []
  | s :: rest => do
    let s ← stmt scope s
    let rest ← stmts scope rest
    return s :: rest

end

/-! ### Declarations -/

/-- Reports a main program that comes after another one. -/
def secondMain (mainSeen : Bool) (span : Span) : Traced Unit :=
  if mainSeen then Traced.report .secondMainProgram span else pure ()

/-- The body of a callable, in a scope that binds its parameters. -/
def body (parent : ScopeId) (span : Span) (s : Semantic.Signature) (body : List Syntax.Stmt) :
    Pass Semantic.Block :=
  block parent span fun inner => do
    declareAll inner (s.parameters.map fun p => .parameter p.name p.type p.mode)
    within (.callable s.returnType) (stmts inner body)

def decl (scope : ScopeId) : Syntax.Decl → Pass Semantic.Decl
  | .constant c => do
    let (type, init) ← reading scope (constantValue · c)
    declare scope (.constant c.name type (init.value.storedAs type))
    return .constant ⟨scope, c.span⟩ type c.name init
  | .typeAlias a => do
    let target ← reading scope (typeExpr · a.target)
    declare scope (.typeAlias a.name target)
    return .typeAlias ⟨scope, a.span⟩ a.name target
  | .main span body => do
    let s ← get
    perform (secondMain s.mainSeen span)
    let body ← within .main (block scope span (stmts · body))
    modify fun s => { s with mainSeen := true }
    return .main ⟨scope, span⟩ body
  | .forward s => do
    let signature ← reading scope (signature · s)
    bindAt s.span (·.declareCallable scope signature.callable)
    return .forward ⟨scope, s.span⟩ signature
  | .definition span s stmts => do
    let signature ← reading scope (signature · s)
    bindAt s.span (·.defineCallable scope signature.callable)
    let body ← body scope span signature stmts
    return .definition ⟨scope, span⟩ signature body
  | .directive d => do
    let d ← reading scope (directive · d)
    return .directive d

def decls (scope : ScopeId) : List Syntax.Decl → Pass (List Semantic.Decl)
  | [] => pure []
  | d :: rest => do
    let d ← decl scope d
    let rest ← decls scope rest
    return d :: rest

def algorithm (a : Syntax.Algorithm) : Pass Semantic.Algorithm := do
  let leading ← reading ScopeTable.root (directives · a.leading)
  let decls ← decls ScopeTable.root a.decls
  reading ScopeTable.root fun env => undefinedCallables (env.table.undefinedCallables env.scope)
  return ⟨⟨ScopeTable.root, a.span⟩, leading, decls⟩

/-- What a session leaves behind. -/
structure Outcome where
  tree : Semantic.Algorithm
  scopes : ScopeTable
  types : InferredTypes
  sink : Sink

/-- The outcome of the session that analyses an algorithm. -/
def run (config : Config) (source : Option String) (a : Syntax.Algorithm) : Outcome :=
  let (tree, s) := (algorithm a).run (start config source)
  { tree
    scopes := s.scopes
    types := ⟨s.types.toList⟩
    sink := s.sink }

end Session

end Pseudocode
