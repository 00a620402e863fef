import Pseudocode.Analysis.Statement
import Pseudocode.Diagnostic.Config

/-!
# Analysis of algorithms
-/

namespace Pseudocode

namespace Analysis

open Traced (report)
open Analyzer (reading declare declareAll bindAt block openScope)

def parameters (env : Env) : List Syntax.FormalParameter → Traced (List Semantic.FormalParameter)
  | [] => pure []
  | p :: rest => do
    let type ← typeExpr env p.type
    let rest ← parameters env rest
    return ⟨env.site p.span, p.mode, p.name, type⟩ :: rest

/-- The return type of a callable. Without one it returns nothing. -/
def returnType (env : Env) : Option Syntax.TypeExpr → Traced Ty
  | some type => typeExpr env type
  | none => pure .void

def signature (env : Env) (s : Syntax.Signature) : Traced Semantic.Signature := do
  let parameters ← parameters env s.parameters
  let returnType ← returnType env s.returnType
  return ⟨env.site s.span, s.kind, s.name, parameters, returnType⟩

/-- Analyses the type and the value of a constant. -/
def constantValue (env : Env) (c : Syntax.ConstantDecl) : Traced (Ty × Semantic.Initializer) := do
  let type ← typeExpr env c.type
  let init ← initializer env type c.value
  Check.constant init.value c.value.span
  return (type, init)

/-- Analyses a declaration. Whether a main program has come before is `mainSeen`. -/
def decl (mainSeen : Bool) (scope : ScopeId) : Syntax.Decl → Analyzer Semantic.Decl
  | .constant c => do
    let (type, init) ← reading scope (constantValue · c)
    declare scope (.constant c.name type (init.value.storedAs type))
    return .constant ⟨scope, c.span⟩ type c.name init
  | .typeAlias a => do
    let target ← reading scope (typeExpr · a.target)
    declare scope (.typeAlias a.name target)
    return .typeAlias ⟨scope, a.span⟩ a.name target
  | .main span body => do
    if mainSeen then
      report .secondMainProgram span
    let body ← block scope span (stmts .main · body)
    return .main ⟨scope, span⟩ body
  | .forward s => do
    let signature ← reading scope (signature · s)
    bindAt s.span (·.declareCallable scope signature.callable)
    return .forward ⟨scope, s.span⟩ signature
  | .definition span s body => do
    let signature ← reading scope (signature · s)
    bindAt s.span (·.defineCallable scope signature.callable)
    let body ← block scope span fun inner => do
      declareAll inner (signature.parameters.map fun p => .parameter p.name p.type p.mode)
      stmts (.callable signature.returnType) inner body
    return .definition ⟨scope, span⟩ signature body
  | .directive d => do
    let d ← reading scope (directive · d)
    return .directive d

def isMain : Syntax.Decl → Bool
  | .main .. => true
  | _ => false

def decls (mainSeen : Bool) (scope : ScopeId) :
    List Syntax.Decl → Analyzer (List Semantic.Decl)
  | [] => pure []
  | d :: rest => do
    let first ← decl mainSeen scope d
    let rest ← decls (mainSeen || isMain d) scope rest
    return first :: rest

/-- Reports callables that were announced and never defined. -/
def undefinedCallables : List Callable → Traced Unit
  | [] => pure ()
  | c :: rest => do
    report (.undefinedCallable c.kind c.name.text) c.span
    undefinedCallables rest

def algorithm (a : Syntax.Algorithm) : Analyzer Semantic.Algorithm := do
  let leading ← reading ScopeTable.root (directives · a.leading)
  let decls ← decls false ScopeTable.root a.decls
  reading ScopeTable.root fun env => undefinedCallables (env.table.undefinedCallables env.scope)
  return ⟨⟨ScopeTable.root, a.span⟩, leading, decls⟩

end Analysis

/-- All that an analysis finds out about an algorithm. -/
structure Analysis where
  tree : Semantic.Algorithm
  scopes : ScopeTable
  types : InferredTypes
  /-- Findings in the order in which they were made. -/
  findings : List Finding

def analyze (a : Syntax.Algorithm) : Analysis :=
  let run := (Analysis.algorithm a).run .initial
  { tree := run.result.1
    scopes := run.result.2
    types := ⟨Event.types run.events⟩
    findings := Event.findings [] run.events }

/-- The diagnostics of an analysis, as a configuration wants them, and their counts. -/
def Analysis.report (a : Analysis) (config : Config) (source : Option String) : Sink :=
  config.deliver source a.findings

end Pseudocode
