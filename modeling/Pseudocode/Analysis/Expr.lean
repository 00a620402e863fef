import Pseudocode.Analysis.Check

/-!
# Analysis of expressions and type expressions

Analysis reads the scopes and does not change them.
-/

namespace Pseudocode

open Traced (emit report)

def Syntax.Literal.value : Syntax.Literal → Value
  | .boolean b => .boolean b
  | .character c => .character c
  | .integer n => .integer n
  | .real x => .real x
  | .string s => .string s

namespace Analysis

/-- Records the type of the node `id`, whose analysis is finished. -/
def finish (env : Env) (id : Syntax.NodeId) (span : Span) (value : Value)
    (kind : Semantic.ExprKind) : Traced Semantic.Expr := do
  emit (.typed id value.type)
  return ⟨env.site span, value, kind⟩

/-- The array type of the given lengths, outermost first. -/
def arrayOf (item : Ty) (lengths : List Nat) : Ty := lengths.foldr (fun n t => .array t n) item

mutual

def expr (env : Env) : Syntax.Expr → Traced Semantic.Expr
  | ⟨id, span, .literal literal⟩ => finish env id span literal.value (.literal literal)
  | ⟨id, span, .paren inner⟩ => do
    let inner ← expr env inner
    finish env id span inner.value (.paren inner)
  | ⟨id, span, .binary op left right⟩ => do
    let left ← expr env left
    let right ← expr env right
    let value ← Check.binary op.item left right span
    finish env id span value (.binary op left right)
  | ⟨id, span, .unary op operand⟩ => do
    let operand ← expr env operand
    let value ← Check.unary op.item operand span
    finish env id span value (.unary op operand)
  | ⟨id, span, .call callee args⟩ => do
    let args ← arguments env args
    let value ← Check.call env callee args span
    finish env id span value (.call callee args)
  | ⟨id, span, .endOfFile file⟩ => do
    let file ← expr env file
    let _ ← Check.convertible file .file
    finish env id span (.runtime .boolean) (.endOfFile file)
  | ⟨id, span, .cast target value⟩ => do
    let target ← typeExpr env target
    let value ← expr env value
    let result ← Check.cast value target span
    finish env id span result (.cast target value)
  | ⟨id, _, .lvalue value⟩ => do
    let value ← lvalue env value
    emit (.typed id value.type)
    return value

def lvalue (env : Env) : Syntax.Lvalue → Traced Semantic.Expr
  | ⟨id, span, .name name⟩ => do
    let value ← Check.name env name
    finish env id span value (.name name)
  | ⟨id, span, .subscript array index⟩ => do
    let array ← expr env array
    let index ← expr env index
    let value ← Check.subscript array index span
    finish env id span value (.subscript array index)
  | ⟨id, span, .component base name⟩ => do
    let base ← expr env base
    let value ← Check.component base name span
    finish env id span value (.component base name)

def arguments (env : Env) : List Syntax.Argument → Traced (List Semantic.Argument)
  | [] => pure []
  | ⟨span, mode, value⟩ :: rest => do
    let value ← expr env value
    let rest ← arguments env rest
    return ⟨env.site span, mode, value⟩ :: rest

def typeExpr (env : Env) : Syntax.TypeExpr → Traced Ty
  | ⟨_, .boolean⟩ => pure .boolean
  | ⟨_, .character⟩ => pure .character
  | ⟨_, .integer⟩ => pure .integer
  | ⟨_, .real⟩ => pure .real
  | ⟨_, .file⟩ => pure .file
  | ⟨_, .string⟩ => pure .string
  | ⟨span, .boundedString length⟩ => do
    let length ← expr env length
    match ← Check.length length with
    | some n => return .boundedString n
    | none => return .unknown span
  | ⟨span, .named name⟩ => do
    match env.table.lookupAlias env.scope name.text with
    | .ok target => return .aliased name.text target
    | .error error =>
      report (.unresolved error) name.span
      return .unknown span
  | ⟨span, .array item lengths⟩ => do
    let item ← typeExpr env item
    match ← arrayLengths env lengths with
    | some lengths => return arrayOf item lengths
    | none => return .unknown span
  | ⟨_, .struct components⟩ => do
    let components ← structComponents env [] components
    return .struct components

/-- The lengths of an array type, if all are known. -/
def arrayLengths (env : Env) : List Syntax.Expr → Traced (Option (List Nat))
  | [] => pure (some [])
  | e :: rest => do
    let e ← expr env e
    let n ← Check.length e
    let ns ← arrayLengths env rest
    match n, ns with
    | some n, some ns => return some (n :: ns)
    | _, _ => return none

/-- Adds the declared components to those of a structure. -/
def structComponents (env : Env) (components : List (String × Ty)) :
    List Syntax.ComponentDecl → Traced (List (String × Ty))
  | [] => pure components
  | ⟨_, names, type⟩ :: rest => do
    let type ← typeExpr env type
    let components ← Check.addComponents type names components
    structComponents env components rest

end

theorem result_lvalue (env : Env) (id : Syntax.NodeId) (span : Span) (l : Syntax.Lvalue) :
    (expr env ⟨id, span, .lvalue l⟩).result = (lvalue env l).result := by
  rw [expr]
  rfl

/-- Analyses expressions one after the other. -/
def exprs (env : Env) : List Syntax.Expr → Traced (List Semantic.Expr)
  | [] => pure []
  | e :: rest => do
    let e ← expr env e
    let rest ← exprs env rest
    return e :: rest

end Analysis

end Pseudocode
