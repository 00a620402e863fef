import Pseudocode.Semantic.Expr

/-!
# Analysed statements, declarations and algorithms
-/

namespace Pseudocode.Semantic

mutual

/-- Statements with a scope of their own. -/
structure Block where
  site : Site
  stmts : List Stmt

inductive Stmt where
  | nop (site : Site)
  | expr (value : Expr)
  | alternative (site : Site) (first : Clause) (others : List Clause) (otherwise : Option Block)
  | assignment (site : Site) (target value : Expr)
  | routine (site : Site) (routine : Routine) (args : List Expr)
  | loop (site : Site) (kind : LoopKind) (condition : Expr) (body : Block)
  | forLoop (site : Site) (variant start stop : Expr) (step : Option Expr) (body : Block)
  | locals (site : Site) (type : Ty) (names : List Ident) (initializer : Option Initializer)
  | returns (site : Site) (value : Option Expr)
  | switch (site : Site) (scrutinee : Expr) (cases : List Case)
  | directive (directive : Directive)

structure Clause where
  site : Site
  condition : Expr
  body : Block

structure Case where
  site : Site
  value : Option Expr
  body : Block

end

structure FormalParameter where
  site : Site
  mode : Mode
  name : Ident
  type : Ty

structure Signature where
  site : Site
  kind : CallableKind
  name : Ident
  parameters : List FormalParameter
  returnType : Ty

inductive Decl where
  | constant (site : Site) (type : Ty) (name : Ident) (initializer : Initializer)
  | typeAlias (site : Site) (name : Ident) (target : Ty)
  | main (site : Site) (body : Block)
  | forward (site : Site) (signature : Signature)
  | definition (site : Site) (signature : Signature) (body : Block)
  | directive (directive : Directive)

structure Algorithm where
  site : Site
  leading : List Directive
  decls : List Decl

/-- The callable that a signature describes, before it is bound. -/
def Signature.callable (s : Signature) : Callable :=
  { name := s.name
    span := s.site.span
    kind := s.kind
    parameters := s.parameters.map fun p => ⟨p.name, p.mode, p.type⟩
    returnType := s.returnType
    state := .notDeclared }

end Pseudocode.Semantic
