import Pseudocode.Syntax.Initializer

/-!
# Statements, declarations and whole algorithms
-/

namespace Pseudocode.Syntax

/-- A call of a routine of the standard library, with the operands that routine takes. -/
inductive RoutineCall where
  | assign (file : Lvalue) (name : Expr)
  | write (file value : Expr)
  | print (values : List Expr)
  | close (file : Expr)
  | read (file : Expr) (target : Lvalue)
  | readKey (target : Lvalue)
  | openAppend (file : Expr)
  | openWrite (file : Expr)
  | openRead (file : Expr)

def RoutineCall.routine : RoutineCall → Routine
  | .assign .. => .assign
  | .write .. => .write
  | .print .. => .print
  | .close .. => .close
  | .read .. => .read
  | .readKey .. => .readKey
  | .openAppend .. => .openAppend
  | .openWrite .. => .openWrite
  | .openRead .. => .openRead

structure Assignment where
  span : Span
  target : Lvalue
  value : Expr

structure LocalVariables where
  span : Span
  type : TypeExpr
  names : List Ident
  initializer : Option Initializer

structure Return where
  span : Span
  value : Option Expr

mutual

inductive Stmt where
  | nop (span : Span)
  | expr (value : Expr)
  | alternative (span : Span) (first : Clause) (others : List Clause)
      (otherwise : Option (List Stmt))
  | assignment (assignment : Assignment)
  | routine (span : Span) (call : RoutineCall)
  | loop (span : Span) (kind : LoopKind) (condition : Expr) (body : List Stmt)
  | forLoop (span : Span) (variant : Lvalue) (start stop : Expr) (step : Option Expr)
      (body : List Stmt)
  | locals (locals : LocalVariables)
  | returns (value : Return)
  | switch (span : Span) (scrutinee : Expr) (cases : List Case)
  | directive (directive : Directive)

/-- A condition and the statements that run if it holds. -/
structure Clause where
  span : Span
  condition : Expr
  body : List Stmt

/-- A branch of a switch. Without a value it is a default branch. -/
structure Case where
  span : Span
  value : Option Expr
  body : List Stmt

end

def Stmt.span : Stmt → Span
  | .nop span => span
  | .expr e => e.span
  | .alternative span .. => span
  | .assignment a => a.span
  | .routine span _ => span
  | .loop span .. => span
  | .forLoop span .. => span
  | .locals l => l.span
  | .returns r => r.span
  | .switch span .. => span
  | .directive d => d.span

structure FormalParameter where
  span : Span
  mode : Mode
  name : Ident
  type : TypeExpr

structure Signature where
  span : Span
  kind : CallableKind
  name : Ident
  parameters : List FormalParameter
  returnType : Option TypeExpr

structure ConstantDecl where
  span : Span
  type : TypeExpr
  name : Ident
  value : Initializer

structure AliasDecl where
  span : Span
  name : Ident
  target : TypeExpr

inductive Decl where
  | constant (decl : ConstantDecl)
  | typeAlias (decl : AliasDecl)
  | main (span : Span) (body : List Stmt)
  /-- Announces a callable that is defined elsewhere. -/
  | forward (signature : Signature)
  | definition (span : Span) (signature : Signature) (body : List Stmt)
  | directive (directive : Directive)

def Decl.span : Decl → Span
  | .constant d => d.span
  | .typeAlias d => d.span
  | .main span _ => span
  | .forward s => s.span
  | .definition span _ _ => span
  | .directive d => d.span

/-- A whole program. -/
structure Algorithm where
  span : Span
  leading : List Directive
  decls : List Decl

end Pseudocode.Syntax
