import Pseudocode.Syntax.Statement

/-!
# Repeated component names

A structure type may list a name more than once. `repeats` lists all the names of a program that
stand behind the same name in the same structure type, in the order in which an analysis comes to
them: the types of components before their names, and what is inside a type before what follows it.
-/

namespace Pseudocode.Syntax

/-- The names that have been listed before, be it in `before` or in front of them. -/
def repeatedNames (before : List String) : List Ident → List Ident
  | [] => []
  | name :: rest =>
    (if name.text ∈ before then [name] else []) ++ repeatedNames (before ++ [name.text]) rest

/-! ### Expressions and types -/

mutual

def Expr.repeats : Expr → List Ident
  | ⟨_, _, .literal _⟩ => []
  | ⟨_, _, .paren e⟩ | ⟨_, _, .unary _ e⟩ | ⟨_, _, .endOfFile e⟩ => e.repeats
  | ⟨_, _, .binary _ left right⟩ => left.repeats ++ right.repeats
  | ⟨_, _, .call _ args⟩ => argumentRepeats args
  | ⟨_, _, .cast target e⟩ => target.repeats ++ e.repeats
  | ⟨_, _, .lvalue l⟩ => l.repeats

def Lvalue.repeats : Lvalue → List Ident
  | ⟨_, _, .name _⟩ => []
  | ⟨_, _, .subscript array index⟩ => array.repeats ++ index.repeats
  | ⟨_, _, .component base _⟩ => base.repeats

def argumentRepeats : List Argument → List Ident
  | [] => []
  | ⟨_, _, e⟩ :: rest => e.repeats ++ argumentRepeats rest

def TypeExpr.repeats : TypeExpr → List Ident
  | ⟨_, .boolean⟩ | ⟨_, .character⟩ | ⟨_, .integer⟩ | ⟨_, .real⟩ | ⟨_, .file⟩ | ⟨_, .string⟩
  | ⟨_, .named _⟩ => []
  | ⟨_, .boundedString length⟩ => length.repeats
  | ⟨_, .array item lengths⟩ => item.repeats ++ lengthRepeats lengths
  | ⟨_, .struct components⟩ => componentRepeats [] components

def lengthRepeats : List Expr → List Ident
  | [] => []
  | e :: rest => e.repeats ++ lengthRepeats rest

/-- The repeated names of a structure that has the names `before` already, and of its types. -/
def componentRepeats (before : List String) : List ComponentDecl → List Ident
  | [] => []
  | ⟨_, names, type⟩ :: rest =>
    type.repeats ++
      (repeatedNames before names ++ componentRepeats (before ++ names.map (·.text)) rest)

end

def optionalRepeats (e : Option Expr) : List Ident := e.toList.flatMap Expr.repeats

/-! ### Directives and initializers -/

def Directive.repeats : Directive → List Ident
  | ⟨_, .assertion condition message⟩ => condition.repeats ++ optionalRepeats message
  | ⟨_, .showValue e⟩ => e.repeats
  | ⟨_, .showType type⟩ => type.repeats

def Designator.repeats : Designator → List Ident
  | ⟨_, .index e⟩ => e.repeats
  | ⟨_, .component _⟩ => []

mutual

def Initializer.repeats : Initializer → List Ident
  | .expr e => e.repeats
  | .braced ⟨_, items⟩ => itemRepeats items

def itemRepeats : List Item → List Ident
  | [] => []
  | .directive d :: rest => d.repeats ++ itemRepeats rest
  | .value ⟨_, designators, value⟩ :: rest =>
    designators.flatMap Designator.repeats ++ (value.repeats ++ itemRepeats rest)

end

/-! ### Statements -/

def RoutineCall.repeats : RoutineCall → List Ident
  | .assign file name => file.repeats ++ name.repeats
  | .write file value => file.repeats ++ value.repeats
  | .print values => values.flatMap Expr.repeats
  | .read file target => file.repeats ++ target.repeats
  | .readKey target => target.repeats
  | .close file | .openAppend file | .openWrite file | .openRead file => file.repeats

def LocalVariables.repeats (l : LocalVariables) : List Ident :=
  l.type.repeats ++ l.initializer.toList.flatMap Initializer.repeats

mutual

def Stmt.repeats : Stmt → List Ident
  | .nop _ => []
  | .expr e => e.repeats
  | .alternative _ first others none => first.repeats ++ clauseRepeats others
  | .alternative _ first others (some body) =>
    first.repeats ++ (clauseRepeats others ++ stmtRepeats body)
  | .assignment a => a.target.repeats ++ a.value.repeats
  | .routine _ call => call.repeats
  | .loop _ _ condition body => condition.repeats ++ stmtRepeats body
  | .forLoop _ variant start stop step body =>
    variant.repeats ++ (start.repeats ++ (stop.repeats ++ optionalRepeats step)) ++ stmtRepeats body
  | .locals l => l.repeats
  | .returns r => optionalRepeats r.value
  | .switch _ scrutinee cases => scrutinee.repeats ++ caseRepeats cases
  | .directive d => d.repeats

def Clause.repeats : Clause → List Ident
  | ⟨_, condition, body⟩ => condition.repeats ++ stmtRepeats body

def clauseRepeats : List Clause → List Ident
  | [] => []
  | c :: rest => c.repeats ++ clauseRepeats rest

def caseRepeats : List Case → List Ident
  | [] => []
  | ⟨_, value, body⟩ :: rest => optionalRepeats value ++ (stmtRepeats body ++ caseRepeats rest)

def stmtRepeats : List Stmt → List Ident
  | [] => []
  | s :: rest => s.repeats ++ stmtRepeats rest

end

/-! ### Declarations -/

def Signature.repeats (s : Signature) : List Ident :=
  s.parameters.flatMap (·.type.repeats) ++ s.returnType.toList.flatMap TypeExpr.repeats

def Decl.repeats : Decl → List Ident
  | .constant c => c.type.repeats ++ c.value.repeats
  | .typeAlias a => a.target.repeats
  | .main _ body => stmtRepeats body
  | .forward s => s.repeats
  | .definition _ s body => s.repeats ++ stmtRepeats body
  | .directive d => d.repeats

/-- All repeated component names of the algorithm. -/
def Algorithm.repeats (a : Algorithm) : List Ident :=
  a.leading.flatMap Directive.repeats ++ a.decls.flatMap Decl.repeats

end Pseudocode.Syntax
