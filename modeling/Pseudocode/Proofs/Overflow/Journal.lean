import Pseudocode.Analysis.Algorithm
import Pseudocode.Proofs.Analysis.Mirror
import Pseudocode.Proofs.Overflow.Nesting

/-!
# The journal of an analysis

The journal says in which order the terms of an algorithm are analysed and in which environments,
and at which points a term turns out not to be the constant that it has to be. It is read off the
syntax; what it takes from the analysis are the environments and the values.
-/

namespace Pseudocode

open Syntax

/-! ### Visits and demands -/

/-- The analysis of a term. -/
structure Visit where
  env : Env
  term : Term

namespace Visit

def value (v : Visit) : Value := (Analysis.term v.env v.term).result.value

/-- The term is an operation whose evaluation remarks on an overflow. -/
def overflows (v : Visit) : Bool :=
  let value e := Visit.value ⟨v.env, .expr e⟩
  match v.term with
  | .expr ⟨_, span, .binary op left right⟩ =>
    Remark.integerOverflow ∈ (op.item.apply (value left) (value right) span).remarks
  | .expr ⟨_, span, .unary op operand⟩ =>
    Remark.integerOverflow ∈ (op.item.apply (value operand) span).remarks
  | _ => false

/-- The analyses of the term and of all terms inside it, inner ones first. -/
def visits (v : Visit) : List Visit := v.term.terms.map (⟨v.env, ·⟩)

/-- The term is, or has inside it, an operation that overflows. -/
def hasOverflow (v : Visit) : Bool := v.visits.any overflows

end Visit

inductive Entry where
  | visit (v : Visit)
  /-- The term has to be constant, and is not. -/
  | demand (v : Visit)

namespace Entry

def visit? : Entry → Option Visit
  | .visit v => some v
  | .demand _ => none

def demand? : Entry → Option Visit
  | .visit _ => none
  | .demand v => some v

end Entry

/-- A journal entry for a term that has to be constant, if its value lacks what it has to have. -/
def Visit.demand (v : Visit) (lacks : Value → Bool) : List Entry :=
  if lacks v.value && !v.value.isInvalid then [.demand v] else []

namespace Value

def lacksDatum (v : Value) : Bool := !v.isKnown

/-- A scalar of the type may stand there, and none is known. -/
def lacksScalar {α : Type} (type : Ty) (read? : Value → Option α) (v : Value) : Bool :=
  v.type.convertible type && (read? v).isNone

def lacksInteger : Value → Bool := lacksScalar .integer integer?

def lacksBoolean : Value → Bool := lacksScalar .boolean boolean?

end Value

namespace Syntax

/-- The term that an expression is analysed as: an lvalue stands for itself. -/
def Expr.root : Expr → Term
  | ⟨_, _, .lvalue l⟩ => .lvalue l
  | e => .expr e

/-! ### Expressions and types -/

mutual

def Expr.journal (env : Env) : Expr → List Entry
  | ⟨id, span, kind⟩ => kind.journal env ++ [.visit ⟨env, .expr ⟨id, span, kind⟩⟩]

def ExprKind.journal (env : Env) : ExprKind → List Entry
  | .literal _ => []
  | .paren inner => inner.journal env
  | .binary _ left right => left.journal env ++ right.journal env
  | .unary _ operand => operand.journal env
  | .call _ args => argumentJournal env args
  | .endOfFile file => file.journal env
  | .cast target value => target.journal env ++ value.journal env
  | .lvalue value => value.journal env

def Lvalue.journal (env : Env) : Lvalue → List Entry
  | ⟨id, span, kind⟩ => kind.journal env ++ [.visit ⟨env, .lvalue ⟨id, span, kind⟩⟩]

def LvalueKind.journal (env : Env) : LvalueKind → List Entry
  | .name _ => []
  | .subscript array index => array.journal env ++ index.journal env
  | .component base _ => base.journal env

def argumentJournal (env : Env) : List Argument → List Entry
  | [] => []
  | ⟨_, _, value⟩ :: rest => value.journal env ++ argumentJournal env rest

def TypeExpr.journal (env : Env) : TypeExpr → List Entry
  | ⟨_, kind⟩ => kind.journal env

def TypeKind.journal (env : Env) : TypeKind → List Entry
  | .boolean | .character | .integer | .real | .file | .string | .named _ => []
  | .boundedString length =>
    length.journal env ++ Visit.demand ⟨env, length.root⟩ Value.lacksInteger
  | .array item lengths => item.journal env ++ lengthJournal env lengths
  | .struct components => componentJournal env components

def lengthJournal (env : Env) : List Expr → List Entry
  | [] => []
  | length :: rest =>
    length.journal env ++
      (Visit.demand ⟨env, length.root⟩ Value.lacksInteger ++ lengthJournal env rest)

def componentJournal (env : Env) : List ComponentDecl → List Entry
  | [] => []
  | ⟨_, _, type⟩ :: rest => type.journal env ++ componentJournal env rest

end

def optionalJournal (env : Env) (e : Option Expr) : List Entry :=
  e.toList.flatMap (Expr.journal env)

/-! ### Directives and initializers -/

def Directive.journal (env : Env) : Directive → List Entry
  | ⟨_, .assertion condition message⟩ =>
    condition.journal env ++
      (optionalJournal env message ++ Visit.demand ⟨env, condition.root⟩ Value.lacksBoolean)
  | ⟨_, .showValue e⟩ => e.journal env
  | ⟨_, .showType type⟩ => type.journal env

def Designator.journal (env : Env) : Designator → List Entry
  | ⟨_, .index e⟩ => e.journal env
  | ⟨_, .component _⟩ => []

/-- The demand that a designator makes once it is followed into an aggregate. -/
def Designator.demand (env : Env) (aggregate : Ty) : Designator → List Entry
  | ⟨_, .index e⟩ =>
    if aggregate.isUnknown then [] else Visit.demand ⟨env, e.root⟩ Value.lacksInteger
  | ⟨_, .component _⟩ => []

/-- The journal of designators that are followed from a place of the given type, if from any. -/
def designatorJournal (env : Env) : Option Ty → List Designator → List Entry
  | _, [] => []
  | none, d :: rest => d.journal env ++ designatorJournal env none rest
  | some aggregate, d :: rest =>
    let slot := (Analysis.select aggregate (Analysis.designator env d).result).result
    d.journal env ++
      (d.demand env aggregate ++ designatorJournal env (slot.map (·.2)) rest)

mutual

def Initializer.journal (env : Env) (target : Ty) : Initializer → List Entry
  | .expr e => e.journal env
  | .braced ⟨_, items⟩ =>
    if target.isAggregate then placedJournal env target none items else freeJournal env items

def placedJournal (env : Env) (target : Ty) (cursor : Option Path) : List Item → List Entry
  | [] => []
  | .directive d :: rest => d.journal env ++ placedJournal env target cursor rest
  | .value ⟨span, designators, value⟩ :: rest =>
    let path := (Analysis.position env target cursor span designators).result.2
    designatorJournal env (some target) designators ++
      (value.journal env (Analysis.itemType path span) ++
        placedJournal env target (path.or cursor) rest)

def freeJournal (env : Env) : List Item → List Entry
  | [] => []
  | .directive d :: rest => d.journal env ++ freeJournal env rest
  | .value ⟨span, designators, value⟩ :: rest =>
    designatorJournal env none designators ++
      (value.journal env (.unknown span) ++ freeJournal env rest)

end

/-! ### Statements -/

def RoutineCall.journal (env : Env) : RoutineCall → List Entry
  | .assign file name => file.journal env ++ name.journal env
  | .write file value => file.journal env ++ value.journal env
  | .print values => values.flatMap (Expr.journal env)
  | .read file target => file.journal env ++ target.journal env
  | .readKey target => target.journal env
  | .close file | .openAppend file | .openWrite file | .openRead file => file.journal env

def LocalVariables.journal (env : Env) (l : LocalVariables) : List Entry :=
  l.type.journal env ++
    l.initializer.toList.flatMap (Initializer.journal env (Analysis.typeExpr env l.type).result)

/-- The value of a branch has to be known. -/
def caseValueJournal (env : Env) : Option Expr → List Entry
  | none => []
  | some e => e.journal env ++ Visit.demand ⟨env, e.root⟩ Value.lacksDatum

mutual

/-- The journal of a statement that is analysed when the scopes are those of the table. A block is
analysed in a scope that is opened for it. -/
def Stmt.journal (ctx : ReturnContext) (scope : ScopeId) : Stmt → ScopeTable → List Entry
  | .nop _, _ => []
  | .expr e, t => e.journal ⟨t, scope⟩
  | .alternative _ first others none, t =>
    first.journal ctx scope t ++
      clauseJournal ctx scope others (Analysis.clause ctx scope first t).result.2
  | .alternative _ first others (some body), t =>
    let afterFirst := (Analysis.clause ctx scope first t).result.2
    let afterAll := (Analysis.clauses ctx scope others afterFirst).result.2
    first.journal ctx scope t ++
      (clauseJournal ctx scope others afterFirst ++
        stmtJournal ctx (afterAll.push scope).1 body (afterAll.push scope).2)
  | .assignment a, t => a.target.journal ⟨t, scope⟩ ++ a.value.journal ⟨t, scope⟩
  | .routine _ call, t => call.journal ⟨t, scope⟩
  | .loop _ _ condition body, t =>
    condition.journal ⟨t, scope⟩ ++ stmtJournal ctx (t.push scope).1 body (t.push scope).2
  | .forLoop _ variant start stop step body, t =>
    variant.journal ⟨t, scope⟩ ++ (start.journal ⟨t, scope⟩ ++ (stop.journal ⟨t, scope⟩ ++
      (optionalJournal ⟨t, scope⟩ step ++
        stmtJournal ctx (t.push scope).1 body (t.push scope).2)))
  | .locals l, t => l.journal ⟨t, scope⟩
  | .returns r, t => optionalJournal ⟨t, scope⟩ r.value
  | .switch _ scrutinee cases, t =>
    scrutinee.journal ⟨t, scope⟩ ++ caseJournal ctx scope cases t
  | .directive d, t => d.journal ⟨t, scope⟩

def Clause.journal (ctx : ReturnContext) (scope : ScopeId) : Clause → ScopeTable → List Entry
  | ⟨_, condition, body⟩, t =>
    condition.journal ⟨t, scope⟩ ++ stmtJournal ctx (t.push scope).1 body (t.push scope).2

def clauseJournal (ctx : ReturnContext) (scope : ScopeId) :
    List Clause → ScopeTable → List Entry
  | [], _ => []
  | c :: rest, t =>
    c.journal ctx scope t ++
      clauseJournal ctx scope rest (Analysis.clause ctx scope c t).result.2

def caseJournal (ctx : ReturnContext) (scope : ScopeId) : List Case → ScopeTable → List Entry
  | [], _ => []
  | ⟨_, value, body⟩ :: rest, t =>
    let opened := t.push scope
    caseValueJournal ⟨t, scope⟩ value ++ (stmtJournal ctx opened.1 body opened.2 ++
      caseJournal ctx scope rest (Analysis.stmts ctx opened.1 body opened.2).result.2)

def stmtJournal (ctx : ReturnContext) (scope : ScopeId) : List Stmt → ScopeTable → List Entry
  | [], _ => []
  | s :: rest, t =>
    s.journal ctx scope t ++ stmtJournal ctx scope rest (Analysis.stmt ctx scope s t).result.2

end

/-! ### Declarations -/

def Signature.journal (env : Env) (s : Signature) : List Entry :=
  s.parameters.flatMap (·.type.journal env) ++ s.returnType.toList.flatMap (TypeExpr.journal env)

/-- An expression for a constant has to be known. A braced initializer gives a value that is known,
or erroneous. -/
def Initializer.demand (env : Env) : Initializer → List Entry
  | .expr e => Visit.demand ⟨env, .expr e⟩ Value.lacksDatum
  | .braced _ => []

def ConstantDecl.journal (env : Env) (c : ConstantDecl) : List Entry :=
  c.type.journal env ++
    (c.value.journal env (Analysis.typeExpr env c.type).result ++ c.value.demand env)

/-- The body of a callable is analysed in a scope where its parameters are bound. -/
def bodyJournal (scope : ScopeId) (s : Signature) (body : List Stmt) (t : ScopeTable) :
    List Entry :=
  let signature := (Analysis.signature ⟨t, scope⟩ s).result
  let bound := (Analyzer.bindAt s.span (·.defineCallable scope signature.callable) t).result.2
  let opened := bound.push scope
  let parameters := signature.parameters.map fun p => Symbol.parameter p.name p.type p.mode
  let inner := (Analyzer.declareAll opened.1 parameters opened.2).result.2
  stmtJournal (.callable signature.returnType) opened.1 body inner

def Decl.journal (scope : ScopeId) : Decl → ScopeTable → List Entry
  | .constant c, t => c.journal ⟨t, scope⟩
  | .typeAlias a, t => a.target.journal ⟨t, scope⟩
  | .main _ body, t => stmtJournal .main (t.push scope).1 body (t.push scope).2
  | .forward s, t => s.journal ⟨t, scope⟩
  | .definition _ s body, t => s.journal ⟨t, scope⟩ ++ bodyJournal scope s body t
  | .directive d, t => d.journal ⟨t, scope⟩

def declJournal (mainSeen : Bool) (scope : ScopeId) : List Decl → ScopeTable → List Entry
  | [], _ => []
  | d :: rest, t =>
    d.journal scope t ++ declJournal (mainSeen || Analysis.isMain d) scope rest
      (Analysis.decl mainSeen scope d t).result.2

namespace Algorithm

def journal (a : Algorithm) : List Entry :=
  a.leading.flatMap (Directive.journal ⟨.initial, ScopeTable.root⟩) ++
    declJournal false ScopeTable.root a.decls .initial

/-- The terms that have to be constant and are not, in the order in which this is found out. -/
def demands (a : Algorithm) : List Visit := a.journal.filterMap Entry.demand?

end Algorithm

end Syntax

end Pseudocode
