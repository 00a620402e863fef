import Pseudocode.Semantic.Statement

/-!
# The parts of an analysed tree

The values and types of an analysed tree stand in three sorts of places: at expressions, at braced
initializers, and where the program spells out a type. `parts` lists them all, from outside in and
in the order of the program.
-/

namespace Pseudocode.Semantic

inductive Part where
  | expr (e : Expr)
  /-- The value that the items of a braced initializer make. -/
  | aggregate (value : Value) (items : List Item)
  /-- What a type expression stands for. -/
  | type (type : Ty)

def Part.value? : Part → Option Value
  | .expr e => some e.value
  | .aggregate value _ => some value
  | .type _ => none

def Part.type? : Part → Option Ty
  | .type t => some t
  | _ => none

/-! ### Expressions and initializers -/

mutual

def Expr.parts : Expr → List Part
  | ⟨site, value, kind⟩ => .expr ⟨site, value, kind⟩ :: kind.parts

def ExprKind.parts : ExprKind → List Part
  | .literal _ | .name _ => []
  | .paren e | .unary _ e | .endOfFile e | .component e _ => e.parts
  | .binary _ a b | .subscript a b => a.parts ++ b.parts
  | .call _ args => argumentParts args
  | .cast target e => .type target :: e.parts

def argumentParts : List Argument → List Part
  | [] => []
  | ⟨_, _, e⟩ :: rest => e.parts ++ argumentParts rest

end

def optionalParts (e : Option Expr) : List Part := e.toList.flatMap Expr.parts

def Directive.parts : Directive → List Part
  | .assertion _ condition message => condition.parts ++ optionalParts message
  | .showValue _ e => e.parts
  | .showType _ type => [.type type]

def Designator.parts : Designator → List Part
  | .index _ e => e.parts
  | .component _ _ => []

mutual

def Initializer.parts : Initializer → List Part
  | .expr e => e.parts
  | .braced _ value items => .aggregate value items :: itemParts items

def itemParts : List Item → List Part
  | [] => []
  | .directive d :: rest => d.parts ++ itemParts rest
  | .value ⟨_, designators, init⟩ :: rest =>
    designators.flatMap Designator.parts ++ init.parts ++ itemParts rest

end

/-! ### Sources -/

mutual

/-- The expressions that an initializer takes its values from. -/
def Initializer.sources : Initializer → List Expr
  | .expr e => [e]
  | .braced _ _ items => itemSources items

def itemSources : List Item → List Expr
  | [] => []
  | .directive _ :: rest => itemSources rest
  | .value ⟨_, _, init⟩ :: rest => init.sources ++ itemSources rest

end

mutual

theorem Initializer.mem_parts_of_mem_sources {e : Expr} :
    ∀ init : Initializer, e ∈ init.sources → .expr e ∈ init.parts
  | .expr ⟨site, value, kind⟩, h => by
    rw [Initializer.sources, List.mem_singleton] at h
    rw [h, Initializer.parts, Expr.parts]
    exact List.mem_cons_self
  | .braced _ _ items, h => List.mem_cons_of_mem _ (mem_itemParts_of_mem_itemSources items h)

theorem mem_itemParts_of_mem_itemSources {e : Expr} :
    ∀ items : List Item, e ∈ itemSources items → .expr e ∈ itemParts items
  | [], h => absurd h List.not_mem_nil
  | .directive _ :: rest, h =>
    List.mem_append_right _ (mem_itemParts_of_mem_itemSources rest h)
  | .value ⟨_, _, init⟩ :: rest, h => by
    rw [itemParts]
    obtain h | h := List.mem_append.mp h
    · have hinit := Initializer.mem_parts_of_mem_sources init h
      exact List.mem_append_left _ (List.mem_append_right _ hinit)
    · exact List.mem_append_right _ (mem_itemParts_of_mem_itemSources rest h)

end

/-! ### Statements and declarations -/

mutual

def Block.parts : Block → List Part
  | ⟨_, stmts⟩ => stmtParts stmts

def Stmt.parts : Stmt → List Part
  | .nop _ => []
  | .expr e => e.parts
  | .alternative _ first others none => first.parts ++ clauseParts others
  | .alternative _ first others (some body) => first.parts ++ clauseParts others ++ body.parts
  | .assignment _ target e => target.parts ++ e.parts
  | .routine _ _ args => args.flatMap Expr.parts
  | .loop _ _ condition body => condition.parts ++ body.parts
  | .forLoop _ variant start stop step body =>
    variant.parts ++ start.parts ++ stop.parts ++ optionalParts step ++ body.parts
  | .locals _ type _ init => .type type :: init.toList.flatMap Initializer.parts
  | .returns _ e => optionalParts e
  | .switch _ scrutinee cases => scrutinee.parts ++ caseParts cases
  | .directive d => d.parts

def Clause.parts : Clause → List Part
  | ⟨_, condition, body⟩ => condition.parts ++ body.parts

def clauseParts : List Clause → List Part
  | [] => []
  | c :: rest => c.parts ++ clauseParts rest

def caseParts : List Case → List Part
  | [] => []
  | ⟨_, value, body⟩ :: rest => optionalParts value ++ body.parts ++ caseParts rest

def stmtParts : List Stmt → List Part
  | [] => []
  | s :: rest => s.parts ++ stmtParts rest

end

def Signature.parts (s : Signature) : List Part :=
  s.parameters.map (fun p => .type p.type) ++ [.type s.returnType]

def Decl.parts : Decl → List Part
  | .constant _ type _ init => .type type :: init.parts
  | .typeAlias _ _ target => [.type target]
  | .main _ body => body.parts
  | .forward _ signature => signature.parts
  | .definition _ signature body => signature.parts ++ body.parts
  | .directive d => d.parts

def Algorithm.parts (a : Algorithm) : List Part :=
  a.leading.flatMap Directive.parts ++ a.decls.flatMap Decl.parts

/-- The values of all expressions and braced initializers of the algorithm. -/
def Algorithm.values (a : Algorithm) : List Value := a.parts.filterMap Part.value?

/-- What the type expressions of the algorithm stand for. -/
def Algorithm.types (a : Algorithm) : List Ty := a.parts.filterMap Part.type?

end Pseudocode.Semantic
