import Pseudocode.Analysis.Expr
import Pseudocode.Path.Basic
import Pseudocode.Syntax.Initializer

/-!
# Analysis of directives and initializers

A braced initializer starts from the initial value of its target and writes its items into it one by
one. A path keeps the position of the last item that had one: an item without designators takes the
position after it.
-/

namespace Pseudocode.Analysis

open Traced (emit report)

/-! ### Directives -/

/-- Reports an assertion that does not hold. -/
def assertion (condition : Semantic.Expr) (message : Option Semantic.Expr) (span : Span) :
    Traced Unit :=
  match condition.value.boolean? with
  | some true => pure ()
  | some false => report (.assertionFailed (message.bind (·.value.string?))) span
  | none => Check.notConstant condition.value condition.span

/-- Analyses the message of an assertion. -/
def assertionMessage (env : Env) : Option Syntax.Expr → Traced (Option Semantic.Expr)
  | none => pure none
  | some message => do
    let message ← expr env message
    let _ ← Check.convertible message .string
    return some message

def directive (env : Env) (d : Syntax.Directive) : Traced Semantic.Directive := do
  report (.unofficial .directives) d.span
  match d.kind with
  | .assertion condition message =>
    let condition ← expr env condition
    let isBoolean ← Check.convertible condition .boolean
    let message ← assertionMessage env message
    if isBoolean then
      assertion condition message d.span
    return .assertion (env.site d.span) condition message
  | .showValue e =>
    let e ← expr env e
    report (.shownValue e.value) d.span
    return .showValue (env.site d.span) e
  | .showType type =>
    let type ← typeExpr env type
    report (.shownType type) d.span
    return .showType (env.site d.span) type

def directives (env : Env) : List Syntax.Directive → Traced (List Semantic.Directive)
  | [] => pure []
  | d :: rest => do
    let d ← directive env d
    let rest ← directives env rest
    return d :: rest

/-! ### Designators -/

def designator (env : Env) (d : Syntax.Designator) : Traced Semantic.Designator := do
  match d.kind with
  | .index e =>
    let e ← expr env e
    return .index (env.site d.span) e
  | .component name => return .component (env.site d.span) name

def designators (env : Env) : List Syntax.Designator → Traced (List Semantic.Designator)
  | [] => pure []
  | d :: rest => do
    let d ← designator env d
    let rest ← designators env rest
    return d :: rest

/-- Reports why a designator at `span` selects nothing in `aggregate`. -/
def designatorError (aggregate : Ty) (span : Span) : DesignatorError → Traced Unit
  | .indexOutOfBounds index length => report (.indexOutOfBounds index length) span
  | .noSuchComponent | .wrongAggregate => report (.unsupportedDesignator aggregate) span

/-- The slot of `aggregate` that an analysed designator selects, and its type. -/
def select (aggregate : Ty) : Semantic.Designator → Traced (Option (Step × Ty))
  | .index site e => do
    if aggregate.isUnknown then
      return none
    else if !e.type.convertible .integer then
      report (.nonIntegerIndex e.type) e.span
      return none
    else
      match e.value.integer? with
      | none =>
        Check.notConstant e.value e.span
        return none
      | some n =>
        match aggregate.indexStep n with
        | .ok slot => return some slot
        | .error error =>
          designatorError aggregate site.span error
          return none
  | .component site name => do
    if aggregate.isUnknown then
      return none
    else
      match aggregate.componentStep name.text with
      | .ok slot => return some slot
      | .error .noSuchComponent =>
        report (.missingComponent none name.text) name.span
        return none
      | .error error =>
        designatorError aggregate site.span error
        return none

/-- Follows designators from the place that `steps` lead to, which has the given type. Once one of
them selects nothing, the others are analysed and not followed. -/
def follow (env : Env) : Option (List Step × Ty) → List Syntax.Designator →
    Traced (List Semantic.Designator × Option (List Step × Ty))
  | place, [] => pure ([], place)
  | none, designators => do
    let nodes ← Analysis.designators env designators
    return (nodes, none)
  | some (steps, type), d :: rest => do
    let node ← designator env d
    let slot ← select type node
    let (nodes, place) ← follow env (slot.map fun (step, type) => (steps ++ [step], type)) rest
    return (node :: nodes, place)

/-- The position of an item: the one its designators lead to, or else the one after `cursor`. -/
def position (env : Env) (target : Ty) (cursor : Option Path) (span : Span)
    (designators : List Syntax.Designator) :
    Traced (List Semantic.Designator × Option Path) := do
  if designators.isEmpty then
    let next :=
      match cursor with
      | none => Path.start? target
      | some path => path.advance? target
    if next.isNone then
      report .excessItem span
    return ([], next)
  else
    let (nodes, place) ← follow env (some ([], target)) designators
    return (nodes, place.bind fun (steps, leaf) => Path.ofSteps? steps leaf)

/-! ### Initializers -/

/-- The type that an item at the given position is for. -/
def itemType (position : Option Path) (span : Span) : Ty :=
  match position with
  | some path => path.type
  | none => .unknown span

/-- The aggregate with the item at the given position written into it. -/
def place (aggregate : Value) (position : Option Path) (item : Value) : Value :=
  match position with
  | some path => path.set aggregate (item.storedAs path.type)
  | none => aggregate

mutual

def initializer (env : Env) (target : Ty) : Syntax.Initializer → Traced Semantic.Initializer
  | .expr e => do
    let e ← expr env e
    Check.assignable e target
    return .expr e
  | .braced ⟨span, items⟩ => do
    if target.isAggregate then
      let (value, items) ← placedItems env target target.initial none items
      return .braced (env.site span) value items
    else
      unless target.isUnknown do
        report (.unsupportedInitializer target) span
      let items ← freeItems env items
      return .braced (env.site span) (.invalid target) items

/-- Analyses items in order and writes them into the aggregate. -/
def placedItems (env : Env) (target : Ty) (aggregate : Value) (cursor : Option Path) :
    List Syntax.Item → Traced (Value × List Semantic.Item)
  | [] => pure (aggregate, [])
  | .directive d :: rest => do
    let d ← directive env d
    let (aggregate, items) ← placedItems env target aggregate cursor rest
    return (aggregate, .directive d :: items)
  | .value ⟨span, designators, value⟩ :: rest => do
    let (designators, path) ← position env target cursor span designators
    let value ← initializer env (itemType path span) value
    let (aggregate, items) ←
      placedItems env target (place aggregate path value.value) (path.or cursor) rest
    return (aggregate, .value ⟨env.site span, designators, value⟩ :: items)

/-- Analyses the items of an initializer whose target has no shape to fill. -/
def freeItems (env : Env) : List Syntax.Item → Traced (List Semantic.Item)
  | [] => pure []
  | .directive d :: rest => do
    let d ← directive env d
    let items ← freeItems env rest
    return .directive d :: items
  | .value ⟨span, designators, value⟩ :: rest => do
    let designators ← Analysis.designators env designators
    let value ← initializer env (.unknown span) value
    let items ← freeItems env rest
    return .value ⟨env.site span, designators, value⟩ :: items

end

end Pseudocode.Analysis
