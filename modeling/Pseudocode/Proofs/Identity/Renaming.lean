import Pseudocode.Proofs.Analysis.Layout

/-!
# Programs with other node identities

A map on node identities, injective or not, turns a program into one with the same text. The
analysis of the one program and that of the other go side by side: the identity of a node has no
part in what becomes of it, and comes up only in the record of its type. `Renames` relates the two
analyses of a piece of syntax.
-/

namespace Pseudocode

namespace Syntax

variable (r : NodeId → NodeId)

mutual

def Expr.renamed : Expr → Expr
  | ⟨id, span, kind⟩ => ⟨r id, span, kind.renamed⟩

def ExprKind.renamed : ExprKind → ExprKind
  | .literal value => .literal value
  | .paren inner => .paren inner.renamed
  | .binary op left right => .binary op left.renamed right.renamed
  | .unary op operand => .unary op operand.renamed
  | .call callee args => .call callee (renamedArguments args)
  | .endOfFile file => .endOfFile file.renamed
  | .cast target value => .cast target.renamed value.renamed
  | .lvalue value => .lvalue value.renamed

def renamedArguments : List Argument → List Argument
  | [] => []
  | ⟨span, mode, value⟩ :: rest => ⟨span, mode, value.renamed⟩ :: renamedArguments rest

def Lvalue.renamed : Lvalue → Lvalue
  | ⟨id, span, kind⟩ => ⟨r id, span, kind.renamed⟩

def LvalueKind.renamed : LvalueKind → LvalueKind
  | .name name => .name name
  | .subscript array index => .subscript array.renamed index.renamed
  | .component base name => .component base.renamed name

def TypeExpr.renamed : TypeExpr → TypeExpr
  | ⟨span, kind⟩ => ⟨span, kind.renamed⟩

def TypeKind.renamed : TypeKind → TypeKind
  | .boolean => .boolean
  | .character => .character
  | .integer => .integer
  | .real => .real
  | .file => .file
  | .string => .string
  | .boundedString length => .boundedString length.renamed
  | .named name => .named name
  | .array item lengths => .array item.renamed (renamedExprs lengths)
  | .struct components => .struct (renamedComponents components)

def renamedExprs : List Expr → List Expr
  | [] => []
  | e :: rest => e.renamed :: renamedExprs rest

def renamedComponents : List ComponentDecl → List ComponentDecl
  | [] => []
  | ⟨span, names, type⟩ :: rest => ⟨span, names, type.renamed⟩ :: renamedComponents rest

end

def DirectiveKind.renamed : DirectiveKind → DirectiveKind
  | .assertion condition message =>
    .assertion (condition.renamed r) (message.map (Expr.renamed r))
  | .showValue e => .showValue (e.renamed r)
  | .showType type => .showType (type.renamed r)

def Directive.renamed (d : Directive) : Directive := { d with kind := d.kind.renamed r }

def DesignatorKind.renamed : DesignatorKind → DesignatorKind
  | .index e => .index (e.renamed r)
  | .component name => .component name

def Designator.renamed (d : Designator) : Designator := { d with kind := d.kind.renamed r }

mutual

def Initializer.renamed : Initializer → Initializer
  | .expr e => .expr (e.renamed r)
  | .braced ⟨span, items⟩ => .braced ⟨span, renamedItems items⟩

def renamedItems : List Item → List Item
  | [] => []
  | .directive d :: rest => .directive (d.renamed r) :: renamedItems rest
  | .value ⟨span, designators, value⟩ :: rest =>
    .value ⟨span, designators.map (Designator.renamed r), value.renamed⟩ :: renamedItems rest

end

def RoutineCall.renamed : RoutineCall → RoutineCall
  | .assign file name => .assign (file.renamed r) (name.renamed r)
  | .write file value => .write (file.renamed r) (value.renamed r)
  | .print values => .print (renamedExprs r values)
  | .close file => .close (file.renamed r)
  | .read file target => .read (file.renamed r) (target.renamed r)
  | .readKey target => .readKey (target.renamed r)
  | .openAppend file => .openAppend (file.renamed r)
  | .openWrite file => .openWrite (file.renamed r)
  | .openRead file => .openRead (file.renamed r)

def Assignment.renamed (a : Assignment) : Assignment :=
  ⟨a.span, a.target.renamed r, a.value.renamed r⟩

def LocalVariables.renamed (l : LocalVariables) : LocalVariables :=
  ⟨l.span, l.type.renamed r, l.names, l.initializer.map (Initializer.renamed r)⟩

def Return.renamed (ret : Return) : Return := ⟨ret.span, ret.value.map (Expr.renamed r)⟩

mutual

def Stmt.renamed : Stmt → Stmt
  | .nop span => .nop span
  | .expr e => .expr (e.renamed r)
  | .alternative span first others none =>
    .alternative span first.renamed (renamedClauses others) none
  | .alternative span first others (some body) =>
    .alternative span first.renamed (renamedClauses others) (some (renamedStmts body))
  | .assignment a => .assignment (a.renamed r)
  | .routine span call => .routine span (call.renamed r)
  | .loop span kind condition body =>
    .loop span kind (condition.renamed r) (renamedStmts body)
  | .forLoop span variant start stop step body =>
    .forLoop span (variant.renamed r) (start.renamed r) (stop.renamed r)
      (step.map (Expr.renamed r)) (renamedStmts body)
  | .locals l => .locals (l.renamed r)
  | .returns ret => .returns (ret.renamed r)
  | .switch span scrutinee cases => .switch span (scrutinee.renamed r) (renamedCases cases)
  | .directive d => .directive (d.renamed r)

def Clause.renamed : Clause → Clause
  | ⟨span, condition, body⟩ => ⟨span, condition.renamed r, renamedStmts body⟩

def renamedClauses : List Clause → List Clause
  | [] => []
  | c :: rest => c.renamed :: renamedClauses rest

def renamedCases : List Case → List Case
  | [] => []
  | ⟨span, value, body⟩ :: rest =>
    ⟨span, value.map (Expr.renamed r), renamedStmts body⟩ :: renamedCases rest

def renamedStmts : List Stmt → List Stmt
  | [] => []
  | s :: rest => s.renamed :: renamedStmts rest

end

def FormalParameter.renamed (p : FormalParameter) : FormalParameter :=
  { p with type := p.type.renamed r }

def Signature.renamed (s : Signature) : Signature :=
  { s with
    parameters := s.parameters.map (FormalParameter.renamed r)
    returnType := s.returnType.map (TypeExpr.renamed r) }

def ConstantDecl.renamed (c : ConstantDecl) : ConstantDecl :=
  { c with type := c.type.renamed r, value := c.value.renamed r }

def Decl.renamed : Decl → Decl
  | .constant c => .constant (c.renamed r)
  | .typeAlias a => .typeAlias { a with target := a.target.renamed r }
  | .main span body => .main span (renamedStmts r body)
  | .forward s => .forward (s.renamed r)
  | .definition span s body => .definition span (s.renamed r) (renamedStmts r body)
  | .directive d => .directive (d.renamed r)

/-- The program with another identity for each of its nodes. -/
def Algorithm.renamed (a : Algorithm) : Algorithm :=
  ⟨a.span, a.leading.map (Directive.renamed r), a.decls.map (Decl.renamed r)⟩

theorem Expr.span_renamed (e : Expr) : (e.renamed r).span = e.span := by
  obtain ⟨id, span, kind⟩ := e
  rw [renamed]

theorem Initializer.span_renamed (init : Initializer) : (init.renamed r).span = init.span := by
  cases init with
  | expr e =>
    rw [renamed]
    exact e.span_renamed r
  | braced b =>
    obtain ⟨span, items⟩ := b
    rw [renamed]
    rfl

theorem RoutineCall.routine_renamed (call : RoutineCall) :
    (call.renamed r).routine = call.routine := by
  cases call <;> rfl

theorem isEmpty_renamedCases (cases : List Case) :
    (renamedCases r cases).isEmpty = cases.isEmpty := by
  cases cases with
  | nil => rfl
  | cons c rest =>
    obtain ⟨span, value, body⟩ := c
    rw [renamedCases]
    rfl

end Syntax

/-! ### Two analyses side by side -/

/-- The event in the analysis of the renamed program. -/
def Event.renamed (r : Syntax.NodeId → Syntax.NodeId) : Event → Event
  | .found finding => .found finding
  | .notConstant span => .notConstant span
  | .overflow span => .overflow span
  | .typed id type => .typed (r id) type

namespace Traced

variable {α β : Type} {r : Syntax.NodeId → Syntax.NodeId}

/-- The analysis `y` has the result of `x`, and leaves behind what `x` does, under other
identities. -/
structure Renames (r : Syntax.NodeId → Syntax.NodeId) (x y : Traced α) : Prop where
  result : y.result = x.result
  events : y.events = x.events.map (Event.renamed r)

theorem renames_pure (a : α) : (pure a : Traced α).Renames r (pure a) := ⟨rfl, rfl⟩

theorem Renames.bind {x y : Traced α} {k l : α → Traced β} (h : x.Renames r y)
    (hk : ∀ a, (k a).Renames r (l a)) : (x >>= k).Renames r (y >>= l) := by
  constructor
  · rw [result_bind, result_bind, h.result]
    exact (hk x.result).result
  · rw [events_bind, events_bind, h.result, h.events, (hk x.result).events, List.map_append]

/-- What records no type knows of no identity. -/
theorem renames_self {x : Traced α} (h : x.Silent Event.typed?) : x.Renames r x := by
  have hevents : x.events.map (Event.renamed r) = x.events.map id := by
    refine List.map_congr_left fun e he => ?_
    cases e with
    | found | notConstant | overflow => rfl
    | typed id type =>
      have hmem : (id, type) ∈ x.pick Event.typed? := List.mem_filterMap.mpr ⟨_, he, rfl⟩
      rw [h] at hmem
      cases hmem
  exact ⟨rfl, by rw [hevents, List.map_id]⟩

/-- The rule for a check in front of an analysis. -/
theorem renames_check {x : Traced α} (hx : x.Silent Event.typed?) {k l : α → Traced β}
    (hk : ∀ a, (k a).Renames r (l a)) : (x >>= k).Renames r (x >>= l) :=
  (renames_self hx).bind hk

/-- The rule for an analysis whose result is only put in its place. -/
theorem Renames.bind_pure {x y : Traced α} (h : x.Renames r y) (f : α → β) :
    (x >>= fun a => pure (f a)).Renames r (y >>= fun a => pure (f a)) :=
  h.bind fun a => renames_pure (f a)

end Traced

namespace Analysis

open Traced Syntax

variable {r : NodeId → NodeId}

/-! ### Expressions and types -/

theorem renames_finish (env : Env) (id : NodeId) (span : Span) (value : Value)
    (kind : Semantic.ExprKind) :
    (finish env id span value kind).Renames r (finish env (r id) span value kind) := ⟨rfl, rfl⟩

mutual

theorem renames_expr (env : Env) : ∀ e : Expr, (expr env e).Renames r (expr env (e.renamed r))
  | ⟨id, span, .literal literal⟩ => by
    rw [Expr.renamed, ExprKind.renamed, expr, expr]
    exact renames_finish ..
  | ⟨id, span, .paren inner⟩ => by
    rw [Expr.renamed, ExprKind.renamed, expr, expr]
    exact (renames_expr env inner).bind fun _ => renames_finish ..
  | ⟨id, span, .binary op left right⟩ => by
    rw [Expr.renamed, ExprKind.renamed, expr, expr]
    refine (renames_expr env left).bind fun left => (renames_expr env right).bind fun right => ?_
    exact renames_check (Check.silent_binary ..) fun _ => renames_finish ..
  | ⟨id, span, .unary op operand⟩ => by
    rw [Expr.renamed, ExprKind.renamed, expr, expr]
    refine (renames_expr env operand).bind fun operand => ?_
    exact renames_check (Check.silent_unary ..) fun _ => renames_finish ..
  | ⟨id, span, .call callee args⟩ => by
    rw [Expr.renamed, ExprKind.renamed, expr, expr]
    refine (renames_arguments env args).bind fun args => ?_
    exact renames_check (Check.silent_call ..) fun _ => renames_finish ..
  | ⟨id, span, .endOfFile file⟩ => by
    rw [Expr.renamed, ExprKind.renamed, expr, expr]
    refine (renames_expr env file).bind fun file => ?_
    exact renames_check (Check.silent_convertible ..) fun _ => renames_finish ..
  | ⟨id, span, .cast target value⟩ => by
    rw [Expr.renamed, ExprKind.renamed, expr, expr]
    refine (renames_typeExpr env target).bind fun target => ?_
    refine (renames_expr env value).bind fun value => ?_
    exact renames_check (Check.silent_cast ..) fun _ => renames_finish ..
  | ⟨id, span, .lvalue value⟩ => by
    rw [Expr.renamed, ExprKind.renamed, expr, expr]
    exact (renames_lvalue env value).bind fun value => ⟨rfl, rfl⟩

theorem renames_lvalue (env : Env) : ∀ l : Lvalue,
    (lvalue env l).Renames r (lvalue env (l.renamed r))
  | ⟨id, span, .name name⟩ => by
    rw [Lvalue.renamed, LvalueKind.renamed, lvalue, lvalue]
    exact renames_check (Check.silent_name ..) fun _ => renames_finish ..
  | ⟨id, span, .subscript array index⟩ => by
    rw [Lvalue.renamed, LvalueKind.renamed, lvalue, lvalue]
    refine (renames_expr env array).bind fun array => (renames_expr env index).bind fun index => ?_
    exact renames_check (Check.silent_subscript ..) fun _ => renames_finish ..
  | ⟨id, span, .component base name⟩ => by
    rw [Lvalue.renamed, LvalueKind.renamed, lvalue, lvalue]
    refine (renames_expr env base).bind fun base => ?_
    exact renames_check (Check.silent_component ..) fun _ => renames_finish ..

theorem renames_arguments (env : Env) : ∀ args : List Argument,
    (arguments env args).Renames r (arguments env (renamedArguments r args))
  | [] => renames_pure []
  | ⟨span, mode, value⟩ :: rest => by
    rw [renamedArguments, arguments, arguments]
    refine (renames_expr env value).bind fun value => ?_
    exact (renames_arguments env rest).bind_pure _

theorem renames_typeExpr (env : Env) : ∀ type : TypeExpr,
    (typeExpr env type).Renames r (typeExpr env (type.renamed r))
  | ⟨_, .boolean⟩ | ⟨_, .character⟩ | ⟨_, .integer⟩ | ⟨_, .real⟩ | ⟨_, .file⟩ | ⟨_, .string⟩ => by
    rw [TypeExpr.renamed, TypeKind.renamed, typeExpr]
    exact renames_pure _
  | ⟨span, .named name⟩ => by
    rw [TypeExpr.renamed, TypeKind.renamed, typeExpr]
    split
    · exact renames_pure _
    · exact renames_check (typed_report ..) fun _ => renames_pure _
  | ⟨span, .boundedString length⟩ => by
    rw [TypeExpr.renamed, TypeKind.renamed, typeExpr, typeExpr]
    refine (renames_expr env length).bind fun length => ?_
    refine renames_check (Check.silent_length ..) fun n => ?_
    cases n with
    | none => exact renames_pure _
    | some n => exact renames_pure _
  | ⟨span, .array item lengths⟩ => by
    rw [TypeExpr.renamed, TypeKind.renamed, typeExpr, typeExpr]
    refine (renames_typeExpr env item).bind fun item => ?_
    refine (renames_arrayLengths env lengths).bind fun ns => ?_
    cases ns with
    | none => exact renames_pure _
    | some ns => exact renames_pure _
  | ⟨span, .struct components⟩ => by
    rw [TypeExpr.renamed, TypeKind.renamed, typeExpr, typeExpr]
    exact (renames_structComponents env [] components).bind_pure _

theorem renames_arrayLengths (env : Env) : ∀ lengths : List Expr,
    (arrayLengths env lengths).Renames r (arrayLengths env (renamedExprs r lengths))
  | [] => renames_pure _
  | e :: rest => by
    rw [renamedExprs, arrayLengths, arrayLengths]
    refine (renames_expr env e).bind fun e => ?_
    refine renames_check (Check.silent_length ..) fun n => ?_
    refine (renames_arrayLengths env rest).bind fun ns => ?_
    split
    · exact renames_pure _
    · exact renames_pure _

theorem renames_structComponents (env : Env) (components : List (String × Ty)) :
    ∀ ds : List ComponentDecl,
    (structComponents env components ds).Renames r
      (structComponents env components (renamedComponents r ds))
  | [] => renames_pure _
  | ⟨span, names, type⟩ :: rest => by
    rw [renamedComponents, structComponents, structComponents]
    refine (renames_typeExpr env type).bind fun type => ?_
    refine renames_check (Check.silent_addComponents ..) fun components => ?_
    exact renames_structComponents env components rest

end

theorem renames_exprs (env : Env) (es : List Expr) :
    (exprs env es).Renames r (exprs env (renamedExprs r es)) := by
  induction es with
  | nil => exact renames_pure []
  | cons e rest ih =>
    rw [renamedExprs, exprs, exprs]
    exact (renames_expr env e).bind fun e => ih.bind_pure _

/-! ### Directives and initializers -/

theorem renames_assertionMessage (env : Env) (message : Option Expr) :
    (assertionMessage env message).Renames r
      (assertionMessage env (message.map (Expr.renamed r))) := by
  cases message with
  | none => exact renames_pure none
  | some message =>
    refine (renames_expr env message).bind fun message => ?_
    exact renames_check (Check.silent_convertible ..) fun _ => renames_pure _

theorem renames_directive (env : Env) (d : Directive) :
    (directive env d).Renames r (directive env (d.renamed r)) := by
  obtain ⟨span, kind⟩ := d
  refine renames_check (typed_report ..) fun _ => ?_
  cases kind with
  | assertion condition message =>
    refine (renames_expr env condition).bind fun condition => ?_
    refine renames_check (Check.silent_convertible ..) fun isBoolean => ?_
    refine (renames_assertionMessage env message).bind fun message => ?_
    dsimp only
    split
    · exact renames_check (silent_assertion ..) fun _ => renames_pure _
    · exact renames_pure _
  | showValue e =>
    refine (renames_expr env e).bind fun e => ?_
    exact renames_check (typed_report ..) fun _ => renames_pure _
  | showType type =>
    refine (renames_typeExpr env type).bind fun type => ?_
    exact renames_check (typed_report ..) fun _ => renames_pure _

theorem renames_directives (env : Env) (ds : List Directive) :
    (directives env ds).Renames r (directives env (ds.map (Directive.renamed r))) := by
  induction ds with
  | nil => exact renames_pure []
  | cons d rest ih => exact (renames_directive env d).bind fun d => ih.bind_pure _

theorem renames_designator (env : Env) (d : Designator) :
    (designator env d).Renames r (designator env (d.renamed r)) := by
  obtain ⟨span, kind⟩ := d
  cases kind with
  | index e => exact (renames_expr env e).bind_pure _
  | component name => exact renames_pure _

theorem renames_designators (env : Env) (ds : List Designator) :
    (designators env ds).Renames r (designators env (ds.map (Designator.renamed r))) := by
  induction ds with
  | nil => exact renames_pure []
  | cons d rest ih => exact (renames_designator env d).bind fun d => ih.bind_pure _

theorem renames_follow (env : Env) (place : Option (List Step × Ty)) (ds : List Designator) :
    (follow env place ds).Renames r (follow env place (ds.map (Designator.renamed r))) := by
  induction ds generalizing place with
  | nil =>
    rw [List.map_nil, follow]
    exact renames_pure _
  | cons d rest ih =>
    cases place with
    | none => exact (renames_designators env (d :: rest)).bind_pure _
    | some place =>
      refine (renames_designator env d).bind fun node => ?_
      exact renames_check (silent_select ..) fun slot => (ih _).bind_pure _

theorem renames_position (env : Env) (target : Ty) (cursor : Option Path) (span : Span)
    (ds : List Designator) :
    (position env target cursor span ds).Renames r
      (position env target cursor span (ds.map (Designator.renamed r))) := by
  unfold position
  rw [List.isEmpty_map]
  split
  · refine renames_self ?_
    dsimp only
    split <;> split <;> rfl
  · exact (renames_follow env _ ds).bind_pure _

mutual

theorem renames_initializer (env : Env) (target : Ty) : ∀ init : Initializer,
    (initializer env target init).Renames r (initializer env target (init.renamed r))
  | .expr e => by
    rw [Initializer.renamed, initializer, initializer]
    refine (renames_expr env e).bind fun e => ?_
    exact renames_check (Check.silent_assignable ..) fun _ => renames_pure _
  | .braced ⟨span, items⟩ => by
    rw [Initializer.renamed, initializer, initializer]
    split
    · exact (renames_placedItems env target _ none items).bind_pure _
    · dsimp only
      split
      · exact (renames_freeItems env items).bind_pure _
      · exact renames_check (typed_report ..) fun _ => (renames_freeItems env items).bind_pure _

theorem renames_placedItems (env : Env) (target : Ty) (aggregate : Value)
    (cursor : Option Path) : ∀ items : List Item,
    (placedItems env target aggregate cursor items).Renames r
      (placedItems env target aggregate cursor (renamedItems r items))
  | [] => renames_pure _
  | .directive d :: rest => by
    rw [renamedItems, placedItems, placedItems]
    refine (renames_directive env d).bind fun d => ?_
    exact (renames_placedItems env target aggregate cursor rest).bind_pure _
  | .value ⟨span, designators, value⟩ :: rest => by
    rw [renamedItems, placedItems, placedItems]
    refine (renames_position env target cursor span designators).bind fun position => ?_
    refine (renames_initializer env _ value).bind fun value => ?_
    exact (renames_placedItems env target _ _ rest).bind_pure _

theorem renames_freeItems (env : Env) : ∀ items : List Item,
    (freeItems env items).Renames r (freeItems env (renamedItems r items))
  | [] => renames_pure _
  | .directive d :: rest => by
    rw [renamedItems, freeItems, freeItems]
    exact (renames_directive env d).bind fun d => (renames_freeItems env rest).bind_pure _
  | .value ⟨span, designators, value⟩ :: rest => by
    rw [renamedItems, freeItems, freeItems]
    refine (renames_designators env designators).bind fun designators => ?_
    refine (renames_initializer env _ value).bind fun value => ?_
    exact (renames_freeItems env rest).bind_pure _

end

end Analysis

/-! ### Analyses that change the scopes -/

namespace Analyzer

variable {α β : Type} {r : Syntax.NodeId → Syntax.NodeId}

/-- From the same scopes, the two analyses lead to the same scopes, and the second one renames the
first one. -/
def Renames (r : Syntax.NodeId → Syntax.NodeId) (m n : Analyzer α) : Prop :=
  ∀ t : ScopeTable, (m t).Renames r (n t)

theorem renames_pure (a : α) : (pure a : Analyzer α).Renames r (pure a) :=
  fun t => Traced.renames_pure (a, t)

theorem Renames.bind {m n : Analyzer α} {k l : α → Analyzer β} (h : m.Renames r n)
    (hk : ∀ a, (k a).Renames r (l a)) : (m >>= k).Renames r (n >>= l) := by
  intro t
  change (m t >>= fun p => k p.1 p.2).Renames r (n t >>= fun p => l p.1 p.2)
  exact (h t).bind fun p => hk p.1 p.2

theorem Renames.bind_pure {m n : Analyzer α} (h : m.Renames r n) (f : α → β) :
    (m >>= fun a => pure (f a)).Renames r (n >>= fun a => pure (f a)) :=
  h.bind fun a => renames_pure (f a)

theorem renames_self {m : Analyzer α} (h : m.Silent Event.typed?) : m.Renames r m :=
  fun t => Traced.renames_self (h t)

theorem renames_reading {scope : ScopeId} {f g : Env → Traced α}
    (h : ∀ env, (f env).Renames r (g env)) : (reading scope f).Renames r (reading scope g) :=
  fun t => (h ⟨t, scope⟩).bind_pure _

theorem renames_bindAt (span : Span) (operation : ScopeTable → Except DeclareError ScopeTable) :
    (bindAt span operation).Renames r (bindAt span operation) := by
  refine renames_self fun t => ?_
  unfold bindAt
  split <;> rfl

theorem renames_declareAll (scope : ScopeId) (symbols : List Symbol) :
    (declareAll scope symbols).Renames r (declareAll scope symbols) := by
  induction symbols with
  | nil => exact renames_pure ()
  | cons s rest ih => exact (renames_bindAt _ _).bind fun _ => ih

theorem renames_block (parent : ScopeId) (span : Span)
    {m n : ScopeId → Analyzer (List Semantic.Stmt)} (h : ∀ scope, (m scope).Renames r (n scope)) :
    (block parent span m).Renames r (block parent span n) := by
  refine (renames_self fun t => rfl).bind fun scope => ?_
  exact (h scope).bind_pure _

end Analyzer

namespace Analysis

open Syntax Analyzer

variable {r : NodeId → NodeId}

/-! ### Parts of statements -/

section Parts

open Traced

theorem renames_checkedExpr (env : Env) (target : Ty) (e : Expr) :
    (checkedExpr env target e).Renames r (checkedExpr env target (e.renamed r)) := by
  refine (renames_expr env e).bind fun e => ?_
  exact renames_check (Check.silent_convertible ..) fun _ => Traced.renames_pure _

theorem renames_checkedExpr? (env : Env) (target : Ty) (e : Option Expr) :
    (checkedExpr? env target e).Renames r
      (checkedExpr? env target (e.map (Expr.renamed r))) := by
  cases e with
  | none => exact Traced.renames_pure none
  | some e => exact (renames_checkedExpr env target e).bind_pure _

theorem renames_expressionStmt (env : Env) (e : Expr) :
    (expressionStmt env e).Renames r (expressionStmt env (e.renamed r)) := by
  refine (renames_expr env e).bind fun e => ?_
  exact Traced.renames_self (silent_unless_bind rfl rfl)

theorem assignedConstant?_renamed (env : Env) (l : Lvalue) :
    assignedConstant? env (l.renamed r) = assignedConstant? env l := by
  obtain ⟨id, span, kind⟩ := l
  cases kind <;> rw [Lvalue.renamed, LvalueKind.renamed] <;> rfl

theorem renames_assignment (env : Env) (a : Assignment) :
    (assignment env a).Renames r (assignment env (a.renamed r)) := by
  unfold assignment Assignment.renamed
  rw [assignedConstant?_renamed]
  refine (renames_lvalue env a.target).bind fun target => ?_
  have hvalue : ∀ u : Unit, Traced.Renames r
      (do
        let value ← expr env a.value
        Check.assignable value target.type
        return Semantic.Stmt.assignment (env.site a.span) target value)
      (do
        let value ← expr env (a.value.renamed r)
        Check.assignable value target.type
        return Semantic.Stmt.assignment (env.site a.span) target value) := by
    intro _
    refine (renames_expr env a.value).bind fun value => ?_
    exact renames_check (Check.silent_assignable ..) fun _ => Traced.renames_pure _
  split
  · exact renames_check (typed_report ..) hvalue
  · exact renames_check (Traced.silent_pure ()) hvalue

theorem renames_routineArgs (env : Env) (call : RoutineCall) :
    (routineArgs env call).Renames r (routineArgs env (call.renamed r)) := by
  cases call with
  | assign file name =>
    refine (renames_lvalue env file).bind fun file => ?_
    refine renames_check (Check.silent_convertible ..) fun _ => ?_
    exact (renames_checkedExpr env _ name).bind_pure _
  | write file value =>
    exact (renames_checkedExpr env _ file).bind fun file => (renames_expr env value).bind_pure _
  | print values => exact renames_exprs env values
  | read file target =>
    exact (renames_checkedExpr env _ file).bind fun file => (renames_lvalue env target).bind_pure _
  | readKey target => exact (renames_lvalue env target).bind_pure _
  | close file | openAppend file | openWrite file | openRead file =>
    exact (renames_checkedExpr env _ file).bind_pure _

theorem renames_forHeader (env : Env) (variant : Lvalue) (start stop : Expr)
    (step : Option Expr) :
    (forHeader env variant start stop step).Renames r (forHeader env (variant.renamed r)
      (start.renamed r) (stop.renamed r) (step.map (Expr.renamed r))) := by
  refine (renames_lvalue env variant).bind fun variant => ?_
  refine (renames_expr env start).bind fun start => ?_
  refine renames_check (Check.silent_assignable ..) fun _ => ?_
  refine (renames_checkedExpr env _ stop).bind fun stop => ?_
  exact (renames_checkedExpr? env _ step).bind_pure _

theorem renames_localInitializer (env : Env) (type : Ty) (init : Option Initializer) :
    (localInitializer env type init).Renames r
      (localInitializer env type (init.map (Initializer.renamed r))) := by
  cases init with
  | none => exact Traced.renames_pure none
  | some init =>
    rw [Option.map_some, localInitializer, localInitializer, Initializer.span_renamed]
    refine (renames_initializer env type init).bind fun value => ?_
    exact Traced.renames_self (silent_unless_bind rfl rfl)

theorem renames_returnStmt (ctx : ReturnContext) (env : Env) (ret : Return) :
    (returnStmt ctx env ret).Renames r (returnStmt ctx env (ret.renamed r)) := by
  have hvalue : (returnedValue env ret.value).Renames r
      (returnedValue env (ret.value.map (Expr.renamed r))) := by
    cases ret.value with
    | none => exact Traced.renames_pure none
    | some e => exact (renames_expr env e).bind_pure _
  refine hvalue.bind fun value => ?_
  split
  · exact renames_check (typed_report ..) fun _ => Traced.renames_pure _
  · exact renames_check (Check.silent_convertible ..) fun _ => Traced.renames_pure _
  · exact Traced.renames_self (silent_unless_bind rfl rfl)

theorem renames_scrutinee (env : Env) (e : Expr) :
    (scrutinee env e).Renames r (scrutinee env (e.renamed r)) := by
  refine (renames_expr env e).bind fun e => ?_
  dsimp only
  split
  · exact renames_check (typed_report ..) fun _ => Traced.renames_pure _
  · exact Traced.renames_pure _

theorem renames_caseValue (env : Env) (type : Ty) (isLast : Bool) (span : Span)
    (value : Option Expr) :
    (caseValue env type isLast span value).Renames r
      (caseValue env type isLast span (value.map (Expr.renamed r))) := by
  cases value with
  | none => exact Traced.renames_self (silent_unless_bind rfl rfl)
  | some e =>
    refine (renames_checkedExpr env type e).bind fun e => ?_
    exact renames_check (Check.silent_constant ..) fun _ => Traced.renames_pure _

end Parts

theorem renames_locals (scope : ScopeId) (l : LocalVariables) :
    (locals scope l).Renames r (locals scope (l.renamed r)) := by
  have hreading : ∀ env : Env, Traced.Renames r
      (do
        let type ← typeExpr env l.type
        let init ← localInitializer env type l.initializer
        return (type, init))
      (do
        let type ← typeExpr env (l.type.renamed r)
        let init ← localInitializer env type (l.initializer.map (Initializer.renamed r))
        return (type, init)) := by
    intro env
    refine (renames_typeExpr env l.type).bind fun type => ?_
    exact (renames_localInitializer env type l.initializer).bind_pure _
  refine (renames_reading hreading).bind fun p => ?_
  exact (renames_declareAll scope _).bind_pure _

/-! ### Statements -/

mutual

theorem renames_stmt (ctx : ReturnContext) (scope : ScopeId) : ∀ s : Stmt,
    (stmt ctx scope s).Renames r (stmt ctx scope (s.renamed r))
  | .nop span => by
    rw [Stmt.renamed, stmt]
    exact renames_pure _
  | .expr e => by
    rw [Stmt.renamed, stmt, stmt]
    exact renames_reading fun env => renames_expressionStmt env e
  | .alternative span first others none => by
    rw [Stmt.renamed, stmt, stmt]
    refine (renames_clause ctx scope first).bind fun _ => ?_
    exact (renames_clauses ctx scope others).bind_pure _
  | .alternative span first others (some body) => by
    rw [Stmt.renamed, stmt, stmt]
    refine (renames_clause ctx scope first).bind fun _ => ?_
    refine (renames_clauses ctx scope others).bind fun _ => ?_
    exact (renames_block scope span fun inner => renames_stmts ctx inner body).bind_pure _
  | .assignment a => by
    rw [Stmt.renamed, stmt, stmt]
    exact renames_reading fun env => renames_assignment env a
  | .routine span call => by
    rw [Stmt.renamed, stmt, stmt, RoutineCall.routine_renamed]
    exact (renames_reading fun env => renames_routineArgs env call).bind_pure _
  | .loop span kind condition body => by
    rw [Stmt.renamed, stmt, stmt]
    refine (renames_reading fun env => renames_checkedExpr env _ condition).bind fun _ => ?_
    exact (renames_block scope span fun inner => renames_stmts ctx inner body).bind_pure _
  | .forLoop span variant start stop step body => by
    rw [Stmt.renamed, stmt, stmt]
    refine (renames_reading fun env => renames_forHeader env variant start stop step).bind
      fun _ => ?_
    exact (renames_block scope span fun inner => renames_stmts ctx inner body).bind_pure _
  | .locals l => by
    rw [Stmt.renamed, stmt, stmt]
    exact renames_locals scope l
  | .returns ret => by
    rw [Stmt.renamed, stmt, stmt]
    exact renames_reading fun env => renames_returnStmt ctx env ret
  | .switch span e cases => by
    rw [Stmt.renamed, stmt, stmt]
    refine (renames_reading fun env => renames_scrutinee env e).bind fun e => ?_
    exact (renames_switchCases ctx scope e.type cases).bind_pure _
  | .directive d => by
    rw [Stmt.renamed, stmt, stmt]
    exact (renames_reading fun env => renames_directive env d).bind_pure _

theorem renames_clause (ctx : ReturnContext) (scope : ScopeId) : ∀ c : Clause,
    (clause ctx scope c).Renames r (clause ctx scope (c.renamed r))
  | ⟨span, condition, body⟩ => by
    rw [Clause.renamed, clause, clause]
    refine (renames_reading fun env => renames_checkedExpr env _ condition).bind fun _ => ?_
    exact (renames_block scope span fun inner => renames_stmts ctx inner body).bind_pure _

theorem renames_clauses (ctx : ReturnContext) (scope : ScopeId) : ∀ cs : List Clause,
    (clauses ctx scope cs).Renames r (clauses ctx scope (renamedClauses r cs))
  | [] => renames_pure []
  | c :: rest => by
    rw [renamedClauses, clauses, clauses]
    refine (renames_clause ctx scope c).bind fun _ => ?_
    exact (renames_clauses ctx scope rest).bind_pure _

theorem renames_switchCases (ctx : ReturnContext) (scope : ScopeId) (type : Ty) :
    ∀ cs : List Case,
    (switchCases ctx scope type cs).Renames r (switchCases ctx scope type (renamedCases r cs))
  | [] => renames_pure []
  | ⟨span, value, body⟩ :: rest => by
    rw [renamedCases, switchCases, switchCases, isEmpty_renamedCases]
    refine (renames_reading fun env => renames_caseValue env type _ span value).bind fun _ => ?_
    refine (renames_block scope span fun inner => renames_stmts ctx inner body).bind fun _ => ?_
    exact (renames_switchCases ctx scope type rest).bind_pure _

theorem renames_stmts (ctx : ReturnContext) (scope : ScopeId) : ∀ ss : List Stmt,
    (stmts ctx scope ss).Renames r (stmts ctx scope (renamedStmts r ss))
  | [] => renames_pure []
  | s :: rest => by
    rw [renamedStmts, stmts, stmts]
    refine (renames_stmt ctx scope s).bind fun _ => ?_
    exact (renames_stmts ctx scope rest).bind_pure _

end

/-! ### Declarations and algorithms -/

theorem renames_parameters (env : Env) (ps : List FormalParameter) :
    (parameters env ps).Renames r (parameters env (ps.map (FormalParameter.renamed r))) := by
  induction ps with
  | nil => exact Traced.renames_pure []
  | cons p rest ih => exact (renames_typeExpr env p.type).bind fun type => ih.bind_pure _

theorem renames_signature (env : Env) (s : Signature) :
    (signature env s).Renames r (signature env (s.renamed r)) := by
  have hreturn : (returnType env s.returnType).Renames r
      (returnType env (s.returnType.map (TypeExpr.renamed r))) := by
    cases s.returnType with
    | none => exact Traced.renames_pure _
    | some type => exact renames_typeExpr env type
  refine (renames_parameters env s.parameters).bind fun parameters => ?_
  exact hreturn.bind_pure _

theorem renames_constantValue (env : Env) (c : ConstantDecl) :
    (constantValue env c).Renames r (constantValue env (c.renamed r)) := by
  unfold constantValue ConstantDecl.renamed
  rw [Initializer.span_renamed]
  refine (renames_typeExpr env c.type).bind fun type => ?_
  refine (renames_initializer env type c.value).bind fun init => ?_
  exact Traced.renames_check (Check.silent_constant ..) fun _ => Traced.renames_pure _

theorem renames_decl (mainSeen : Bool) (scope : ScopeId) (d : Decl) :
    (decl mainSeen scope d).Renames r (decl mainSeen scope (d.renamed r)) := by
  cases d with
  | constant c =>
    refine (renames_reading fun env => renames_constantValue env c).bind fun _ => ?_
    exact (renames_bindAt _ _).bind_pure _
  | typeAlias a =>
    refine (renames_reading fun env => renames_typeExpr env a.target).bind fun _ => ?_
    exact (renames_bindAt _ _).bind_pure _
  | main span body =>
    have hbody := renames_block (r := r) scope span fun inner => renames_stmts .main inner body
    cases mainSeen with
    | false => exact hbody.bind_pure _
    | true =>
      refine (renames_self (silent_lift ?_)).bind fun _ => hbody.bind_pure _
      exact Traced.typed_report ..
  | forward s =>
    refine (renames_reading fun env => renames_signature env s).bind fun _ => ?_
    exact (renames_bindAt _ _).bind_pure _
  | definition span s body =>
    refine (renames_reading fun env => renames_signature env s).bind fun signature => ?_
    refine (renames_bindAt _ _).bind fun _ => ?_
    refine Renames.bind_pure (renames_block scope span fun inner => ?_) _
    exact (renames_declareAll inner _).bind fun _ => renames_stmts _ inner body
  | directive d => exact (renames_reading fun env => renames_directive env d).bind_pure _

theorem isMain_renamed (d : Decl) : isMain (d.renamed r) = isMain d := by
  cases d <;> rfl

theorem renames_decls (mainSeen : Bool) (scope : ScopeId) (ds : List Decl) :
    (decls mainSeen scope ds).Renames r (decls mainSeen scope (ds.map (Decl.renamed r))) := by
  induction ds generalizing mainSeen with
  | nil => exact renames_pure []
  | cons d rest ih =>
    rw [List.map_cons, decls, decls, isMain_renamed]
    exact (renames_decl mainSeen scope d).bind fun _ => (ih _).bind_pure _

/-- The analysis of a renamed program differs in the record of types alone. -/
theorem renames_algorithm (a : Algorithm) :
    (algorithm a).Renames r (algorithm (a.renamed r)) := by
  refine (renames_reading fun env => renames_directives env a.leading).bind fun _ => ?_
  refine (renames_decls false ScopeTable.root a.decls).bind fun _ => ?_
  refine Renames.bind_pure (renames_reading fun env => ?_) _
  exact Traced.renames_self (silent_undefinedCallables _)

end Analysis

end Pseudocode
