import Pseudocode.Proofs.Overflow.Signals
import Pseudocode.Proofs.Value.Everywhere

/-!
# Every analysis is accounted for

The journal of each piece of syntax accounts for the signals of its analysis.
-/

namespace Pseudocode

open Event (signal?)
open Syntax (Term)
open Traced

/-! ### Known aggregates -/

theorem Path.isKnown_set (p : Path) (v new : Value) : (p.set v new).isKnown = v.isKnown :=
  v.isKnown_modifySlot p.first _

theorem Ty.isKnown_initial : ∀ t : Ty, t.isAggregate = true → t.initial.isKnown = true
  | .array .., _ | .struct _, _ => by
    rw [initial]
    rfl
  | .aliased _ target, h => by
    rw [initial]
    exact target.isKnown_initial h

namespace Analysis

/-! ### Expressions and types -/

theorem events_visit {v : Visit} {p : Prop} [Decidable p] (h : v.overflows = decide p) :
    Entry.events (.visit v) = if p then [.overflow v.term.span] else [] := by
  rw [Entry.events, h]
  by_cases hp : p <;> simp [hp]

theorem events_binary (env : Env) (id : Syntax.NodeId) (span : Span) (op : Located BinaryOp)
    (left right : Syntax.Expr) :
    Entry.events (.visit ⟨env, .expr ⟨id, span, .binary op left right⟩⟩) =
      (Check.binary op.item (expr env left).result (expr env right).result span).pick signal? := by
  rw [Check.signals_binary]
  exact events_visit rfl

theorem events_unary (env : Env) (id : Syntax.NodeId) (span : Span) (op : Located UnaryOp)
    (operand : Syntax.Expr) :
    Entry.events (.visit ⟨env, .expr ⟨id, span, .unary op operand⟩⟩) =
      (Check.unary op.item (expr env operand).result span).pick signal? := by
  rw [Check.signals_unary]
  exact events_visit rfl

/-- An expression is analysed as its root. -/
theorem result_root (env : Env) (e : Syntax.Expr) :
    (term env e.root).result = (expr env e).result := by
  obtain ⟨id, span, kind⟩ := e
  cases kind with
  | lvalue l => exact (result_lvalue env id span l).symm
  | _ => rfl

theorem span_lvalue (env : Env) (l : Syntax.Lvalue) : (lvalue env l).result.span = l.span := by
  obtain ⟨id, span, kind⟩ := l
  cases kind <;> rw [lvalue] <;> rfl

theorem span_root (env : Env) (e : Syntax.Expr) : (expr env e).result.span = e.root.span := by
  obtain ⟨id, span, kind⟩ := e
  cases kind with
  | lvalue l =>
    rw [result_lvalue]
    exact span_lvalue env l
  | _ =>
    rw [expr]
    rfl

/-- The signals of a check on the value of an analysed expression. -/
theorem events_root (env : Env) (e : Syntax.Expr) (lacks : Value → Bool) :
    Check.signal (expr env e).result.value lacks (expr env e).result.span =
      (Visit.demand ⟨env, e.root⟩ lacks).flatMap Entry.events := by
  rw [Check.events_demand, Visit.value, result_root, span_root]

theorem answered_root {env : Env} {e : Syntax.Expr} {journal : List Entry} {signals : List Event}
    (h : Accounts (· = env) e.outline.terms journal signals) :
    Visit.Answered ⟨env, e.root⟩ (visited journal) := by
  rw [h.visited_eq]
  obtain ⟨id, span, kind⟩ := e
  cases kind with
  | lvalue l =>
    refine ⟨[], [⟨env, .expr ⟨id, span, .lvalue l⟩⟩], ?_, ?_⟩
    · rw [Syntax.Expr.outline, Syntax.ExprKind.outline, Syntax.terms_outline_uses, List.map_append]
      rfl
    · intro u hu hoverflows
      rw [List.mem_singleton.mp hu] at hoverflows
      cases hoverflows
  | _ => exact ⟨[], [], (List.append_nil _).symm, by simp⟩

mutual

theorem accounts_expr (env : Env) : ∀ e : Syntax.Expr,
    Accounts (· = env) e.outline.terms (e.journal env) ((expr env e).pick signal?)
  | ⟨id, span, .literal literal⟩ => by
    refine .of_eq (Accounts.nil.silent (t := .expr ⟨id, span, .literal literal⟩) rfl) rfl ?_
    rw [expr, silent_finish]
  | ⟨id, span, .paren inner⟩ => by
    have hinner := accounts_expr env inner
    exact .of_eq (hinner.silent (t := .expr ⟨id, span, .paren inner⟩) rfl) rfl (by simp [expr])
  | ⟨id, span, .binary op left right⟩ => by
    have hinner := (accounts_expr env left).append (accounts_expr env right)
    exact .of_eq (hinner.visit (t := .expr ⟨id, span, .binary op left right⟩)) rfl
      (by simp [expr, events_binary])
  | ⟨id, span, .unary op operand⟩ => by
    have hinner := accounts_expr env operand
    exact .of_eq (hinner.visit (t := .expr ⟨id, span, .unary op operand⟩)) rfl
      (by simp [expr, events_unary])
  | ⟨id, span, .call callee args⟩ => by
    have hinner := accounts_arguments env args
    exact .of_eq (hinner.silent (t := .expr ⟨id, span, .call callee args⟩) rfl) rfl
      (by simp [expr])
  | ⟨id, span, .endOfFile file⟩ => by
    have hinner := accounts_expr env file
    exact .of_eq (hinner.silent (t := .expr ⟨id, span, .endOfFile file⟩) rfl) rfl (by simp [expr])
  | ⟨id, span, .cast target value⟩ => by
    have hinner := (accounts_typeExpr env target).append (accounts_expr env value)
    exact .of_eq (hinner.silent (t := .expr ⟨id, span, .cast target value⟩) rfl) rfl
      (by simp [expr])
  | ⟨id, span, .lvalue value⟩ => by
    have hinner := accounts_lvalue env value
    refine .of_eq (hinner.silent (t := .expr ⟨id, span, .lvalue value⟩) rfl) rfl (by simp [expr])

theorem accounts_lvalue (env : Env) : ∀ l : Syntax.Lvalue,
    Accounts (· = env) (l.outline []).terms (l.journal env) ((lvalue env l).pick signal?)
  | ⟨id, span, .name name⟩ =>
    .of_eq (Accounts.nil.silent (t := .lvalue ⟨id, span, .name name⟩) rfl) rfl (by simp [lvalue])
  | ⟨id, span, .subscript array index⟩ => by
    have hinner := (accounts_expr env array).append (accounts_expr env index)
    exact .of_eq (hinner.silent (t := .lvalue ⟨id, span, .subscript array index⟩) rfl) rfl
      (by simp [lvalue])
  | ⟨id, span, .component base name⟩ => by
    have hinner := accounts_expr env base
    exact .of_eq (hinner.silent (t := .lvalue ⟨id, span, .component base name⟩) rfl) rfl
      (by simp [lvalue])

theorem accounts_arguments (env : Env) : ∀ args : List Syntax.Argument,
    Accounts (· = env) (Outline.termsAll (Syntax.argumentOutlines args))
      (Syntax.argumentJournal env args) ((arguments env args).pick signal?)
  | [] => .nil
  | ⟨_, _, value⟩ :: rest =>
    .of_eq ((accounts_expr env value).append (accounts_arguments env rest))
      (by simp [Syntax.argumentOutlines]) (by simp [arguments])

theorem accounts_typeExpr (env : Env) : ∀ t : Syntax.TypeExpr,
    Accounts (· = env) t.terms (t.journal env) ((typeExpr env t).pick signal?)
  | ⟨_, .boolean⟩ | ⟨_, .character⟩ | ⟨_, .integer⟩ | ⟨_, .real⟩ | ⟨_, .file⟩ | ⟨_, .string⟩ => by
    rw [typeExpr]
    exact .nil
  | ⟨_, .boundedString length⟩ => by
    have hlength := accounts_expr env length
    refine .of_eq (hlength.demand (answered_root hlength) Value.lacksInteger) rfl ?_
    rw [typeExpr, pick_bind, pick_bind, Check.signals_length, events_root]
    split <;> simp
  | ⟨_, .named name⟩ => by
    refine .of_eq .nil rfl ?_
    rw [typeExpr]
    split <;> rfl
  | ⟨_, .array item lengths⟩ => by
    have hitem := accounts_typeExpr env item
    refine .of_eq (hitem.append (accounts_arrayLengths env lengths)) rfl ?_
    rw [typeExpr, pick_bind, pick_bind]
    split <;> simp
  | ⟨_, .struct components⟩ =>
    .of_eq (accounts_structComponents env [] components) rfl (by simp [typeExpr])

theorem accounts_arrayLengths (env : Env) : ∀ lengths : List Syntax.Expr,
    Accounts (· = env) (Syntax.lengthTerms lengths) (Syntax.lengthJournal env lengths)
      ((arrayLengths env lengths).pick signal?)
  | [] => .nil
  | e :: rest => by
    have hlength := accounts_expr env e
    have hdemand := hlength.demand (answered_root hlength) Value.lacksInteger
    have hrest := hdemand.append (accounts_arrayLengths env rest)
    rw [List.append_assoc] at hrest
    refine hrest.of_eq rfl ?_
    rw [arrayLengths, pick_bind, pick_bind, pick_bind, Check.signals_length, events_root]
    split <;> simp

theorem accounts_structComponents (env : Env) (components : List (String × Ty)) :
    ∀ ds : List Syntax.ComponentDecl,
      Accounts (· = env) (Syntax.componentTerms ds) (Syntax.componentJournal env ds)
        ((structComponents env components ds).pick signal?)
  | [] => .nil
  | ⟨_, names, type⟩ :: rest => by
    let components' := (Check.addComponents (typeExpr env type).result names components).result
    have hrest := accounts_structComponents env components' rest
    exact .of_eq ((accounts_typeExpr env type).append hrest) rfl
      (by simp [structComponents, components'])

end

/-! ### Directives -/

theorem accounts_exprs (env : Env) (es : List Syntax.Expr) :
    Accounts (· = env) (Outline.termsAll (es.map Syntax.Expr.outline))
      (es.flatMap (Syntax.Expr.journal env)) ((exprs env es).pick signal?) := by
  induction es with
  | nil => exact .nil
  | cons e rest ih => exact .of_eq ((accounts_expr env e).append ih) rfl (by simp [exprs])

/-- The message of an assertion is analysed before the condition is asked for. -/
theorem accounts_directive (env : Env) (d : Syntax.Directive) :
    Accounts (· = env) d.outline.terms (d.journal env) ((directive env d).pick signal?) := by
  obtain ⟨span, kind⟩ := d
  cases kind with
  | assertion condition message =>
    have hcondition := accounts_expr env condition
    have hmessage := accounts_exprs env message.toList
    have hpostorder :
        Syntax.Postorder ((visited (Syntax.optionalJournal env message)).map (·.term)) :=
      hmessage.terms_eq ▸ Syntax.postorder_exprs message.toList
    have hanswered := (answered_root hcondition).append hpostorder
    rw [← visited_append] at hanswered
    have hdemand := (hcondition.append hmessage).demand hanswered Value.lacksBoolean
    rw [List.append_assoc] at hdemand
    refine hdemand.of_eq ?_ ?_
    · simp [Syntax.Directive.outline, Syntax.optionalOutline]
    · rw [directive, pick_bind]
      simp only [pick_bind, pick_assertionMessage, Check.silent_convertible, signals_assertion,
        events_root, List.nil_append, List.append_assoc]
      rfl
  | showValue e =>
    refine .of_eq (accounts_expr env e) ?_ ?_
    · simp [Syntax.Directive.outline]
    · rw [directive, pick_bind]
      simp only [pick_bind]
      exact List.append_nil _
  | showType type =>
    refine .of_eq (accounts_typeExpr env type) ?_ ?_
    · simp [Syntax.Directive.outline]
    · rw [directive, pick_bind]
      simp only [pick_bind]
      exact List.append_nil _

theorem accounts_directives (env : Env) (ds : List Syntax.Directive) :
    Accounts (· = env) (Outline.termsAll (ds.map Syntax.Directive.outline))
      (ds.flatMap (Syntax.Directive.journal env)) ((directives env ds).pick signal?) := by
  induction ds with
  | nil => exact .nil
  | cons d rest ih =>
    exact .of_eq ((accounts_directive env d).append ih) rfl (by simp [directives])

/-! ### Initializers -/

theorem accounts_designator (env : Env) (d : Syntax.Designator) :
    Accounts (· = env) d.outline.terms (d.journal env) ((designator env d).pick signal?) := by
  obtain ⟨span, kind⟩ := d
  cases kind with
  | index e =>
    exact .of_eq (accounts_expr env e) (by simp [Syntax.Designator.outline]) (by simp [designator])
  | component name => exact .nil

theorem accounts_designators (env : Env) (ds : List Syntax.Designator) :
    Accounts (· = env) (Outline.termsAll (ds.map Syntax.Designator.outline))
      (Syntax.designatorJournal env none ds) ((designators env ds).pick signal?) := by
  induction ds with
  | nil => exact .nil
  | cons d rest ih =>
    exact .of_eq ((accounts_designator env d).append ih) rfl (by simp [designators])

/-- An index is asked for once it has been analysed. -/
theorem accounts_select (env : Env) (aggregate : Ty) (d : Syntax.Designator) :
    Accounts (· = env) d.outline.terms (d.journal env ++ d.demand env aggregate)
      ((designator env d).pick signal? ++
        (select aggregate (designator env d).result).pick signal?) := by
  have hd := accounts_designator env d
  obtain ⟨span, kind⟩ := d
  cases kind with
  | index e =>
    have hresult : (designator env ⟨span, .index e⟩).result =
        .index (env.site span) (expr env e).result := rfl
    rw [hresult, signals_select_index, Syntax.Designator.demand]
    split
    · rwa [List.append_nil, List.append_nil]
    · rw [events_root]
      exact hd.demand (answered_root (accounts_expr env e)) Value.lacksInteger
  | component name =>
    have hresult : (designator env ⟨span, .component name⟩).result =
        .component (env.site span) name := rfl
    rw [hresult, silent_select_component]
    exact .nil

theorem accounts_follow (env : Env) (place : Option (List Step × Ty))
    (ds : List Syntax.Designator) :
    Accounts (· = env) (Outline.termsAll (ds.map Syntax.Designator.outline))
      (Syntax.designatorJournal env (place.map (·.2)) ds) ((follow env place ds).pick signal?) := by
  fun_induction follow env place ds with
  | case1 place =>
    rw [Syntax.designatorJournal]
    exact .nil
  | case2 ds hds => exact .of_eq (accounts_designators env ds) rfl (by simp)
  | case3 steps type d rest ih =>
    have hrest := ih (select type (designator env d).result).result
    rw [Option.map_map] at hrest
    have hselect := (accounts_select env type d).append hrest
    rw [List.append_assoc] at hselect
    exact hselect.of_eq rfl (by simp)

theorem accounts_position (env : Env) (target : Ty) (cursor : Option Path) (span : Span)
    (ds : List Syntax.Designator) :
    Accounts (· = env) (Outline.termsAll (ds.map Syntax.Designator.outline))
      (Syntax.designatorJournal env (some target) ds)
      ((position env target cursor span ds).pick signal?) := by
  unfold position
  split
  · rename_i hempty
    obtain rfl := List.isEmpty_iff.mp hempty
    refine .of_eq .nil rfl ?_
    dsimp only
    split
    all_goals split <;> rfl
  · exact .of_eq (accounts_follow env (some ([], target)) ds) rfl (by simp)

mutual

theorem accounts_initializer (env : Env) (target : Ty) : ∀ init : Syntax.Initializer,
    Accounts (· = env) init.outline.terms (init.journal env target)
      ((initializer env target init).pick signal?)
  | .expr e => .of_eq (accounts_expr env e) rfl (by simp [initializer])
  | .braced ⟨span, items⟩ => by
    rw [initializer, Syntax.Initializer.journal, Syntax.Initializer.outline, Outline.terms_plain]
    split
    · exact .of_eq (accounts_placedItems env target target.initial none items) rfl (by simp)
    · refine .of_eq (accounts_freeItems env items) rfl ?_
      dsimp only
      rw [pick_unless_bind rfl]
      simp

theorem accounts_placedItems (env : Env) (target : Ty) (aggregate : Value)
    (cursor : Option Path) : ∀ items : List Syntax.Item,
      Accounts (· = env) (Outline.termsAll (Syntax.itemOutlines items))
        (Syntax.placedJournal env target cursor items)
        ((placedItems env target aggregate cursor items).pick signal?)
  | [] => .nil
  | .directive d :: rest => by
    have hrest := accounts_placedItems env target aggregate cursor rest
    exact .of_eq ((accounts_directive env d).append hrest) rfl (by simp [placedItems])
  | .value ⟨span, designators, value⟩ :: rest => by
    let path := (position env target cursor span designators).result.2
    let item := (initializer env (itemType path span) value).result.value
    have hvalue := accounts_initializer env (itemType path span) value
    have hrest := accounts_placedItems env target (place aggregate path item) (path.or cursor) rest
    have hposition := accounts_position env target cursor span designators
    exact .of_eq (hposition.append (hvalue.append hrest)) (by simp [Syntax.itemOutlines])
      (by simp [placedItems, path, item])

theorem accounts_freeItems (env : Env) : ∀ items : List Syntax.Item,
    Accounts (· = env) (Outline.termsAll (Syntax.itemOutlines items))
      (Syntax.freeJournal env items) ((freeItems env items).pick signal?)
  | [] => .nil
  | .directive d :: rest =>
    .of_eq ((accounts_directive env d).append (accounts_freeItems env rest)) rfl
      (by simp [freeItems])
  | .value ⟨span, designators, value⟩ :: rest => by
    have hvalue := accounts_initializer env (.unknown span) value
    have hrest := hvalue.append (accounts_freeItems env rest)
    exact .of_eq ((accounts_designators env designators).append hrest)
      (by simp [Syntax.itemOutlines]) (by simp [freeItems])

end

/-! ### Parts of statements -/

theorem accounts_routineArgs (env : Env) (call : Syntax.RoutineCall) :
    Accounts (· = env) (Outline.termsAll call.operands) (call.journal env)
      ((routineArgs env call).pick signal?) := by
  cases call with
  | print values => exact accounts_exprs env values
  | assign file name =>
    exact .of_eq ((accounts_lvalue env file).append (accounts_expr env name))
      (by simp [Syntax.RoutineCall.operands]) (by simp [routineArgs, pick_checkedExpr])
  | write file value =>
    exact .of_eq ((accounts_expr env file).append (accounts_expr env value))
      (by simp [Syntax.RoutineCall.operands]) (by simp [routineArgs, pick_checkedExpr])
  | read file target =>
    exact .of_eq ((accounts_expr env file).append (accounts_lvalue env target))
      (by simp [Syntax.RoutineCall.operands]) (by simp [routineArgs, pick_checkedExpr])
  | readKey target =>
    exact .of_eq (accounts_lvalue env target) (by simp [Syntax.RoutineCall.operands])
      (by simp [routineArgs])
  | close file | openAppend file | openWrite file | openRead file =>
    exact .of_eq (accounts_expr env file) (by simp [Syntax.RoutineCall.operands])
      (by simp [routineArgs, pick_checkedExpr])

/-- The value of a branch is asked for once it has been analysed. -/
theorem accounts_caseValue (env : Env) (type : Ty) (isLast : Bool) (span : Span)
    (e : Option Syntax.Expr) :
    Accounts (· = env) (Outline.termsAll (Syntax.optionalOutline e))
      (Syntax.caseValueJournal env e) ((caseValue env type isLast span e).pick signal?) := by
  cases e with
  | none => exact .of_eq .nil rfl (pick_unless_bind rfl _)
  | some e =>
    have he := accounts_expr env e
    refine .of_eq (he.demand (answered_root he) Value.lacksDatum) ?_ ?_
    · simp [Syntax.optionalOutline]
    · rw [caseValue, pick_bind, pick_checkedExpr]
      rw [pick_bind, Check.signals_constant, pick_pure, List.append_nil, ← events_root]
      rfl

theorem accounts_localInitializer (env : Env) (type : Ty) (init : Option Syntax.Initializer) :
    Accounts (· = env) (Outline.termsAll (init.toList.map Syntax.Initializer.outline))
      (init.toList.flatMap (Syntax.Initializer.journal env type))
      ((localInitializer env type init).pick signal?) := by
  cases init with
  | none => exact .nil
  | some init =>
    have hinit := (accounts_initializer env type init).append .nil
    exact hinit.of_eq rfl (by rw [pick_localInitializer, List.append_nil])

/-! ### Parts of declarations -/

theorem accounts_parameters (env : Env) (ps : List Syntax.FormalParameter) :
    Accounts (· = env) (Outline.termsAll (ps.map Syntax.FormalParameter.outline))
      (ps.flatMap (·.type.journal env)) ((parameters env ps).pick signal?) := by
  induction ps with
  | nil => exact .nil
  | cons p rest ih =>
    exact .of_eq ((accounts_typeExpr env p.type).append ih)
      (by simp [Syntax.FormalParameter.outline]) (by simp [parameters])

theorem accounts_returnType (env : Env) (type : Option Syntax.TypeExpr) :
    Accounts (· = env) (type.toList.flatMap Syntax.TypeExpr.terms)
      (type.toList.flatMap (Syntax.TypeExpr.journal env)) ((returnType env type).pick signal?) := by
  cases type with
  | none => exact .nil
  | some type =>
    have htype := (accounts_typeExpr env type).append .nil
    exact htype.of_eq rfl (by simp [returnType])

theorem accounts_signature (env : Env) (s : Syntax.Signature) :
    Accounts (· = env) s.outline.terms (s.journal env) ((signature env s).pick signal?) := by
  have hreturnType := accounts_returnType env s.returnType
  exact .of_eq ((accounts_parameters env s.parameters).append hreturnType)
    (by simp [Syntax.Signature.outline]) (by simp [signature])

/-- Items leave an aggregate known. -/
theorem isKnown_placedItems (env : Env) (target : Ty) (items : List Syntax.Item)
    {aggregate : Value} (h : aggregate.isKnown = true) (cursor : Option Path) :
    (placedItems env target aggregate cursor items).result.1.isKnown = true := by
  induction items generalizing aggregate cursor with
  | nil => exact h
  | cons item rest ih =>
    cases item with
    | directive d =>
      rw [placedItems]
      exact ih h cursor
    | value item =>
      obtain ⟨span, designators, value⟩ := item
      rw [placedItems]
      refine ih ?_ _
      unfold place
      split
      · exact (Path.isKnown_set ..).trans h
      · exact h

/-- A braced initializer gives a value that is known or erroneous. -/
theorem signals_constant_braced (env : Env) (target : Ty) (b : Syntax.BracedInitializer)
    (span : Span) :
    (Check.constant (initializer env target (.braced b)).result.value span).pick signal? = [] := by
  obtain ⟨_, items⟩ := b
  rw [Check.signals_constant, initializer]
  split
  · rename_i haggregate
    have hknown := isKnown_placedItems env target items (target.isKnown_initial haggregate) none
    exact Check.signal_eq_nil (congrArg (!·) hknown) _
  · dsimp only
    rw [result_unless_bind]
    exact Check.signal_of_isInvalid rfl _ _

/-- A constant is asked for under the extent of the expression itself. -/
theorem accounts_constant (env : Env) (target : Ty) (init : Syntax.Initializer) :
    Accounts (· = env) init.outline.terms (init.journal env target ++ init.demand env)
      ((initializer env target init).pick signal? ++
        (Check.constant (initializer env target init).result.value init.span).pick signal?) := by
  have hinit := accounts_initializer env target init
  cases init with
  | braced b =>
    rw [signals_constant_braced]
    exact (hinit.append .nil).of_eq (List.append_nil _).symm rfl
  | expr e =>
    have hvalue : (initializer env target (.expr e)).result.value = (expr env e).result.value := by
      rw [initializer]
      rfl
    have hanswered : Visit.Answered ⟨env, .expr e⟩ (visited (e.journal env)) := by
      rw [(accounts_expr env e).visited_eq]
      exact ⟨[], [], (List.append_nil _).symm, by simp⟩
    refine (hinit.demand hanswered Value.lacksDatum).of_eq rfl ?_
    rw [Check.signals_constant, hvalue, Check.events_demand]
    rfl

theorem accounts_constantValue (env : Env) (c : Syntax.ConstantDecl) :
    Accounts (· = env) (c.type.terms ++ c.value.outline.terms) (c.journal env)
      ((constantValue env c).pick signal?) := by
  have hvalue := accounts_constant env (typeExpr env c.type).result c.value
  exact .of_eq ((accounts_typeExpr env c.type).append hvalue) rfl (by simp [constantValue])

end Analysis

end Pseudocode
