import Pseudocode.Proofs.Analysis.Emission
import Pseudocode.Proofs.Structure.Repeats

/-!
# Reports of repeated component names

The analysis of a piece of syntax reports the repeated component names in it, each once and in
order, whatever the scopes are. Only a structure type reports any. Of the components that it has
listed so far it keeps the first of each name, so that a name is taken if it was listed before.
-/

namespace Pseudocode

namespace Event

/-- The component name that the event reports as repeated. -/
def repeated? : Event → Option Ident
  | .found ⟨.duplicateComponent name, span⟩ => some ⟨name, span⟩
  | _ => none

theorem ignores_repeated? {topic : Topic} (h : topic ≠ .repetition) :
    Ignores repeated? topic where
  eq_none e he := by
    cases e with
    | found f =>
      obtain ⟨cause, span⟩ := f
      cases cause with
      | duplicateComponent => exact absurd he.symm h
      | _ => rfl
    | notConstant | overflow | typed => rfl

instance (n : Nat) : Ignores repeated? (.finding n) := ignores_repeated? nofun

instance : Ignores repeated? .constancy := ignores_repeated? nofun

instance : Ignores repeated? .typing := ignores_repeated? nofun

end Event

open Event (repeated?)
open Traced

namespace Check

/-! ### Components -/

/-- Of the declared components, the first of each name is kept, and in order. -/
structure KeepsFirst (declared kept : List (String × Ty)) : Prop where
  names : kept.map (·.1) = (declared.map (·.1)).eraseDups
  lookup : ∀ name, kept.lookup name = declared.lookup name

section KeepsFirst

variable {declared kept : List (String × Ty)} {name : String} {type : Ty}

theorem keepsFirst_nil : KeepsFirst [] [] where
  names := rfl
  lookup _ := rfl

theorem KeepsFirst.any_iff (h : KeepsFirst declared kept) :
    kept.any (·.1 == name) = true ↔ name ∈ declared.map (·.1) := by
  rw [← List.mem_eraseDups, ← h.names]
  simp

/-- A name that is taken is left out. -/
theorem KeepsFirst.taken (h : KeepsFirst declared kept) (htaken : name ∈ declared.map (·.1)) :
    KeepsFirst (declared ++ [(name, type)]) kept where
  names := by
    have hremaining : [name].removeAll (declared.map (·.1)) = [] := by
      simpa [List.removeAll] using htaken
    rw [h.names, List.map_append, List.eraseDups_append, List.map_singleton, hremaining]
    exact (List.append_nil _).symm
  lookup other := by
    rw [h.lookup, List.lookup_append]
    by_cases hother : other = name
    · -- The first component of the name is found before the new one.
      obtain ⟨c, hc, rfl⟩ := List.mem_map.mp htaken
      have hsome : (declared.lookup other).isSome = true :=
        List.lookup_isSome_iff.mpr ⟨c, hc, by simp [hother]⟩
      exact (Option.or_eq_left_of_isSome hsome).symm
    · have hne : (other == name) = false := beq_false_of_ne hother
      rw [List.lookup_cons, hne]
      exact Option.or_none.symm

theorem KeepsFirst.free (h : KeepsFirst declared kept) (hfree : name ∉ declared.map (·.1)) :
    KeepsFirst (declared ++ [(name, type)]) (kept ++ [(name, type)]) where
  names := by
    have hremaining : [name].removeAll (declared.map (·.1)) = [name] := by
      simpa [List.removeAll] using hfree
    rw [List.map_append, List.map_append, h.names, List.eraseDups_append]
    exact congrArg (_ ++ ·) (congrArg List.eraseDups hremaining).symm
  lookup other := by
    rw [List.lookup_append, List.lookup_append, h.lookup]

theorem addComponents_cons (type : Ty) (name : Ident) (rest : List Ident)
    (components : List (String × Ty)) :
    addComponents type (name :: rest) components =
      if components.any (·.1 == name.text) then
        Traced.report (.duplicateComponent name.text) name.span >>= fun _ =>
          addComponents type rest components
      else addComponents type rest (components ++ [(name.text, type)]) := by
  rw [addComponents]

/-- Adding components leaves out the names that are taken by then, and reports them. -/
theorem KeepsFirst.addComponents (h : KeepsFirst declared kept) (type : Ty) (names : List Ident) :
    KeepsFirst (declared ++ names.map fun name => (name.text, type))
        (addComponents type names kept).result ∧
      (addComponents type names kept).pick repeated? =
        Syntax.repeatedNames (declared.map (·.1)) names := by
  induction names generalizing declared kept with
  | nil => exact ⟨by simpa [Check.addComponents] using h, rfl⟩
  | cons name rest ih =>
    have hnames : declared.map (·.1) ++ [name.text] =
        (declared ++ [(name.text, type)]).map (·.1) := by simp
    rw [addComponents_cons, List.map_cons, List.append_cons, Syntax.repeatedNames, hnames]
    by_cases htaken : name.text ∈ declared.map (·.1)
    · rw [if_pos (h.any_iff.mpr htaken), if_pos htaken]
      obtain ⟨hkeeps, hrepeated⟩ := ih (h.taken htaken)
      refine ⟨hkeeps, ?_⟩
      rw [pick_bind, hrepeated]
      rfl
    · rw [if_neg fun hany => htaken (h.any_iff.mp hany), if_neg htaken]
      exact ih (h.free htaken)

end KeepsFirst

end Check

namespace Analysis

/-! ### Expressions and types -/

mutual

theorem repeated_expr (env : Env) : ∀ e : Syntax.Expr, (expr env e).pick repeated? = e.repeats
  | ⟨id, span, .literal literal⟩ => by
    rw [expr]
    rfl
  | ⟨_, _, .paren inner⟩ => by simp [expr, Syntax.Expr.repeats, repeated_expr env inner]
  | ⟨_, _, .binary _ left right⟩ => by
    simp [expr, Syntax.Expr.repeats, repeated_expr env left, repeated_expr env right]
  | ⟨_, _, .unary _ operand⟩ => by simp [expr, Syntax.Expr.repeats, repeated_expr env operand]
  | ⟨_, _, .call _ args⟩ => by simp [expr, Syntax.Expr.repeats, repeated_arguments env args]
  | ⟨_, _, .endOfFile file⟩ => by simp [expr, Syntax.Expr.repeats, repeated_expr env file]
  | ⟨_, _, .cast target value⟩ => by
    simp [expr, Syntax.Expr.repeats, repeated_typeExpr env target, repeated_expr env value]
  | ⟨id, span, .lvalue value⟩ => by
    rw [expr, pick_bind, repeated_lvalue env value, Syntax.Expr.repeats]
    exact List.append_nil _

theorem repeated_lvalue (env : Env) : ∀ l : Syntax.Lvalue, (lvalue env l).pick repeated? = l.repeats
  | ⟨_, _, .name _⟩ => by simp [lvalue, Syntax.Lvalue.repeats]
  | ⟨_, _, .subscript array index⟩ => by
    simp [lvalue, Syntax.Lvalue.repeats, repeated_expr env array, repeated_expr env index]
  | ⟨_, _, .component base _⟩ => by simp [lvalue, Syntax.Lvalue.repeats, repeated_expr env base]

theorem repeated_arguments (env : Env) : ∀ args : List Syntax.Argument,
    (arguments env args).pick repeated? = Syntax.argumentRepeats args
  | [] => rfl
  | ⟨_, _, value⟩ :: rest => by
    simp [arguments, Syntax.argumentRepeats, repeated_expr env value, repeated_arguments env rest]

theorem repeated_typeExpr (env : Env) : ∀ t : Syntax.TypeExpr,
    (typeExpr env t).pick repeated? = t.repeats
  | ⟨_, .boolean⟩ | ⟨_, .character⟩ | ⟨_, .integer⟩ | ⟨_, .real⟩ | ⟨_, .file⟩ | ⟨_, .string⟩ => by
    rw [typeExpr, Syntax.TypeExpr.repeats]
    rfl
  | ⟨_, .boundedString length⟩ => by
    rw [typeExpr, pick_bind, pick_bind, repeated_expr env length, Syntax.TypeExpr.repeats]
    split <;> simp
  | ⟨_, .named name⟩ => by
    rw [typeExpr, Syntax.TypeExpr.repeats]
    split <;> rfl
  | ⟨_, .array item lengths⟩ => by
    rw [typeExpr, pick_bind, pick_bind, repeated_typeExpr env item,
      repeated_arrayLengths env lengths, Syntax.TypeExpr.repeats]
    split <;> simp
  | ⟨_, .struct components⟩ => by
    rw [typeExpr, pick_bind, repeated_structComponents env Check.keepsFirst_nil components,
      Syntax.TypeExpr.repeats]
    exact List.append_nil _

theorem repeated_arrayLengths (env : Env) : ∀ lengths : List Syntax.Expr,
    (arrayLengths env lengths).pick repeated? = Syntax.lengthRepeats lengths
  | [] => rfl
  | e :: rest => by
    rw [arrayLengths, pick_bind, pick_bind, pick_bind, repeated_expr env e,
      repeated_arrayLengths env rest, Syntax.lengthRepeats]
    split <;> simp

theorem repeated_structComponents (env : Env) {declared kept : List (String × Ty)}
    (h : Check.KeepsFirst declared kept) : ∀ ds : List Syntax.ComponentDecl,
      (structComponents env kept ds).pick repeated? =
        Syntax.componentRepeats (declared.map (·.1)) ds
  | [] => rfl
  | ⟨_, names, type⟩ :: rest => by
    obtain ⟨hkeeps, hnames⟩ := h.addComponents (typeExpr env type).result names
    rw [structComponents, pick_bind, pick_bind, repeated_typeExpr env type, hnames,
      repeated_structComponents env hkeeps rest, Syntax.componentRepeats, List.map_append,
      List.map_map]
    rfl

end

theorem repeated_exprs (env : Env) (es : List Syntax.Expr) :
    (exprs env es).pick repeated? = es.flatMap Syntax.Expr.repeats := by
  induction es with
  | nil => rfl
  | cons e rest ih => simp [exprs, repeated_expr, ih]

theorem repeated_optional (env : Env) (e : Option Syntax.Expr) :
    (exprs env e.toList).pick repeated? = Syntax.optionalRepeats e := by
  cases e <;> simp [exprs, Syntax.optionalRepeats, repeated_expr]

/-! ### Directives -/

theorem repeated_directive (env : Env) (d : Syntax.Directive) :
    (directive env d).pick repeated? = d.repeats := by
  obtain ⟨span, kind⟩ := d
  cases kind with
  | assertion condition message =>
    rw [directive, pick_bind]
    simp only [pick_bind, repeated_expr, pick_assertionMessage, repeated_optional,
      Check.silent_convertible, List.nil_append]
    split <;> simp [Syntax.Directive.repeats] <;> rfl
  | showValue e =>
    rw [directive, pick_bind]
    simp only [pick_bind, repeated_expr]
    exact List.append_nil _
  | showType type =>
    rw [directive, pick_bind]
    simp only [pick_bind, repeated_typeExpr]
    exact List.append_nil _

theorem repeated_directives (env : Env) (ds : List Syntax.Directive) :
    (directives env ds).pick repeated? = ds.flatMap Syntax.Directive.repeats := by
  induction ds with
  | nil => rfl
  | cons d rest ih => simp [directives, repeated_directive, ih]

/-! ### Initializers -/

theorem repeated_designator (env : Env) (d : Syntax.Designator) :
    (designator env d).pick repeated? = d.repeats := by
  obtain ⟨span, kind⟩ := d
  cases kind with
  | index e => simp [designator, Syntax.Designator.repeats, repeated_expr]
  | component name => rfl

theorem repeated_designators (env : Env) (ds : List Syntax.Designator) :
    (designators env ds).pick repeated? = ds.flatMap Syntax.Designator.repeats := by
  induction ds with
  | nil => rfl
  | cons d rest ih => simp [designators, repeated_designator, ih]

theorem repeated_follow (env : Env) (place : Option (List Step × Ty))
    (ds : List Syntax.Designator) :
    (follow env place ds).pick repeated? = ds.flatMap Syntax.Designator.repeats := by
  fun_induction follow env place ds with
  | case1 place => rfl
  | case2 ds hds => simp [repeated_designators]
  | case3 steps type d rest ih => simp [repeated_designator, ih]

theorem repeated_position (env : Env) (target : Ty) (cursor : Option Path) (span : Span)
    (ds : List Syntax.Designator) :
    (position env target cursor span ds).pick repeated? = ds.flatMap Syntax.Designator.repeats := by
  unfold position
  split
  · rename_i hempty
    obtain rfl := List.isEmpty_iff.mp hempty
    dsimp only
    -- The position after the cursor, whichever it is, is there or not.
    split
    all_goals split <;> rfl
  · simp [repeated_follow]

mutual

theorem repeated_initializer (env : Env) (target : Ty) : ∀ init : Syntax.Initializer,
    (initializer env target init).pick repeated? = init.repeats
  | .expr e => by simp [initializer, Syntax.Initializer.repeats, repeated_expr]
  | .braced ⟨span, items⟩ => by
    rw [initializer, Syntax.Initializer.repeats]
    split
    · simp [repeated_placedItems env target target.initial none items]
    · dsimp only
      rw [pick_unless_bind rfl]
      simp [repeated_freeItems env items]

theorem repeated_placedItems (env : Env) (target : Ty) (aggregate : Value) (cursor : Option Path) :
    ∀ items : List Syntax.Item,
      (placedItems env target aggregate cursor items).pick repeated? = Syntax.itemRepeats items
  | [] => rfl
  | .directive d :: rest => by
    simp [placedItems, Syntax.itemRepeats, repeated_directive,
      repeated_placedItems env target aggregate cursor rest]
  | .value ⟨span, designators, value⟩ :: rest => by
    simp only [placedItems, Syntax.itemRepeats, pick_bind, repeated_position,
      repeated_initializer env _ value, repeated_placedItems env target _ _ rest, pick_pure,
      List.append_nil]

theorem repeated_freeItems (env : Env) : ∀ items : List Syntax.Item,
    (freeItems env items).pick repeated? = Syntax.itemRepeats items
  | [] => rfl
  | .directive d :: rest => by
    simp [freeItems, Syntax.itemRepeats, repeated_directive, repeated_freeItems env rest]
  | .value ⟨span, designators, value⟩ :: rest => by
    simp [freeItems, Syntax.itemRepeats, repeated_designators, repeated_initializer env _ value,
      repeated_freeItems env rest]

end

/-! ### Parts of statements -/

theorem repeated_checkedExpr (env : Env) (target : Ty) (e : Syntax.Expr) :
    (checkedExpr env target e).pick repeated? = e.repeats := by
  rw [pick_checkedExpr, repeated_expr]

theorem repeated_routineArgs (env : Env) (call : Syntax.RoutineCall) :
    (routineArgs env call).pick repeated? = call.repeats := by
  cases call with
  | print values => exact repeated_exprs env values
  | _ =>
    simp [routineArgs, Syntax.RoutineCall.repeats, repeated_lvalue, repeated_expr,
      repeated_checkedExpr]

theorem repeated_localInitializer (env : Env) (type : Ty) (init : Option Syntax.Initializer) :
    (localInitializer env type init).pick repeated? =
      init.toList.flatMap Syntax.Initializer.repeats := by
  cases init with
  | none => rfl
  | some init => simp [pick_localInitializer, repeated_initializer]

theorem repeated_caseValue (env : Env) (type : Ty) (isLast : Bool) (span : Span)
    (e : Option Syntax.Expr) :
    (caseValue env type isLast span e).pick repeated? = Syntax.optionalRepeats e := by
  cases e with
  | none => exact pick_unless_bind rfl _
  | some e => simp [caseValue, Syntax.optionalRepeats, repeated_checkedExpr]

/-! ### Parts of declarations -/

theorem repeated_parameters (env : Env) (ps : List Syntax.FormalParameter) :
    (parameters env ps).pick repeated? = ps.flatMap (·.type.repeats) := by
  induction ps with
  | nil => rfl
  | cons p rest ih => simp [parameters, repeated_typeExpr, ih]

theorem repeated_returnType (env : Env) (type : Option Syntax.TypeExpr) :
    (returnType env type).pick repeated? = type.toList.flatMap Syntax.TypeExpr.repeats := by
  cases type with
  | none => rfl
  | some type => simp [returnType, repeated_typeExpr]

theorem repeated_signature (env : Env) (s : Syntax.Signature) :
    (signature env s).pick repeated? = s.repeats := by
  simp [signature, Syntax.Signature.repeats, repeated_parameters, repeated_returnType]

theorem repeated_constantValue (env : Env) (c : Syntax.ConstantDecl) :
    (constantValue env c).pick repeated? = c.type.repeats ++ c.value.repeats := by
  simp [constantValue, repeated_typeExpr, repeated_initializer]

end Analysis

/-! ### Analyses that change the scopes -/

namespace Analyzer

variable {α β : Type} {names others : List Ident}

/-- Whatever the scopes are, the analysis reports these names as repeated, in order. -/
def Repeats (m : Analyzer α) (names : List Ident) : Prop := ∀ t, (m t).pick repeated? = names

theorem repeats_pure (a : α) : (pure a : Analyzer α).Repeats [] := fun _ => rfl

theorem Repeats.bind {m : Analyzer α} {f : α → Analyzer β} (hm : m.Repeats names)
    (hf : ∀ a, (f a).Repeats others) : (m >>= f).Repeats (names ++ others) := by
  intro t
  rw [pick_bind, hm t, hf]

/-- The rule for a second analysis that reports nothing. -/
theorem Repeats.silent {m : Analyzer α} {f : α → Analyzer β} (hm : m.Repeats names)
    (hf : ∀ a, (f a).Repeats []) : (m >>= f).Repeats names := by
  have hboth := hm.bind hf
  rwa [List.append_nil] at hboth

theorem Repeats.bind_pure {m : Analyzer α} (hm : m.Repeats names) (f : α → β) :
    (m >>= fun a => pure (f a)).Repeats names := hm.silent fun _ => repeats_pure _

theorem repeats_reading {scope : ScopeId} {f : Env → Traced α}
    (h : ∀ env, (f env).pick repeated? = names) : (reading scope f).Repeats names := by
  intro t
  rw [pick_reading, h]

theorem repeats_lift {x : Traced α} (h : x.pick repeated? = names) :
    (liftM x : Analyzer α).Repeats names := fun t => (pick_lift x t).trans h

theorem repeats_bindAt (span : Span) (operation : ScopeTable → Except DeclareError ScopeTable) :
    (bindAt span operation).Repeats [] := by
  intro t
  unfold bindAt
  split <;> rfl

theorem repeats_declareAll (scope : ScopeId) (symbols : List Symbol) :
    (declareAll scope symbols).Repeats [] := by
  induction symbols with
  | nil => exact repeats_pure ()
  | cons s rest ih => exact (repeats_bindAt _ _).silent fun _ => ih

theorem repeats_block {parent : ScopeId} {span : Span}
    {body : ScopeId → Analyzer (List Semantic.Stmt)} (h : ∀ scope, (body scope).Repeats names) :
    (block parent span body).Repeats names := by
  have hopen : (openScope parent).Repeats [] := fun _ => rfl
  exact hopen.bind fun scope => (h scope).bind_pure _

end Analyzer

namespace Analysis

open Analyzer

theorem repeats_locals (scope : ScopeId) (l : Syntax.LocalVariables) :
    (locals scope l).Repeats l.repeats := by
  refine (repeats_reading fun env => ?_).silent fun r =>
    (repeats_declareAll scope _).bind_pure _
  simp [Syntax.LocalVariables.repeats, repeated_typeExpr, repeated_localInitializer]

mutual

theorem repeats_stmt (ctx : ReturnContext) (scope : ScopeId) :
    ∀ s : Syntax.Stmt, (stmt ctx scope s).Repeats s.repeats
  | .nop _ => by
    rw [stmt, Syntax.Stmt.repeats]
    exact repeats_pure _
  | .expr e => by
    rw [stmt, Syntax.Stmt.repeats]
    refine repeats_reading fun env => ?_
    rw [pick_expressionStmt, repeated_expr]
  | .assignment a => by
    rw [stmt, Syntax.Stmt.repeats]
    refine repeats_reading fun env => ?_
    rw [pick_assignment, repeated_lvalue, repeated_expr]
  | .returns r => by
    rw [stmt, Syntax.Stmt.repeats]
    refine repeats_reading fun env => ?_
    rw [pick_returnStmt, repeated_optional]
  | .routine _ call => by
    rw [stmt, Syntax.Stmt.repeats]
    exact (repeats_reading fun env => repeated_routineArgs env call).bind_pure _
  | .directive d => by
    rw [stmt, Syntax.Stmt.repeats]
    exact (repeats_reading fun env => repeated_directive env d).bind_pure _
  | .alternative _ first others none => by
    rw [stmt, Syntax.Stmt.repeats]
    refine (repeats_clause ctx scope first).bind fun _ => ?_
    exact (repeats_clauses ctx scope others).bind_pure _
  | .alternative _ first others (some body) => by
    rw [stmt, Syntax.Stmt.repeats]
    refine (repeats_clause ctx scope first).bind fun _ => ?_
    refine (repeats_clauses ctx scope others).bind fun _ => ?_
    exact (repeats_block fun s => repeats_stmts ctx s body).bind_pure _
  | .loop _ _ cond body => by
    rw [stmt, Syntax.Stmt.repeats]
    refine (repeats_reading fun env => repeated_checkedExpr env _ cond).bind fun _ => ?_
    exact (repeats_block fun s => repeats_stmts ctx s body).bind_pure _
  | .forLoop _ variant start stop step body => by
    rw [stmt, Syntax.Stmt.repeats]
    refine Repeats.bind (repeats_reading fun env => ?_) fun _ =>
      (repeats_block fun s => repeats_stmts ctx s body).bind_pure _
    simp only [pick_forHeader, repeated_lvalue, repeated_expr, repeated_optional]
  | .locals l => by
    rw [stmt, Syntax.Stmt.repeats]
    exact repeats_locals scope l
  | .switch _ e cases => by
    rw [stmt, Syntax.Stmt.repeats]
    refine Repeats.bind (repeats_reading fun env => ?_) fun _ =>
      (repeats_switchCases ctx scope _ cases).bind_pure _
    rw [pick_scrutinee, repeated_expr]

theorem repeats_clause (ctx : ReturnContext) (scope : ScopeId) :
    ∀ c : Syntax.Clause, (clause ctx scope c).Repeats c.repeats
  | ⟨_, cond, body⟩ => by
    rw [clause, Syntax.Clause.repeats]
    refine (repeats_reading fun env => repeated_checkedExpr env _ cond).bind fun _ => ?_
    exact (repeats_block fun s => repeats_stmts ctx s body).bind_pure _

theorem repeats_clauses (ctx : ReturnContext) (scope : ScopeId) :
    ∀ cs : List Syntax.Clause, (clauses ctx scope cs).Repeats (Syntax.clauseRepeats cs)
  | [] => repeats_pure _
  | c :: rest => by
    rw [clauses, Syntax.clauseRepeats]
    refine (repeats_clause ctx scope c).bind fun _ => ?_
    exact (repeats_clauses ctx scope rest).bind_pure _

theorem repeats_switchCases (ctx : ReturnContext) (scope : ScopeId) (type : Ty) :
    ∀ cs : List Syntax.Case, (switchCases ctx scope type cs).Repeats (Syntax.caseRepeats cs)
  | [] => repeats_pure _
  | ⟨span, value, body⟩ :: rest => by
    rw [switchCases, Syntax.caseRepeats]
    refine (repeats_reading fun env =>
      repeated_caseValue env type rest.isEmpty span value).bind fun _ => ?_
    refine (repeats_block fun s => repeats_stmts ctx s body).bind fun _ => ?_
    exact (repeats_switchCases ctx scope type rest).bind_pure _

theorem repeats_stmts (ctx : ReturnContext) (scope : ScopeId) :
    ∀ ss : List Syntax.Stmt, (stmts ctx scope ss).Repeats (Syntax.stmtRepeats ss)
  | [] => repeats_pure _
  | s :: rest => by
    rw [stmts, Syntax.stmtRepeats]
    refine (repeats_stmt ctx scope s).bind fun _ => ?_
    exact (repeats_stmts ctx scope rest).bind_pure _

end

theorem repeats_decl (mainSeen : Bool) (scope : ScopeId) (d : Syntax.Decl) :
    (decl mainSeen scope d).Repeats d.repeats := by
  cases d with
  | constant c =>
    exact (repeats_reading fun env => repeated_constantValue env c).silent fun _ =>
      (repeats_bindAt _ _).bind_pure _
  | typeAlias a =>
    exact (repeats_reading fun env => repeated_typeExpr env a.target).silent fun _ =>
      (repeats_bindAt _ _).bind_pure _
  | main span body =>
    have hbody : (block scope span (stmts .main · body)).Repeats (Syntax.stmtRepeats body) :=
      repeats_block fun s => repeats_stmts .main s body
    rw [decl]
    dsimp only
    split
    · exact (repeats_lift rfl).bind fun _ => hbody.bind_pure _
    · exact hbody.bind_pure _
  | forward s =>
    exact (repeats_reading fun env => repeated_signature env s).silent fun _ =>
      (repeats_bindAt _ _).bind_pure _
  | definition span s body =>
    refine (repeats_reading fun env => repeated_signature env s).bind fun signature => ?_
    refine (repeats_bindAt _ _).bind fun _ => ?_
    refine Repeats.bind_pure (repeats_block fun inner => ?_) _
    exact (repeats_declareAll inner _).bind fun _ => repeats_stmts _ inner body
  | directive d => exact (repeats_reading fun env => repeated_directive env d).bind_pure _

theorem repeats_decls (mainSeen : Bool) (scope : ScopeId) (ds : List Syntax.Decl) :
    (decls mainSeen scope ds).Repeats (ds.flatMap Syntax.Decl.repeats) := by
  induction ds generalizing mainSeen with
  | nil => exact repeats_pure _
  | cons d rest ih =>
    rw [List.flatMap_cons]
    exact (repeats_decl mainSeen scope d).bind fun _ => (ih _).bind_pure _

/-- **Repeated component names are reported once each.** -/
theorem repeats_algorithm (a : Syntax.Algorithm) : (algorithm a).Repeats a.repeats := by
  refine (repeats_reading fun env => repeated_directives env a.leading).bind fun _ => ?_
  refine (repeats_decls false ScopeTable.root a.decls).silent fun _ => ?_
  exact (repeats_reading fun env => silent_undefinedCallables _).bind_pure _

end Analysis

end Pseudocode
