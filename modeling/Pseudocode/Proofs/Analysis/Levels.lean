import Pseudocode.Proofs.Analysis.Emission

/-!
# Who reports what

Causes have levels. The lowest one is reported by expressions, initializers and directives, the next
by statements that only read the scopes, the next by statements that bind local variables, the next
by declarations, and the highest only once all declarations have been analysed. An analysis is
`Bounded` by a level if it reports nothing above it.
-/

namespace Pseudocode

namespace Event

/-- The finding, if its cause is of the given sort. -/
def found? (p : Cause → Bool) : Event → Option Finding
  | .found f => if p f.cause then some f else none
  | _ => none

theorem findings_filter {p : Cause → Bool} (hp : ∀ advice, p (.notConstant advice) = false)
    (overflows : List Span) (es : List Event) :
    (findings overflows es).filter (p ·.cause) = es.filterMap (found? p) := by
  fun_induction findings overflows es with
  | case1 => rfl
  | case2 overflows finding rest ih => cases h : p finding.cause <;> simp [found?, h, ih]
  | case3 overflows span rest ih =>
    rw [List.filter_cons_of_neg (by simp [hp])]
    exact ih
  | case4 overflows span rest ih => exact ih
  | case5 overflows id type rest ih => exact ih

/-- The finding, if it is above the level. -/
def above? (n : Nat) : Event → Option Finding := found? fun cause => n < cause.level

theorem ignores_found? {p : Cause → Bool} {topic : Topic}
    (h : ∀ cause : Cause, p cause = true → cause.level ≠ topic.level) :
    Ignores (found? p) topic where
  eq_none e he := by
    cases e with
    | found f =>
      refine if_neg fun hf => h f.cause hf ?_
      rw [← f.cause.level_topic, show f.cause.topic = topic from he]
    | notConstant | overflow | typed => rfl

theorem above?_eq_none_iff {n : Nat} {e : Event} :
    e.above? n = none ↔ ∀ f, e = .found f → f.cause.level ≤ n := by
  cases e with
  | found f => simp [above?, found?]
  | notConstant | overflow | typed => simp [above?, found?]

section Ignores

variable {n : Nat}

theorem ignores_above? {topic : Topic} (h : topic.level ≤ n) : Ignores (above? n) topic :=
  ignores_found? fun _ hcause => Nat.ne_of_gt (Nat.lt_of_le_of_lt h (of_decide_eq_true hcause))

instance : Ignores (above? n) (.finding 0) := ignores_above? (Nat.zero_le n)

instance : Ignores (above? n) .repetition := ignores_above? (Nat.zero_le n)

instance : Ignores (above? n) .constancy := ignores_above? (Nat.zero_le n)

instance : Ignores (above? n) .typing := ignores_above? (Nat.zero_le n)

end Ignores

end Event

namespace Traced

variable {α β : Type} {n m : Nat}

/-- Nothing above the level `n` is found. -/
abbrev Bounded (n : Nat) (x : Traced α) : Prop := x.Silent (Event.above? n)

theorem Bounded.level_le {x : Traced α} (hx : Bounded n x) {f : Finding}
    (hf : .found f ∈ x.events) : f.cause.level ≤ n :=
  Event.above?_eq_none_iff.mp (silent_iff.mp hx _ hf) f rfl

theorem Bounded.mono {x : Traced α} (hx : Bounded n x) (h : n ≤ m) : Bounded m x := by
  refine silent_iff.mpr fun e he => Event.above?_eq_none_iff.mpr ?_
  rintro f rfl
  exact Nat.le_trans (hx.level_le he) h

theorem Bounded.silent_found? {x : Traced α} (hx : Bounded n x) {p : Cause → Bool}
    (hp : ∀ cause, p cause = true → n < cause.level) : x.Silent (Event.found? p) := by
  refine silent_iff.mpr fun e he => ?_
  cases e with
  | found f =>
    refine if_neg fun hf => ?_
    exact Nat.not_lt_of_le (hx.level_le he) (hp f.cause hf)
  | notConstant | overflow | typed => rfl

theorem silent_report_found? {p : Cause → Bool} {cause : Cause} {span : Span}
    (h : p cause = false) : (report cause span).Silent (Event.found? p) := by
  refine silent_iff.mpr fun e he => ?_
  obtain rfl := List.mem_singleton.mp he
  exact if_neg (ne_true_of_eq_false h)

theorem bounded_report {cause : Cause} {span : Span} (h : cause.level = n) :
    Bounded n (report cause span) :=
  silent_report_found? (decide_eq_false (Nat.not_lt_of_le (Nat.le_of_eq h)))

theorem bounded_report_bind {cause : Cause} {span : Span} {g : Unit → Traced β}
    (hg : Bounded n (g ())) (h : cause.level = n) : Bounded n (report cause span >>= g) :=
  Silent.bind (bounded_report h) fun _ => hg

end Traced

open Traced

/-! ### Expressions -/

namespace Analysis

mutual

theorem bounded_expr (env : Env) : ∀ e : Syntax.Expr, Bounded 0 (expr env e)
  | ⟨_, _, .literal _⟩ => by
    rw [expr]
    exact silent_finish ..
  | ⟨_, _, .paren inner⟩ => by
    rw [expr]
    exact (bounded_expr env inner).bind fun _ => silent_finish ..
  | ⟨_, _, .binary _ left right⟩ => by
    rw [expr]
    refine (bounded_expr env left).bind fun _ => ?_
    refine (bounded_expr env right).bind fun _ => ?_
    exact (Check.silent_binary ..).bind fun _ => silent_finish ..
  | ⟨_, _, .unary _ operand⟩ => by
    rw [expr]
    refine (bounded_expr env operand).bind fun _ => ?_
    exact (Check.silent_unary ..).bind fun _ => silent_finish ..
  | ⟨_, _, .call _ args⟩ => by
    rw [expr]
    refine (bounded_arguments env args).bind fun _ => ?_
    exact (Check.silent_call ..).bind fun _ => silent_finish ..
  | ⟨_, _, .endOfFile file⟩ => by
    rw [expr]
    refine (bounded_expr env file).bind fun _ => ?_
    exact (Check.silent_convertible ..).bind fun _ => silent_finish ..
  | ⟨_, _, .cast target value⟩ => by
    rw [expr]
    refine (bounded_typeExpr env target).bind fun _ => ?_
    refine (bounded_expr env value).bind fun _ => ?_
    exact (Check.silent_cast ..).bind fun _ => silent_finish ..
  | ⟨_, _, .lvalue value⟩ => by
    rw [expr]
    refine (bounded_lvalue env value).bind fun _ => ?_
    exact (silent_typed ..).bind fun _ => silent_pure _

theorem bounded_lvalue (env : Env) : ∀ l : Syntax.Lvalue, Bounded 0 (lvalue env l)
  | ⟨_, _, .name _⟩ => by
    rw [lvalue]
    exact (Check.silent_name ..).bind fun _ => silent_finish ..
  | ⟨_, _, .subscript array index⟩ => by
    rw [lvalue]
    refine (bounded_expr env array).bind fun _ => ?_
    refine (bounded_expr env index).bind fun _ => ?_
    exact (Check.silent_subscript ..).bind fun _ => silent_finish ..
  | ⟨_, _, .component base _⟩ => by
    rw [lvalue]
    refine (bounded_expr env base).bind fun _ => ?_
    exact (Check.silent_component ..).bind fun _ => silent_finish ..

theorem bounded_arguments (env : Env) :
    ∀ args : List Syntax.Argument, Bounded 0 (arguments env args)
  | [] => silent_pure _
  | ⟨_, _, value⟩ :: rest => by
    rw [arguments]
    refine (bounded_expr env value).bind fun _ => ?_
    exact (bounded_arguments env rest).bind fun _ => silent_pure _

theorem bounded_typeExpr (env : Env) : ∀ t : Syntax.TypeExpr, Bounded 0 (typeExpr env t)
  | ⟨_, .boolean⟩ | ⟨_, .character⟩ | ⟨_, .integer⟩ | ⟨_, .real⟩ | ⟨_, .file⟩ | ⟨_, .string⟩ => by
    rw [typeExpr]
    exact silent_pure _
  | ⟨_, .boundedString length⟩ => by
    rw [typeExpr]
    refine (bounded_expr env length).bind fun _ => ?_
    refine (Check.silent_length _).bind fun n => ?_
    cases n <;> exact silent_pure _
  | ⟨_, .named name⟩ => by
    rw [typeExpr]
    split
    · exact silent_pure _
    · exact bounded_report_bind (silent_pure _) rfl
  | ⟨_, .array item lengths⟩ => by
    rw [typeExpr]
    refine (bounded_typeExpr env item).bind fun _ => ?_
    refine (bounded_arrayLengths env lengths).bind fun ns => ?_
    cases ns <;> exact silent_pure _
  | ⟨_, .struct components⟩ => by
    rw [typeExpr]
    exact (bounded_structComponents env [] components).bind fun _ => silent_pure _

theorem bounded_arrayLengths (env : Env) :
    ∀ lengths : List Syntax.Expr, Bounded 0 (arrayLengths env lengths)
  | [] => silent_pure _
  | e :: rest => by
    rw [arrayLengths]
    refine (bounded_expr env e).bind fun _ => ?_
    refine (Check.silent_length _).bind fun n => ?_
    refine (bounded_arrayLengths env rest).bind fun ns => ?_
    cases n <;> cases ns <;> exact silent_pure _

theorem bounded_structComponents (env : Env) (components : List (String × Ty)) :
    ∀ ds : List Syntax.ComponentDecl, Bounded 0 (structComponents env components ds)
  | [] => silent_pure _
  | ⟨_, names, type⟩ :: rest => by
    rw [structComponents]
    refine (bounded_typeExpr env type).bind fun type => ?_
    refine (Check.silent_addComponents type names components).bind fun components => ?_
    exact bounded_structComponents env components rest

end

theorem bounded_exprs (env : Env) (es : List Syntax.Expr) : Bounded 0 (exprs env es) := by
  induction es with
  | nil => exact silent_pure _
  | cons e rest ih =>
    exact (bounded_expr env e).bind fun _ => ih.bind fun _ => silent_pure _

/-! ### Directives and initializers -/

theorem bounded_assertionMessage (env : Env) (message : Option Syntax.Expr) :
    Bounded 0 (assertionMessage env message) :=
  (pick_assertionMessage env message).trans (bounded_exprs env message.toList)

theorem bounded_directive (env : Env) (d : Syntax.Directive) : Bounded 0 (directive env d) := by
  refine bounded_report_bind ?_ rfl
  split
  · refine (bounded_expr env _).bind fun condition => ?_
    refine (Check.silent_convertible ..).bind fun isBoolean => ?_
    refine (bounded_assertionMessage env _).bind fun message => ?_
    cases isBoolean with
    | false => exact silent_pure _
    | true => exact (silent_assertion ..).bind fun _ => silent_pure _
  · refine (bounded_expr env _).bind fun _ => ?_
    exact bounded_report_bind (silent_pure _) rfl
  · refine (bounded_typeExpr env _).bind fun _ => ?_
    exact bounded_report_bind (silent_pure _) rfl

theorem bounded_directives (env : Env) (ds : List Syntax.Directive) :
    Bounded 0 (directives env ds) := by
  induction ds with
  | nil => exact silent_pure _
  | cons d rest ih =>
    exact (bounded_directive env d).bind fun _ => ih.bind fun _ => silent_pure _

theorem bounded_designator (env : Env) (d : Syntax.Designator) : Bounded 0 (designator env d) := by
  unfold designator
  split
  · exact (bounded_expr env _).bind fun _ => silent_pure _
  · exact silent_pure _

theorem bounded_designators (env : Env) (ds : List Syntax.Designator) :
    Bounded 0 (designators env ds) := by
  induction ds with
  | nil => exact silent_pure _
  | cons d rest ih =>
    exact (bounded_designator env d).bind fun _ => ih.bind fun _ => silent_pure _

theorem bounded_follow (env : Env) (place : Option (List Step × Ty))
    (ds : List Syntax.Designator) : Bounded 0 (follow env place ds) := by
  fun_induction follow env place ds with
  | case1 place => exact silent_pure _
  | case2 ds hds => exact (bounded_designators env ds).bind fun _ => silent_pure _
  | case3 steps type d rest ih =>
    refine (bounded_designator env d).bind fun node => ?_
    refine (silent_select type node).bind fun slot => ?_
    exact (ih slot).bind fun _ => silent_pure _

theorem bounded_position (env : Env) (target : Ty) (cursor : Option Path) (span : Span)
    (ds : List Syntax.Designator) : Bounded 0 (position env target cursor span ds) := by
  have hnext (next : Option Path) : Bounded 0 (do
      if next.isNone then
        Traced.report .excessItem span
      return (([] : List Semantic.Designator), next)) := by
    dsimp only
    split
    · exact bounded_report_bind (silent_pure _) rfl
    · exact silent_pure _
  unfold position
  split
  · exact hnext _
  · exact (bounded_follow env _ ds).bind fun _ => silent_pure _

mutual

theorem bounded_initializer (env : Env) (target : Ty) :
    ∀ init : Syntax.Initializer, Bounded 0 (initializer env target init)
  | .expr e => by
    rw [initializer]
    refine (bounded_expr env e).bind fun e => ?_
    exact (Check.silent_assignable e target).bind fun _ => silent_pure _
  | .braced ⟨span, items⟩ => by
    rw [initializer]
    split
    · exact (bounded_placedItems env target _ none items).bind fun _ => silent_pure _
    · refine silent_unless_bind (bounded_report rfl) ?_
      exact (bounded_freeItems env items).bind fun _ => silent_pure _

theorem bounded_placedItems (env : Env) (target : Ty) (aggregate : Value) (cursor : Option Path) :
    ∀ items : List Syntax.Item, Bounded 0 (placedItems env target aggregate cursor items)
  | [] => silent_pure _
  | .directive d :: rest => by
    rw [placedItems]
    refine (bounded_directive env d).bind fun _ => ?_
    exact (bounded_placedItems env target aggregate cursor rest).bind fun _ => silent_pure _
  | .value ⟨span, designators, value⟩ :: rest => by
    rw [placedItems]
    refine (bounded_position env target cursor span designators).bind fun p => ?_
    refine (bounded_initializer env _ value).bind fun value => ?_
    exact (bounded_placedItems env target _ _ rest).bind fun _ => silent_pure _

theorem bounded_freeItems (env : Env) :
    ∀ items : List Syntax.Item, Bounded 0 (freeItems env items)
  | [] => silent_pure _
  | .directive d :: rest => by
    rw [freeItems]
    refine (bounded_directive env d).bind fun _ => ?_
    exact (bounded_freeItems env rest).bind fun _ => silent_pure _
  | .value ⟨_, designators, value⟩ :: rest => by
    rw [freeItems]
    refine (bounded_designators env designators).bind fun _ => ?_
    refine (bounded_initializer env _ value).bind fun _ => ?_
    exact (bounded_freeItems env rest).bind fun _ => silent_pure _

end

/-! ### Parts of statements -/

theorem bounded_checkedExpr (env : Env) (target : Ty) (e : Syntax.Expr) :
    Bounded 0 (checkedExpr env target e) :=
  (pick_checkedExpr env target e).trans (bounded_expr env e)

theorem bounded_checkedExpr? (env : Env) (target : Ty) (e : Option Syntax.Expr) :
    Bounded 0 (checkedExpr? env target e) :=
  (pick_checkedExpr? env target e).trans (bounded_exprs env e.toList)

theorem bounded_expressionStmt (env : Env) (e : Syntax.Expr) :
    Bounded 1 (expressionStmt env e) := by
  refine Silent.bind ((bounded_expr env e).mono (Nat.zero_le 1)) fun e => ?_
  exact silent_unless_bind (bounded_report rfl) (silent_pure _)

theorem bounded_assignedValue (env : Env) (a : Syntax.Assignment) (target : Semantic.Expr) :
    Bounded 0 (do
      let value ← expr env a.value
      Check.assignable value target.type
      return Semantic.Stmt.assignment (env.site a.span) target value) := by
  refine (bounded_expr env a.value).bind fun value => ?_
  exact (Check.silent_assignable value target.type).bind fun _ => silent_pure _

theorem bounded_assignment (env : Env) (a : Syntax.Assignment) : Bounded 1 (assignment env a) := by
  refine Silent.bind ((bounded_lvalue env a.target).mono (Nat.zero_le 1)) fun target => ?_
  have hvalue := (bounded_assignedValue env a target).mono (Nat.zero_le 1)
  dsimp only
  split
  · exact bounded_report_bind hvalue rfl
  · exact hvalue

theorem bounded_routineArgs (env : Env) (call : Syntax.RoutineCall) :
    Bounded 0 (routineArgs env call) := by
  cases call with
  | assign file name =>
    refine (bounded_lvalue env file).bind fun _ => ?_
    refine (Check.silent_convertible ..).bind fun _ => ?_
    exact (bounded_checkedExpr ..).bind fun _ => silent_pure _
  | write file value =>
    refine (bounded_checkedExpr ..).bind fun _ => ?_
    exact (bounded_expr env value).bind fun _ => silent_pure _
  | print values => exact bounded_exprs env values
  | read file target =>
    refine (bounded_checkedExpr ..).bind fun _ => ?_
    exact (bounded_lvalue env target).bind fun _ => silent_pure _
  | readKey target => exact (bounded_lvalue env target).bind fun _ => silent_pure _
  | close file | openAppend file | openWrite file | openRead file =>
    exact (bounded_checkedExpr ..).bind fun _ => silent_pure _

theorem bounded_forHeader (env : Env) (variant : Syntax.Lvalue) (start stop : Syntax.Expr)
    (step : Option Syntax.Expr) : Bounded 0 (forHeader env variant start stop step) := by
  refine (bounded_lvalue env variant).bind fun variant => ?_
  refine (bounded_expr env start).bind fun start => ?_
  refine (Check.silent_assignable start variant.type).bind fun _ => ?_
  refine (bounded_checkedExpr env variant.type stop).bind fun _ => ?_
  exact (bounded_checkedExpr? env variant.type step).bind fun _ => silent_pure _

theorem bounded_returnedValue (env : Env) (e : Option Syntax.Expr) :
    Bounded 0 (returnedValue env e) := by
  cases e with
  | none => exact silent_pure none
  | some e => exact (bounded_expr env e).bind fun _ => silent_pure _

theorem bounded_returnStmt (ctx : ReturnContext) (env : Env) (r : Syntax.Return) :
    Bounded 1 (returnStmt ctx env r) := by
  refine Silent.bind ((bounded_returnedValue env r.value).mono (Nat.zero_le 1)) fun value => ?_
  dsimp only
  split
  · exact bounded_report_bind (silent_pure _) rfl
  · exact (Check.silent_convertible ..).bind fun _ => silent_pure _
  · exact silent_unless_bind (bounded_report rfl) (silent_pure _)

theorem bounded_scrutinee (env : Env) (e : Syntax.Expr) : Bounded 1 (scrutinee env e) := by
  refine Silent.bind ((bounded_expr env e).mono (Nat.zero_le 1)) fun e => ?_
  dsimp only
  split
  · exact bounded_report_bind (silent_pure e) rfl
  · exact silent_pure e

theorem bounded_caseValue (env : Env) (type : Ty) (isLast : Bool) (span : Span)
    (e : Option Syntax.Expr) : Bounded 1 (caseValue env type isLast span e) := by
  cases e with
  | some e =>
    refine Bounded.mono ?_ (Nat.zero_le 1)
    refine (bounded_checkedExpr env type e).bind fun _ => ?_
    exact (Check.silent_constant ..).bind fun _ => silent_pure _
  | none => exact silent_unless_bind (bounded_report rfl) (silent_pure none)

theorem bounded_localInitializer (env : Env) (type : Ty) (init : Option Syntax.Initializer) :
    Bounded 2 (localInitializer env type init) := by
  cases init with
  | none => exact silent_pure none
  | some init =>
    refine Silent.bind ((bounded_initializer env type init).mono (Nat.zero_le 2)) fun _ => ?_
    exact silent_unless_bind (bounded_report rfl) (silent_pure _)

/-! ### Parts of declarations -/

theorem bounded_parameters (env : Env) (ps : List Syntax.FormalParameter) :
    Bounded 0 (parameters env ps) := by
  induction ps with
  | nil => exact silent_pure _
  | cons p rest ih =>
    exact (bounded_typeExpr env p.type).bind fun _ => ih.bind fun _ => silent_pure _

theorem bounded_signature (env : Env) (s : Syntax.Signature) : Bounded 0 (signature env s) := by
  refine (bounded_parameters env s.parameters).bind fun _ => ?_
  refine Silent.bind ?_ fun _ => silent_pure _
  cases s.returnType with
  | none => exact silent_pure _
  | some type => exact bounded_typeExpr env type

theorem bounded_constantValue (env : Env) (c : Syntax.ConstantDecl) :
    Bounded 0 (constantValue env c) := by
  refine (bounded_typeExpr env c.type).bind fun type => ?_
  refine (bounded_initializer env type c.value).bind fun init => ?_
  exact (Check.silent_constant ..).bind fun _ => silent_pure _

end Analysis

/-! ### Analyses that change the scopes -/

namespace Analyzer

variable {α : Type} {n m : Nat}

abbrev Bounded (n : Nat) (x : Analyzer α) : Prop := x.Silent (Event.above? n)

theorem Bounded.mono {x : Analyzer α} (hx : Bounded n x) (h : n ≤ m) : Bounded m x :=
  fun t => Traced.Bounded.mono (hx t) h

theorem bounded_reading_le {scope : ScopeId} {g : Env → Traced α}
    (h : ∀ env, Traced.Bounded m (g env)) (hle : m ≤ n := by decide) :
    Bounded n (reading scope g) := Bounded.mono (silent_reading h) hle

theorem bounded_bindAt (span : Span) {operation : ScopeTable → Except DeclareError ScopeTable}
    (h : ∀ t error, operation t = .error error → (Cause.unbindable error).level = n) :
    Bounded n (bindAt span operation) :=
  silent_bindAt span fun t error herror => Traced.bounded_report (h t error herror)

/-- Only a callable is refused as a callable. -/
theorem bounded_declare (scope : ScopeId) {symbol : Symbol} (h : symbol.callable? = none) :
    Bounded 2 (declare scope symbol) := by
  refine bounded_bindAt _ fun t error herror => ?_
  unfold ScopeTable.declare at herror
  split at herror
  · cases herror
    cases symbol with
    | callable c => cases h
    | localVariable | constant | parameter | typeAlias => rfl
  · cases herror

theorem bounded_declareAll (scope : ScopeId) {symbols : List Symbol}
    (h : ∀ s ∈ symbols, s.callable? = none) : Bounded 2 (declareAll scope symbols) := by
  induction symbols with
  | nil => exact silent_pure ()
  | cons s rest ih =>
    refine (bounded_declare scope (h s List.mem_cons_self)).bind fun _ => ?_
    exact ih fun s hs => h s (List.mem_cons_of_mem _ hs)

end Analyzer

namespace Analysis

open Analyzer (reading declareAll block)

theorem bounded_locals (scope : ScopeId) (l : Syntax.LocalVariables) :
    (locals scope l).Bounded 2 := by
  refine Analyzer.Silent.bind (Analyzer.silent_reading fun env => ?_) fun r => ?_
  · refine Silent.bind ((bounded_typeExpr env l.type).mono (Nat.zero_le 2)) fun type => ?_
    exact (bounded_localInitializer env type l.initializer).bind fun _ => silent_pure _
  · refine Analyzer.Silent.bind (Analyzer.bounded_declareAll scope ?_) fun _ =>
      Analyzer.silent_pure _
    intro s hs
    obtain ⟨name, -, rfl⟩ := List.mem_map.mp hs
    rfl

mutual

theorem bounded_stmt (ctx : ReturnContext) (scope : ScopeId) :
    ∀ s : Syntax.Stmt, (stmt ctx scope s).Bounded 2
  | .nop _ => by
    rw [stmt]
    exact Analyzer.silent_pure _
  | .expr e => by
    rw [stmt]
    exact Analyzer.bounded_reading_le fun env => bounded_expressionStmt env e
  | .assignment a => by
    rw [stmt]
    exact Analyzer.bounded_reading_le fun env => bounded_assignment env a
  | .returns r => by
    rw [stmt]
    exact Analyzer.bounded_reading_le fun env => bounded_returnStmt ctx env r
  | .routine _ call => by
    rw [stmt]
    refine (Analyzer.bounded_reading_le fun env => bounded_routineArgs env call).bind fun _ => ?_
    exact Analyzer.silent_pure _
  | .directive d => by
    rw [stmt]
    refine (Analyzer.bounded_reading_le fun env => bounded_directive env d).bind fun _ => ?_
    exact Analyzer.silent_pure _
  | .alternative _ first others none => by
    rw [stmt]
    refine (bounded_clause ctx scope first).bind fun _ => ?_
    exact (bounded_clauses ctx scope others).bind fun _ => Analyzer.silent_pure _
  | .alternative span first others (some body) => by
    rw [stmt]
    refine (bounded_clause ctx scope first).bind fun _ => ?_
    refine (bounded_clauses ctx scope others).bind fun _ => ?_
    have hbody := Analyzer.silent_block scope span fun s => bounded_stmts ctx s body
    exact hbody.bind fun _ => Analyzer.silent_pure _
  | .loop span _ cond body => by
    rw [stmt]
    refine (Analyzer.bounded_reading_le fun env =>
      bounded_checkedExpr env _ cond).bind fun _ => ?_
    have hbody := Analyzer.silent_block scope span fun s => bounded_stmts ctx s body
    exact hbody.bind fun _ => Analyzer.silent_pure _
  | .forLoop span variant start stop step body => by
    rw [stmt]
    refine (Analyzer.bounded_reading_le fun env =>
      bounded_forHeader env variant start stop step).bind fun _ => ?_
    have hbody := Analyzer.silent_block scope span fun s => bounded_stmts ctx s body
    exact hbody.bind fun _ => Analyzer.silent_pure _
  | .locals l => by
    rw [stmt]
    exact bounded_locals scope l
  | .switch _ e cases => by
    rw [stmt]
    refine (Analyzer.bounded_reading_le fun env => bounded_scrutinee env e).bind fun _ => ?_
    exact (bounded_switchCases ctx scope _ cases).bind fun _ => Analyzer.silent_pure _

theorem bounded_clause (ctx : ReturnContext) (scope : ScopeId) :
    ∀ c : Syntax.Clause, (clause ctx scope c).Bounded 2
  | ⟨span, cond, body⟩ => by
    rw [clause]
    refine (Analyzer.bounded_reading_le fun env =>
      bounded_checkedExpr env _ cond).bind fun _ => ?_
    have hbody := Analyzer.silent_block scope span fun s => bounded_stmts ctx s body
    exact hbody.bind fun _ => Analyzer.silent_pure _

theorem bounded_clauses (ctx : ReturnContext) (scope : ScopeId) :
    ∀ cs : List Syntax.Clause, (clauses ctx scope cs).Bounded 2
  | [] => Analyzer.silent_pure _
  | c :: rest => by
    rw [clauses]
    refine (bounded_clause ctx scope c).bind fun _ => ?_
    exact (bounded_clauses ctx scope rest).bind fun _ => Analyzer.silent_pure _

theorem bounded_switchCases (ctx : ReturnContext) (scope : ScopeId) (type : Ty) :
    ∀ cs : List Syntax.Case, (switchCases ctx scope type cs).Bounded 2
  | [] => Analyzer.silent_pure _
  | ⟨span, value, body⟩ :: rest => by
    rw [switchCases]
    refine (Analyzer.bounded_reading_le fun env =>
      bounded_caseValue env type rest.isEmpty span value).bind fun _ => ?_
    have hbody := Analyzer.silent_block scope span fun s => bounded_stmts ctx s body
    refine hbody.bind fun _ => ?_
    exact (bounded_switchCases ctx scope type rest).bind fun _ => Analyzer.silent_pure _

theorem bounded_stmts (ctx : ReturnContext) (scope : ScopeId) :
    ∀ ss : List Syntax.Stmt, (stmts ctx scope ss).Bounded 2
  | [] => Analyzer.silent_pure _
  | s :: rest => by
    rw [stmts]
    refine (bounded_stmt ctx scope s).bind fun _ => ?_
    exact (bounded_stmts ctx scope rest).bind fun _ => Analyzer.silent_pure _

end

end Analysis

end Pseudocode
