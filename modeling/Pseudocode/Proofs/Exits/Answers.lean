import Mathlib.Data.List.Forall2
import Pseudocode.Proofs.Analysis.Lifecycle
import Pseudocode.Proofs.Exits.Muting

/-!
# Every return statement answers to its own callable

The analysis of a program and that of the muted program go side by side. They come to the same
scopes, and leave the same behind but for the complaints about return statements, which the first
one makes as it meets them. `Mutes` relates the two analyses of a piece of syntax.
-/

namespace Pseudocode

open Semantic (Exit)

/-! ### Reports about return statements -/

/-- The cause is reported by return statements only. -/
def Cause.isReturn : Cause → Bool
  | .returnOutsideBody | .returnWithoutValue _ => true
  | _ => false

theorem Cause.level_of_isReturn {cause : Cause} (h : cause.isReturn = true) : cause.level = 1 := by
  unfold isReturn at h
  split at h
  · rfl
  · rfl
  · cases h

/-- The finding, if only a return statement reports it. -/
def Event.returning? : Event → Option Finding := found? Cause.isReturn

instance : Event.Ignores Event.returning? (.finding 4) :=
  Event.ignores_found? fun cause h => by
    rw [Cause.level_of_isReturn h]
    decide

namespace Traced

variable {α : Type}

/-- Nothing is found that only a return statement reports. -/
abbrev Unreturning (x : Traced α) : Prop := x.Silent Event.returning?

theorem Unreturning.isReturn_eq {x : Traced α} (hx : x.Unreturning) {f : Finding}
    (hf : .found f ∈ x.events) : f.cause.isReturn = false := by
  simpa [Event.returning?, Event.found?] using silent_iff.mp hx _ hf

theorem unreturning_report {cause : Cause} {span : Span} (h : cause.isReturn = false) :
    (report cause span).Unreturning :=
  silent_report_found? h

theorem unreturning_report_bind {cause : Cause} {span : Span} {k : Unit → Traced α}
    (hk : (k ()).Unreturning) (h : cause.isReturn = false) :
    (report cause span >>= k).Unreturning :=
  Silent.bind (unreturning_report h) fun _ => hk

theorem Bounded.unreturning {x : Traced α} (h : x.Bounded 0) : x.Unreturning := by
  refine h.silent_found? fun cause hcause => ?_
  rw [Cause.level_of_isReturn hcause]
  decide

end Traced

namespace Event

/-- A complaint is found where it is made, and changes no other finding. -/
theorem merges_findings {complaints : List Finding} {es es' : List Event}
    (h : Merges (complaints.map .found) es es') (overflows : List Span) :
    Merges complaints (findings overflows es) (findings overflows es') := by
  generalize hfound : complaints.map found = found at h
  induction h generalizing complaints overflows with
  | nil =>
    obtain rfl := List.map_eq_nil_iff.mp hfound
    exact .nil
  | left _ ih =>
    obtain ⟨complaint, rest, rfl, rfl, hrest⟩ := List.map_eq_cons_iff.mp hfound
    exact (ih overflows hrest).left
  | @right e _ _ _ _ ih =>
    cases e with
    | found | notConstant => exact (ih overflows hfound).right
    | overflow span => exact ih (span :: overflows) hfound
    | typed => exact ih overflows hfound

theorem types_of_merges {complaints : List Finding} {es es' : List Event}
    (h : Merges (complaints.map .found) es es') : types es' = types es := by
  generalize hfound : complaints.map found = found at h
  induction h generalizing complaints with
  | nil => rfl
  | left _ ih =>
    obtain ⟨complaint, rest, rfl, rfl, hrest⟩ := List.map_eq_cons_iff.mp hfound
    exact ih hrest
  | @right e _ _ _ _ ih =>
    have hrest := ih hfound
    cases e with
    | found | notConstant | overflow => exact hrest
    | typed id type => exact congrArg ((id, type) :: ·) hrest

end Event

/-! ### Two analyses side by side -/

/-- Analysed where it stands, `r` has become the exit `x`, which has to return something of the
given type. -/
structure Becomes (expected : Ty) (r : Syntax.Return) (x : Exit) : Prop where
  expected_eq : x.expected = expected
  span_eq : x.site.span = r.span
  value_eq : ∃ table, x.value = (Analysis.returnedValue ⟨table, x.site.scope⟩ r.value).result

/-- The reports that the exits give rise to. -/
def complaints (exits : List Exit) : List Finding := exits.filterMap Exit.complaint?

theorem complaints_append (xs ys : List Exit) :
    complaints (xs ++ ys) = complaints xs ++ complaints ys := List.filterMap_append

namespace Traced

variable {α β γ δ : Type} {expected : Ty} {rs rs' : List Syntax.Return} {before : List Exit}
  {exits : α → List Exit} {exits' : γ → List Exit}

/-- The two analyses lead to the same scopes, and the events of the first one are those of the
second one with complaints about exits among them. The exits are those that the result has on top of
`before`, and the return statements `rs` have become them. -/
structure Mutes (expected : Ty) (rs : List Syntax.Return) (before : List Exit)
    (exits : α → List Exit) (x : Traced (α × ScopeTable)) (y : Traced (β × ScopeTable)) :
    Prop where
  scopes_eq : y.result.2 = x.result.2
  unreturning : y.Unreturning
  exists_exits : ∃ own, exits x.result.1 = before ++ own ∧
    List.Forall₂ (Becomes expected) rs own ∧
    Merges ((complaints own).map .found) y.events x.events

theorem Mutes.bind {x : Traced (α × ScopeTable)} {y : Traced (β × ScopeTable)}
    {k : α × ScopeTable → Traced (γ × ScopeTable)} {l : β × ScopeTable → Traced (δ × ScopeTable)}
    (h : x.Mutes expected rs before exits y)
    (hk : ∀ a b t, (k (a, t)).Mutes expected rs' (exits a) exits' (l (b, t))) :
    (x >>= k).Mutes expected (rs ++ rs') before exits' (y >>= l) := by
  obtain ⟨own, hown, hrs, hmerges⟩ := h.exists_exits
  have hrest := hk x.result.1 y.result.1 x.result.2
  have hy : (y.result.1, x.result.2) = y.result := by rw [← h.scopes_eq]
  rw [hy] at hrest
  obtain ⟨own', hown', hrs', hmerges'⟩ := hrest.exists_exits
  refine ⟨hrest.scopes_eq, h.unreturning.bind_result hrest.unreturning, own ++ own', ?_, ?_, ?_⟩
  · rw [← List.append_assoc, ← hown]
    exact hown'
  · exact List.rel_append hrs hrs'
  · rw [complaints_append, List.map_append]
    exact hmerges.append hmerges'

/-- What comes first is the same in both analyses. -/
theorem Mutes.after {x : Traced α} {k : α → Traced (γ × ScopeTable)}
    {l : α → Traced (δ × ScopeTable)} (hx : x.Unreturning)
    (hk : (k x.result).Mutes expected rs before exits' (l x.result)) :
    (x >>= k).Mutes expected rs before exits' (x >>= l) := by
  obtain ⟨own, hown, hrs, hmerges⟩ := hk.exists_exits
  refine ⟨hk.scopes_eq, hx.bind_result hk.unreturning, own, hown, hrs, ?_⟩
  exact (merges_nil_left x.events).append hmerges

end Traced

namespace Analyzer

variable {α β γ δ : Type} {expected : Ty} {rs rs' : List Syntax.Return} {before : List Exit}
  {exits : α → List Exit} {exits' : γ → List Exit}

abbrev Unreturning (m : Analyzer α) : Prop := m.Silent Event.returning?

theorem unreturning_bindAt (span : Span)
    (operation : ScopeTable → Except DeclareError ScopeTable) :
    (bindAt span operation).Unreturning :=
  silent_bindAt span fun _ _ _ => Traced.unreturning_report rfl

theorem unreturning_declareAll (scope : ScopeId) (symbols : List Symbol) :
    (declareAll scope symbols).Unreturning := by
  induction symbols with
  | nil => exact silent_pure ()
  | cons s rest ih => exact (unreturning_bindAt _ _).bind fun _ => ih

def Mutes (expected : Ty) (rs : List Syntax.Return) (before : List Exit) (exits : α → List Exit)
    (m : Analyzer α) (n : Analyzer β) : Prop :=
  ∀ t : ScopeTable, (m t).Mutes expected rs before exits (n t)

theorem mutes_pure {a : α} (h : exits a = before) (b : β) :
    Mutes expected [] before exits (pure a) (pure b) := fun t =>
  { scopes_eq := rfl
    unreturning := silent_pure b t
    exists_exits := ⟨[], h.trans (List.append_nil before).symm, .nil, .nil⟩ }

theorem Mutes.bind {m : Analyzer α} {n : Analyzer β} {k : α → Analyzer γ} {l : β → Analyzer δ}
    (h : Mutes expected rs before exits m n)
    (hk : ∀ a b, Mutes expected rs' (exits a) exits' (k a) (l b)) :
    Mutes expected (rs ++ rs') before exits' (m >>= k) (n >>= l) := by
  intro t
  change Traced.Mutes expected _ before exits' (m t >>= fun p => k p.1 p.2)
    (n t >>= fun p => l p.1 p.2)
  exact (h t).bind hk

/-- The rule for a last step that puts the result in its place. -/
theorem Mutes.bind_pure {m : Analyzer α} {n : Analyzer β} (h : Mutes expected rs before exits m n)
    {f : α → γ} (hf : ∀ a, exits' (f a) = exits a) (g : β → δ) :
    Mutes expected rs before exits' (m >>= fun a => pure (f a)) (n >>= fun b => pure (g b)) := by
  have hbind : Mutes expected (rs ++ []) before exits' _ _ :=
    h.bind fun a b => mutes_pure (hf a) (g b)
  rwa [List.append_nil] at hbind

theorem mutes_after_at {m : Analyzer α} {k : α → Analyzer γ} {l : α → Analyzer δ} {t : ScopeTable}
    (hm : m.Unreturning)
    (hk : (k (m t).result.1 (m t).result.2).Mutes expected rs before exits'
      (l (m t).result.1 (m t).result.2)) :
    ((m >>= k) t).Mutes expected rs before exits' ((m >>= l) t) := by
  change Traced.Mutes expected rs before exits' (m t >>= fun p => k p.1 p.2)
    (m t >>= fun p => l p.1 p.2)
  exact Traced.Mutes.after (hm t) hk

theorem Mutes.after {m : Analyzer α} {k : α → Analyzer γ} {l : α → Analyzer δ}
    (hm : m.Unreturning) (hk : ∀ a, Mutes expected rs before exits' (k a) (l a)) :
    Mutes expected rs before exits' (m >>= k) (m >>= l) :=
  fun t => mutes_after_at hm (hk (m t).result.1 (m t).result.2)

/-- The rule for an analysis without exits. -/
theorem mutes_self {m : Analyzer α} (hm : m.Unreturning)
    (h : ∀ t, exits (m t).result.1 = before) : Mutes expected [] before exits m m := fun t =>
  { scopes_eq := rfl
    unreturning := hm t
    exists_exits :=
      ⟨[], (h t).trans (List.append_nil before).symm, .nil, merges_nil_left (m t).events⟩ }

theorem mutes_block (parent : ScopeId) (span : Span)
    {m n : ScopeId → Analyzer (List Semantic.Stmt)}
    (h : ∀ scope, Mutes expected rs before (before ++ Semantic.stmtExits expected ·) (m scope)
      (n scope)) :
    Mutes expected rs before (before ++ ·.exits expected) (block parent span m)
      (block parent span n) := by
  refine Mutes.after (fun _ => rfl) fun scope => ?_
  exact (h scope).bind_pure (fun ss => by rw [Semantic.Block.exits]) _

end Analyzer

namespace Analysis

open Analyzer

/-! ### Statements without exits -/

section Unreturning

open Traced

theorem unreturning_expressionStmt (env : Env) (e : Syntax.Expr) :
    (expressionStmt env e).Unreturning :=
  (bounded_expr env e).unreturning.bind fun _ =>
    silent_unless_bind (unreturning_report rfl) (silent_pure _)

theorem unreturning_assignment (env : Env) (a : Syntax.Assignment) :
    (assignment env a).Unreturning := by
  have hvalue (target : Semantic.Expr) := (bounded_assignedValue env a target).unreturning
  refine (bounded_lvalue env a.target).unreturning.bind fun target => ?_
  dsimp only
  split
  · exact unreturning_report_bind (hvalue target) rfl
  · exact hvalue target

theorem unreturning_localInitializer (env : Env) (type : Ty) (init : Option Syntax.Initializer) :
    (localInitializer env type init).Unreturning := by
  cases init with
  | none => exact silent_pure none
  | some init =>
    exact (bounded_initializer env type init).unreturning.bind fun _ =>
      silent_unless_bind (unreturning_report rfl) (silent_pure _)

theorem unreturning_scrutinee (env : Env) (e : Syntax.Expr) : (scrutinee env e).Unreturning := by
  refine (bounded_expr env e).unreturning.bind fun e => ?_
  dsimp only
  split
  · exact unreturning_report_bind (silent_pure e) rfl
  · exact silent_pure e

theorem unreturning_caseValue (env : Env) (type : Ty) (isLast : Bool) (span : Span)
    (value : Option Syntax.Expr) : (caseValue env type isLast span value).Unreturning := by
  cases value with
  | none => exact silent_unless_bind (unreturning_report rfl) (silent_pure none)
  | some e =>
    refine (bounded_checkedExpr env type e).unreturning.bind fun e => ?_
    exact Silent.bind (Bounded.unreturning (Check.silent_constant ..)) fun _ => silent_pure _

end Unreturning

section Statements

variable {expected : Ty}

theorem exits_expressionStmt (env : Env) (e : Syntax.Expr) :
    (expressionStmt env e).result.exits expected = [] := by
  rw [expressionStmt, Traced.result_bind, Traced.result_unless_bind]
  rfl

theorem exits_assignment (env : Env) (a : Syntax.Assignment) :
    (assignment env a).result.exits expected = [] := by
  rw [assignment, Traced.result_bind]
  split <;> rfl

theorem mutes_locals (scope : ScopeId) (before : List Exit) (l : Syntax.LocalVariables) :
    Mutes expected [] before (before ++ ·.exits expected) (locals scope l) (locals scope l) := by
  refine Mutes.after (silent_reading fun env => ?_) fun p => ?_
  · refine (bounded_typeExpr env l.type).unreturning.bind fun _ => ?_
    exact (unreturning_localInitializer env _ l.initializer).bind fun _ => Traced.silent_pure _
  · refine Mutes.after (unreturning_declareAll scope _) fun _ => mutes_pure ?_ _
    rw [Semantic.Stmt.exits, List.append_nil]

/-! ### Return statements -/

/-- Analysed in a body, a return statement leaves behind what its value does, and a complaint if
there is one. -/
theorem returnStmt_eq {ctx : ReturnContext} (hctx : ctx.expected? = some expected) (env : Env)
    (r : Syntax.Return) :
    let value := returnedValue env r.value
    returnStmt ctx env r =
      ⟨.returns (env.site r.span) value.result,
        value.events ++ (complaints [⟨expected, env.site r.span, value.result⟩]).map .found⟩ := by
  intro value
  let rest : Option Semantic.Expr → Traced Semantic.Stmt := fun v =>
    ⟨.returns (env.site r.span) v, (complaints [⟨expected, env.site r.span, v⟩]).map .found⟩
  change _ = value >>= rest
  rw [returnStmt, hctx]
  refine congrArg (value >>= ·) (funext fun v => ?_)
  simp only [rest, complaints, List.filterMap_cons, Exit.complaint?, List.filterMap_nil]
  cases v with
  | none =>
    dsimp only
    split <;> rfl
  | some e =>
    dsimp only [Check.convertible]
    split <;> rfl

/-- The value is analysed alike if it is printed. -/
theorem stmt_muted (ctx : ReturnContext) (scope : ScopeId) (r : Syntax.Return)
    (t : ScopeTable) : ∃ s,
    stmt ctx scope r.muted t = ⟨(s, t), (returnedValue ⟨t, scope⟩ r.value).events⟩ := by
  obtain ⟨span, value⟩ := r
  cases value with
  | none =>
    rw [Syntax.Return.muted, stmt]
    exact ⟨_, rfl⟩
  | some e =>
    rw [Syntax.Return.muted, stmt]
    refine ⟨_, congrArg (Traced.mk _) ?_⟩
    change (((expr ⟨t, scope⟩ e).events ++ ([] ++ [])) ++ []) ++ [] = _ ++ []
    simp only [List.append_nil]

theorem mutes_returnStmt {ctx : ReturnContext} (hctx : ctx.expected? = some expected)
    (scope : ScopeId) (before : List Exit) (r : Syntax.Return) :
    Mutes expected [r] before (before ++ ·.exits expected) (reading scope (returnStmt ctx · r))
      (stmt ctx scope r.muted) := by
  intro t
  obtain ⟨s, hmuted⟩ := stmt_muted ctx scope r t
  rw [Analyzer.reading_eq, returnStmt_eq hctx, hmuted]
  let value := returnedValue ⟨t, scope⟩ r.value
  have hvalue : value.Unreturning := (bounded_returnedValue ⟨t, scope⟩ r.value).unreturning
  let exit : Exit := ⟨expected, ⟨scope, r.span⟩, value.result⟩
  refine ⟨rfl, hvalue, [exit], rfl, .cons ⟨rfl, rfl, t, rfl⟩ .nil, ?_⟩
  have hmerges := (merges_nil_left value.events).append
    (merges_nil_right ((complaints [exit]).map Event.found))
  rwa [List.append_nil] at hmerges

/-! ### Statements -/

variable {ctx : ReturnContext}

mutual

theorem mutes_stmt (hctx : ctx.expected? = some expected) (scope : ScopeId) (before : List Exit) :
    ∀ s : Syntax.Stmt, Mutes expected s.exits before (before ++ ·.exits expected)
      (stmt ctx scope s) (stmt ctx scope s.muted)
  | .nop span => by
    rw [Syntax.Stmt.muted, Syntax.Stmt.exits, stmt]
    exact mutes_pure (by rw [Semantic.Stmt.exits, List.append_nil]) _
  | .expr e => by
    rw [Syntax.Stmt.muted, Syntax.Stmt.exits, stmt]
    refine mutes_self (silent_reading fun env => unreturning_expressionStmt env e) fun t => ?_
    rw [reading_eq, exits_expressionStmt, List.append_nil]
  | .assignment a => by
    rw [Syntax.Stmt.muted, Syntax.Stmt.exits, stmt]
    refine mutes_self (silent_reading fun env => unreturning_assignment env a) fun t => ?_
    rw [reading_eq, exits_assignment, List.append_nil]
  | .routine span call => by
    rw [Syntax.Stmt.muted, Syntax.Stmt.exits, stmt]
    refine Mutes.after (silent_reading fun env => ?_) fun _ => mutes_pure ?_ _
    · exact (bounded_routineArgs env call).unreturning
    · rw [Semantic.Stmt.exits, List.append_nil]
  | .locals l => by
    rw [Syntax.Stmt.muted, Syntax.Stmt.exits, stmt]
    exact mutes_locals scope before l
  | .directive d => by
    rw [Syntax.Stmt.muted, Syntax.Stmt.exits, stmt]
    refine Mutes.after (silent_reading fun env => ?_) fun _ => mutes_pure ?_ _
    · exact (bounded_directive env d).unreturning
    · rw [Semantic.Stmt.exits, List.append_nil]
  | .returns r => by
    rw [Syntax.Stmt.muted, Syntax.Stmt.exits, stmt]
    exact mutes_returnStmt hctx scope before r
  | .alternative span first others none => by
    rw [Syntax.Stmt.muted, Syntax.Stmt.exits, stmt, stmt]
    refine (mutes_clause hctx scope before first).bind fun c _ => ?_
    refine (mutes_clauses hctx scope _ others).bind_pure (fun cs => ?_) _
    rw [Semantic.Stmt.exits, List.append_assoc]
  | .alternative span first others (some body) => by
    rw [Syntax.Stmt.muted, Syntax.Stmt.exits, stmt, stmt]
    refine (mutes_clause hctx scope before first).bind fun c _ => ?_
    refine (mutes_clauses hctx scope _ others).bind fun cs _ => ?_
    refine (mutes_block scope span fun inner => mutes_stmts hctx inner _ body).bind_pure
      (fun b => ?_) _
    rw [Semantic.Stmt.exits, List.append_assoc, List.append_assoc]
  | .loop span kind condition body => by
    rw [Syntax.Stmt.muted, Syntax.Stmt.exits, stmt, stmt]
    refine Mutes.after (silent_reading fun env => ?_) fun _ => ?_
    · exact (bounded_checkedExpr env _ condition).unreturning
    · refine (mutes_block scope span fun inner => mutes_stmts hctx inner before body).bind_pure
        (fun b => ?_) _
      rw [Semantic.Stmt.exits]
  | .forLoop span variant start stop step body => by
    rw [Syntax.Stmt.muted, Syntax.Stmt.exits, stmt, stmt]
    refine Mutes.after (silent_reading fun env => ?_) fun _ => ?_
    · exact (bounded_forHeader env variant start stop step).unreturning
    · refine (mutes_block scope span fun inner => mutes_stmts hctx inner before body).bind_pure
        (fun b => ?_) _
      rw [Semantic.Stmt.exits]
  | .switch span e cases => by
    rw [Syntax.Stmt.muted, Syntax.Stmt.exits, stmt, stmt]
    refine Mutes.after (silent_reading fun env => unreturning_scrutinee env e) fun e => ?_
    refine (mutes_switchCases hctx scope e.type before cases).bind_pure (fun cs => ?_) _
    rw [Semantic.Stmt.exits]

theorem mutes_clause (hctx : ctx.expected? = some expected) (scope : ScopeId)
    (before : List Exit) : ∀ c : Syntax.Clause,
    Mutes expected c.exits before (before ++ ·.exits expected) (clause ctx scope c)
      (clause ctx scope c.muted)
  | ⟨span, condition, body⟩ => by
    rw [Syntax.Clause.muted, Syntax.Clause.exits, clause, clause]
    refine Mutes.after (silent_reading fun env => ?_) fun _ => ?_
    · exact (bounded_checkedExpr env _ condition).unreturning
    · refine (mutes_block scope span fun inner => mutes_stmts hctx inner before body).bind_pure
        (fun b => ?_) _
      rw [Semantic.Clause.exits]

theorem mutes_clauses (hctx : ctx.expected? = some expected) (scope : ScopeId)
    (before : List Exit) : ∀ cs : List Syntax.Clause,
    Mutes expected (Syntax.clauseExits cs) before (before ++ Semantic.clauseExits expected ·)
      (clauses ctx scope cs) (clauses ctx scope (Syntax.mutedClauses cs))
  | [] => by
    rw [Syntax.mutedClauses, Syntax.clauseExits, clauses]
    exact mutes_pure (by rw [Semantic.clauseExits, List.append_nil]) _
  | c :: rest => by
    rw [Syntax.mutedClauses, Syntax.clauseExits, clauses, clauses]
    refine (mutes_clause hctx scope before c).bind fun c _ => ?_
    refine (mutes_clauses hctx scope _ rest).bind_pure (fun cs => ?_) _
    rw [Semantic.clauseExits, List.append_assoc]

theorem mutes_switchCases (hctx : ctx.expected? = some expected) (scope : ScopeId) (type : Ty)
    (before : List Exit) : ∀ cs : List Syntax.Case,
    Mutes expected (Syntax.caseExits cs) before (before ++ Semantic.caseExits expected ·)
      (switchCases ctx scope type cs) (switchCases ctx scope type (Syntax.mutedCases cs))
  | [] => by
    rw [Syntax.mutedCases, Syntax.caseExits, switchCases]
    exact mutes_pure (by rw [Semantic.caseExits, List.append_nil]) _
  | ⟨span, value, body⟩ :: rest => by
    rw [Syntax.mutedCases, Syntax.caseExits, switchCases, switchCases, Syntax.isEmpty_mutedCases]
    refine Mutes.after (silent_reading fun env => ?_) fun _ => ?_
    · exact unreturning_caseValue env type _ span value
    · refine (mutes_block scope span fun inner => mutes_stmts hctx inner before body).bind
        fun b _ => ?_
      refine (mutes_switchCases hctx scope type _ rest).bind_pure (fun cs => ?_) _
      rw [Semantic.caseExits, List.append_assoc]

theorem mutes_stmts (hctx : ctx.expected? = some expected) (scope : ScopeId)
    (before : List Exit) : ∀ ss : List Syntax.Stmt,
    Mutes expected (Syntax.stmtExits ss) before (before ++ Semantic.stmtExits expected ·)
      (stmts ctx scope ss) (stmts ctx scope (Syntax.mutedStmts ss))
  | [] => by
    rw [Syntax.mutedStmts, Syntax.stmtExits, stmts]
    exact mutes_pure (by rw [Semantic.stmtExits, List.append_nil]) _
  | s :: rest => by
    rw [Syntax.mutedStmts, Syntax.stmtExits, stmts, stmts]
    refine (mutes_stmt hctx scope before s).bind fun s _ => ?_
    refine (mutes_stmts hctx scope _ rest).bind_pure (fun ss => ?_) _
    rw [Semantic.stmtExits, List.append_assoc]

end

end Statements

/-! ### Declarations -/

/-- What the return statements of a declaration have to return, if `env` is what it finds. Only main
programs and definitions have any. -/
def expectedType (env : Env) : Syntax.Decl → Ty
  | .definition _ s _ => (returnType env s.returnType).result
  | _ => .integer

theorem mutes_callableBody (scope : ScopeId) (span : Span) (s : Semantic.Signature)
    (body : List Syntax.Stmt) :
    Mutes s.returnType (Syntax.stmtExits body) [] ([] ++ ·.exits s.returnType)
      (callableBody scope span s body) (callableBody scope span s (Syntax.mutedStmts body)) := by
  refine mutes_block scope span fun inner => ?_
  exact Mutes.after (unreturning_declareAll inner _) fun _ => mutes_stmts rfl inner [] body

theorem mutes_decl (mainSeen : Bool) (d : Syntax.Decl) (t : ScopeTable) :
    (decl mainSeen ScopeTable.root d t).Mutes (expectedType ⟨t, ScopeTable.root⟩ d) d.exits []
      Semantic.Decl.exits (decl mainSeen ScopeTable.root d.muted t) := by
  cases d with
  | constant c =>
    refine Mutes.after (silent_reading fun env => ?_) (fun _ => ?_) t
    · exact (bounded_constantValue env c).unreturning
    · exact Mutes.after (unreturning_bindAt _ _) fun _ => mutes_pure (by rfl) _
  | typeAlias a =>
    refine Mutes.after (silent_reading fun env => ?_) (fun _ => ?_) t
    · exact (bounded_typeExpr env a.target).unreturning
    · exact Mutes.after (unreturning_bindAt _ _) fun _ => mutes_pure (by rfl) _
  | forward s =>
    refine Mutes.after (silent_reading fun env => ?_) (fun _ => ?_) t
    · exact (bounded_signature env s).unreturning
    · exact Mutes.after (unreturning_bindAt _ _) fun _ => mutes_pure (by rfl) _
  | directive d =>
    refine Mutes.after (silent_reading fun env => ?_) (fun _ => mutes_pure (by rfl) _) t
    exact (bounded_directive env d).unreturning
  | main span body =>
    have hbody : Mutes .integer (Syntax.stmtExits body) [] Semantic.Decl.exits
        (do
          let body ← block ScopeTable.root span (stmts .main · body)
          return .main ⟨ScopeTable.root, span⟩ body)
        (do
          let body ← block ScopeTable.root span (stmts .main · (Syntax.mutedStmts body))
          return Semantic.Decl.main ⟨ScopeTable.root, span⟩ body) := by
      refine Mutes.bind_pure (mutes_block ScopeTable.root span fun inner => ?_) (fun _ => ?_) _
      · exact mutes_stmts rfl inner [] body
      · rfl
    cases mainSeen with
    | false => exact hbody t
    | true =>
      refine Mutes.after (fun t => ?_) (fun _ => hbody) t
      exact Traced.unreturning_report_bind (Traced.silent_pure _) rfl
  | definition span s body =>
    -- The return type is the one that the signature has among the scopes found.
    have hrest (signature : Semantic.Signature) :
        Mutes signature.returnType (Syntax.stmtExits body) [] Semantic.Decl.exits
          (do
            bindAt s.span (·.defineCallable ScopeTable.root signature.callable)
            let body ← callableBody ScopeTable.root span signature body
            return .definition ⟨ScopeTable.root, span⟩ signature body)
          (do
            bindAt s.span (·.defineCallable ScopeTable.root signature.callable)
            let body ← callableBody ScopeTable.root span signature (Syntax.mutedStmts body)
            return Semantic.Decl.definition ⟨ScopeTable.root, span⟩ signature body) := by
      refine Mutes.after (unreturning_bindAt _ _) fun _ => ?_
      refine (mutes_callableBody ScopeTable.root span signature body).bind_pure (fun _ => ?_) _
      rfl
    have hsignature : (reading ScopeTable.root (signature · s)).Unreturning :=
      silent_reading fun env => (bounded_signature env s).unreturning
    exact mutes_after_at hsignature (hrest (signature ⟨t, ScopeTable.root⟩ s).result t)

/-- The return statements of `d` have become the exits that the declaration has at the moment `m`,
and have to return what is expected from `d` then. -/
def Answers (d : Syntax.Decl) (m : Moment) : Prop :=
  List.Forall₂ (Becomes (expectedType ⟨m.table, ScopeTable.root⟩ d)) d.exits m.decl.exits

theorem answers_history (mainSeen : Bool) (ds : List Syntax.Decl) (t : ScopeTable) :
    List.Forall₂ Answers ds (history mainSeen ds t) := by
  induction ds generalizing mainSeen t with
  | nil => exact .nil
  | cons d rest ih =>
    refine .cons ?_ (ih _ _)
    obtain ⟨own, hown, hbecomes, -⟩ := (mutes_decl mainSeen d t).exists_exits
    rw [List.nil_append] at hown
    rw [Answers, hown]
    exact hbecomes

theorem isMain_muted (d : Syntax.Decl) : isMain d.muted = isMain d := by
  cases d <;> rfl

/-- The declarations of a program and those of the muted one. -/
theorem merges_decls (mainSeen : Bool) (ds : List Syntax.Decl) (t : ScopeTable) :
    let given := decls mainSeen ScopeTable.root ds t
    let muted := decls mainSeen ScopeTable.root (ds.map Syntax.Decl.muted) t
    muted.result.2 = given.result.2 ∧ muted.Unreturning ∧
      Merges ((complaints (given.result.1.flatMap Semantic.Decl.exits)).map .found) muted.events
        given.events := by
  induction ds generalizing mainSeen t with
  | nil => exact ⟨rfl, Traced.silent_pure _, .nil⟩
  | cons d rest ih =>
    rw [List.map_cons, decls_cons, decls_cons, isMain_muted]
    obtain ⟨hscopes, hsilent, own, hown, -, hmerges⟩ := mutes_decl mainSeen d t
    rw [List.nil_append] at hown
    dsimp only
    rw [hscopes]
    obtain ⟨hscopes', hsilent', hmerges'⟩ :=
      ih (mainSeen || isMain d) (decl mainSeen ScopeTable.root d t).result.2
    refine ⟨hscopes', ?_, ?_⟩
    · exact hsilent.bind fun _ => hsilent'
    · rw [List.flatMap_cons, hown, complaints_append, List.map_append]
      exact hmerges.append hmerges'

/-! ### Algorithms -/

/-- The events of a program and those of the muted one. -/
theorem merges_algorithm (a : Syntax.Algorithm) :
    let given := algorithm a .initial
    let muted := algorithm a.muted .initial
    muted.result.2 = given.result.2 ∧ muted.Unreturning ∧
      Merges ((complaints given.result.1.exits).map .found) muted.events given.events := by
  obtain ⟨hscopes, hsilent, hmerges⟩ := merges_decls false a.decls .initial
  have hleading := (bounded_directives ⟨.initial, ScopeTable.root⟩ a.leading).unreturning
  rw [algorithm_eq, algorithm_eq, Syntax.Algorithm.muted]
  dsimp only
  rw [hscopes]
  refine ⟨rfl, ?_, ?_⟩
  · exact hleading.bind fun _ => hsilent.bind fun _ => silent_undefinedCallables _
  · have hrest := hmerges.append (merges_nil_left (undefinedCallables
      ((decls false ScopeTable.root a.decls .initial).result.2.undefinedCallables
        ScopeTable.root)).events)
    rw [List.append_nil] at hrest
    exact (merges_nil_left _).append hrest

end Analysis

theorem Cause.code_ne_of_isReturn {cause : Cause} (h : cause.isReturn = false) :
    cause.code ≠ .returnInNonReturnable ∧ cause.code ≠ .returnExpectsValue := by
  cases cause with
  | returnOutsideBody | returnWithoutValue => cases h
  | unbindable error => cases error <;> constructor <;> intro hcode <;> cases hcode
  | _ => constructor <;> intro hcode <;> cases hcode

theorem code_ne_of_mem_complaints {exits : List Exit} {f : Finding} (h : f ∈ complaints exits) :
    f.cause.code ≠ .returnInNonReturnable := by
  obtain ⟨x, -, hx⟩ := List.mem_filterMap.mp h
  intro hcode
  unfold Exit.complaint? at hx
  split at hx
  all_goals
    split at hx
    · cases hx
    · cases hx
      cases hcode

namespace Session

open Analysis (history Answers)

/-- **Every return statement answers to its own callable.** The exits of the analysed program are
its return statements. Each has to return an integer from a main program, and from a callable what
the signature says, with the scopes as the declaration finds them. What is delivered is what the
muted program has delivered, with the complaints about exits among it. No return statement is found
outside of a body. -/
theorem returns_answer_to_their_callable (config : Config) (source : Option String)
    (a : Syntax.Algorithm) :
    let given := run config source a
    let muted := run config source a.muted
    List.Forall₂ Answers a.decls (history false a.decls .initial) ∧
    (history false a.decls .initial).map (·.decl) = given.tree.decls ∧
    Merges (config.deliver source (complaints given.tree.exits)).delivered muted.sink.delivered
      given.sink.delivered ∧
    (∀ d ∈ muted.sink.delivered,
      d.code ≠ .returnInNonReturnable ∧ d.code ≠ .returnExpectsValue) ∧
    (∀ d ∈ given.sink.delivered, d.code ≠ .returnInNonReturnable) ∧
    muted.scopes = given.scopes ∧ muted.types = given.types := by
  obtain ⟨hscopes, hsilent, hmerges⟩ := Analysis.merges_algorithm a
  have hfindings : Merges (complaints (analyze a).tree.exits) (analyze a.muted).findings
      (analyze a).findings := Event.merges_findings hmerges []
  have hdelivered : Merges (config.deliver source (complaints (analyze a).tree.exits)).delivered
      ((analyze a.muted).report config source).delivered
      ((analyze a).report config source).delivered := by
    rw [Analysis.report, Analysis.report, Config.delivered_eq_map, Config.delivered_eq_map,
      Config.delivered_eq_map]
    exact (hfindings.filter _).map _
  have hmuted : ∀ d ∈ ((analyze a.muted).report config source).delivered,
      d.code ≠ .returnInNonReturnable ∧ d.code ≠ .returnExpectsValue := by
    rw [Analysis.report, Config.delivered_eq_map]
    intro d hd
    obtain ⟨f, hf, rfl⟩ := List.mem_map.mp hd
    refine Cause.code_ne_of_isReturn ?_
    obtain hfound | ⟨advice, hcause⟩ := Event.mem_findings (List.mem_filter.mp hf).1
    · exact hsilent.isReturn_eq hfound
    · rw [hcause]
      rfl
  rw [run_eq, run_eq]
  refine ⟨Analysis.answers_history .., ?_, hdelivered, hmuted, fun d hd => ?_, hscopes, ?_⟩
  · exact (Analysis.map_decl_history ..).trans (Analysis.decls_analyze a).symm
  · obtain hcomplaint | hrest := hdelivered.mem_iff.mp hd
    · rw [Config.delivered_eq_map] at hcomplaint
      obtain ⟨f, hf, rfl⟩ := List.mem_map.mp hcomplaint
      exact code_ne_of_mem_complaints (List.mem_filter.mp hf).1
    · exact (hmuted d hrest).1
  · exact congrArg InferredTypes.mk (Event.types_of_merges hmerges).symm

open Syntax (nowhere ident)

/-- A function that returns from a loop without a value, in front of a main program. -/
def leaving : Syntax.Algorithm :=
  ⟨nowhere, [],
    [.definition nowhere ⟨nowhere, .function, ident "f", [], some (.ofKind .real)⟩
      [.loop nowhere .repeatUntil ⟨⟨1⟩, nowhere, .literal (.boolean true)⟩
        [.returns ⟨nowhere, none⟩]],
    .main nowhere [.returns ⟨nowhere, some (.ofInteger 0)⟩]]⟩

theorem missing_value_is_reported : ∃ d ∈ (run .default none leaving).sink.delivered,
    d.code = .returnExpectsValue ∧ d.code ≠ .returnInNonReturnable := by
  have hcodes : (run .default none leaving).sink.delivered.map (·.code) =
      [.returnExpectsValue] := by
    decide +kernel
  have hcode : .returnExpectsValue ∈ (run .default none leaving).sink.delivered.map (·.code) := by
    rw [hcodes]
    exact List.mem_singleton_self _
  obtain ⟨d, hd, hreported⟩ := List.mem_map.mp hcode
  obtain ⟨-, -, -, -, hnever, -⟩ := returns_answer_to_their_callable .default none leaving
  exact ⟨d, hd, hreported, hnever d hd⟩

end Session

end Pseudocode
