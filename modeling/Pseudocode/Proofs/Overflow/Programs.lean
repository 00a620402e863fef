import Pseudocode.Proofs.Overflow.Coverage

/-!
# Statements and declarations are accounted for

What is analysed later finds the scopes that earlier analyses leave behind, so that the journal of
an analysis that may change the scopes depends on the scopes it finds.
-/

namespace Pseudocode

open Event (signal?)
open Syntax (Term)

namespace Analyzer

variable {α β : Type} {ts ts' : List Term} {J : ScopeTable → List Entry}

/-- Whatever the scopes are, the journal accounts for the signals of the analysis. -/
def Accounted (m : Analyzer α) (ts : List Term) (journal : ScopeTable → List Entry) : Prop :=
  ∀ t, Accounts (fun _ => True) ts (journal t) ((m t).pick signal?)

theorem Accounted.of_eq {m : Analyzer α} {J' : ScopeTable → List Entry} (h : m.Accounted ts J)
    (hts : ts' = ts) (hJ : ∀ t, J' t = J t) : m.Accounted ts' J' := by
  intro t
  rw [hts, hJ]
  exact h t

theorem accounted_pure (a : α) : (pure a : Analyzer α).Accounted [] fun _ => [] := fun _ => .nil

theorem Accounted.bind {m : Analyzer α} {f : α → Analyzer β} {J' : α → ScopeTable → List Entry}
    (hm : m.Accounted ts J) (hf : ∀ a, (f a).Accounted ts' (J' a)) :
    (m >>= f).Accounted (ts ++ ts') fun t => J t ++ J' (m t).result.1 (m t).result.2 := by
  intro t
  refine .of_eq ((hm t).append (hf (m t).result.1 (m t).result.2)) rfl ?_
  exact pick_bind ..

/-- The rule for an analysis that gives no signal and comes second. -/
theorem Accounted.silent {m : Analyzer α} {f : α → Analyzer β} (hm : m.Accounted ts J)
    (hf : ∀ a, (f a).Accounted [] fun _ => []) : (m >>= f).Accounted ts J := by
  have hboth := hm.bind hf
  simpa only [List.append_nil] using hboth

theorem Accounted.bind_pure {m : Analyzer α} (hm : m.Accounted ts J) (f : α → β) :
    (m >>= fun a => pure (f a)).Accounted ts J := hm.silent fun _ => accounted_pure _

/-- The rule for an analysis that gives no signal and comes first. -/
theorem Accounted.after {m : Analyzer α} {f : α → Analyzer β} {J' : α → ScopeTable → List Entry}
    (hm : m.Accounted [] fun _ => []) (hf : ∀ a, (f a).Accounted ts (J' a)) :
    (m >>= f).Accounted ts fun t => J' (m t).result.1 (m t).result.2 := hm.bind hf

theorem accounted_reading {scope : ScopeId} {f : Env → Traced α} {J : Env → List Entry}
    (h : ∀ env, Accounts (· = env) ts (J env) ((f env).pick signal?)) :
    (reading scope f).Accounted ts fun t => J ⟨t, scope⟩ := by
  intro t
  rw [pick_reading]
  obtain ⟨hsignals, hterms, -, hgrounded⟩ := h ⟨t, scope⟩
  exact ⟨hsignals, hterms, fun _ _ => trivial, hgrounded⟩

theorem accounted_report {x : Traced α} (h : x.pick signal? = []) :
    (liftM x : Analyzer α).Accounted [] fun _ => [] := by
  intro t
  refine .of_eq .nil rfl ?_
  rw [pick_lift, h]

theorem accounted_bindAt (span : Span) (operation : ScopeTable → Except DeclareError ScopeTable) :
    (bindAt span operation).Accounted [] fun _ => [] := by
  intro t
  refine .of_eq .nil rfl ?_
  unfold bindAt
  split
  · rfl
  · rename_i error _
    cases error <;> rfl

theorem accounted_declareAll (scope : ScopeId) (symbols : List Symbol) :
    (declareAll scope symbols).Accounted [] fun _ => [] := by
  induction symbols with
  | nil => exact accounted_pure ()
  | cons s rest ih => exact (accounted_bindAt _ _).silent fun _ => ih

theorem accounted_block {parent : ScopeId} {span : Span}
    {body : ScopeId → Analyzer (List Semantic.Stmt)} {J : ScopeId → ScopeTable → List Entry}
    (h : ∀ scope, (body scope).Accounted ts (J scope)) :
    (block parent span body).Accounted ts fun t => J (t.push parent).1 (t.push parent).2 := by
  have hopen : (openScope parent).Accounted [] fun _ => [] := fun _ => .nil
  exact hopen.after fun scope => (h scope).bind_pure _

end Analyzer

namespace Analysis

open Analyzer

/-! ### Statements -/

theorem accounted_condition (scope : ScopeId) (e : Syntax.Expr) :
    (reading scope (condition · e)).Accounted e.outline.terms fun t => e.journal ⟨t, scope⟩ := by
  refine accounted_reading (J := fun env => e.journal env) fun env => ?_
  exact .of_eq (accounts_expr env e) rfl (pick_checkedExpr env .boolean e)

theorem accounted_directive (scope : ScopeId) (d : Syntax.Directive) :
    (reading scope (directive · d)).Accounted d.outline.terms fun t => d.journal ⟨t, scope⟩ :=
  accounted_reading (J := fun env => d.journal env) fun env => accounts_directive env d

theorem accounted_forHeader (scope : ScopeId) (variant : Syntax.Lvalue) (start stop : Syntax.Expr)
    (step : Option Syntax.Expr) :
    (reading scope (forHeader · variant start stop step)).Accounted
      ((variant.outline []).terms ++ (start.outline.terms ++ (stop.outline.terms ++
        Outline.termsAll (Syntax.optionalOutline step))))
      fun t => variant.journal ⟨t, scope⟩ ++ (start.journal ⟨t, scope⟩ ++
        (stop.journal ⟨t, scope⟩ ++ Syntax.optionalJournal ⟨t, scope⟩ step)) := by
  refine accounted_reading (J := fun env => variant.journal env ++ (start.journal env ++
    (stop.journal env ++ Syntax.optionalJournal env step))) fun env => ?_
  have hbounds := (accounts_expr env start).append
    ((accounts_expr env stop).append (accounts_exprs env step.toList))
  exact .of_eq ((accounts_lvalue env variant).append hbounds) rfl
    (pick_forHeader env variant start stop step)

theorem accounted_locals (scope : ScopeId) (l : Syntax.LocalVariables) :
    (locals scope l).Accounted
      (l.type.terms ++ Outline.termsAll (l.initializer.toList.map Syntax.Initializer.outline))
      fun t => l.journal ⟨t, scope⟩ := by
  refine (accounted_reading (J := fun env => l.journal env) fun env => ?_).silent fun r =>
    (accounted_declareAll scope _).bind_pure _
  have hinit := accounts_localInitializer env (typeExpr env l.type).result l.initializer
  exact .of_eq ((accounts_typeExpr env l.type).append hinit) rfl (by simp)

mutual

theorem accounted_stmt (ctx : ReturnContext) (scope : ScopeId) : ∀ s : Syntax.Stmt,
    (stmt ctx scope s).Accounted s.outline.terms (s.journal ctx scope)
  | .nop _ => by
    rw [stmt]
    exact accounted_pure _
  | .expr e => by
    rw [stmt]
    refine accounted_reading (J := fun env => e.journal env) fun env => ?_
    exact .of_eq (accounts_expr env e) rfl (pick_expressionStmt env e)
  | .assignment a => by
    rw [stmt]
    refine accounted_reading (J := fun env => a.target.journal env ++ a.value.journal env)
      fun env => ?_
    refine .of_eq ((accounts_lvalue env a.target).append (accounts_expr env a.value)) ?_
      (pick_assignment env a)
    simp [Syntax.Stmt.outline]
  | .returns r => by
    rw [stmt]
    refine accounted_reading (J := fun env => Syntax.optionalJournal env r.value) fun env => ?_
    exact .of_eq (accounts_exprs env r.value.toList)
      (by simp [Syntax.Stmt.outline, Syntax.optionalOutline]) (pick_returnStmt env ctx r)
  | .routine _ call => by
    rw [stmt]
    have hcall : (reading scope (routineArgs · call)).Accounted _
        fun t => call.journal ⟨t, scope⟩ :=
      accounted_reading (J := fun env => call.journal env) fun env => accounts_routineArgs env call
    exact (hcall.bind_pure _).of_eq (by simp [Syntax.Stmt.outline]) fun _ => rfl
  | .directive d => by
    rw [stmt]
    exact (accounted_directive scope d).bind_pure _
  | .alternative _ first others none => by
    rw [stmt]
    refine Accounted.of_eq ((accounted_clause ctx scope first).bind fun _ =>
      (accounted_clauses ctx scope others).bind_pure _) ?_ fun _ => rfl
    simp [Syntax.Stmt.outline]
  | .alternative _ first others (some body) => by
    rw [stmt]
    refine Accounted.of_eq ((accounted_clause ctx scope first).bind fun _ =>
      (accounted_clauses ctx scope others).bind fun _ =>
        (accounted_block fun s => accounted_stmts ctx s body).bind_pure _) ?_ fun _ => rfl
    simp [Syntax.Stmt.outline]
  | .loop _ _ cond body => by
    rw [stmt]
    refine Accounted.of_eq ((accounted_condition scope cond).bind fun _ =>
      (accounted_block fun s => accounted_stmts ctx s body).bind_pure _) ?_ fun _ => rfl
    simp [Syntax.Stmt.outline]
  | .forLoop _ variant start stop step body => by
    rw [stmt]
    refine Accounted.of_eq ((accounted_forHeader scope variant start stop step).bind fun _ =>
      (accounted_block fun s => accounted_stmts ctx s body).bind_pure _) ?_ fun t => ?_
    · simp [Syntax.Stmt.outline]
    · simp only [Syntax.Stmt.journal, List.append_assoc]
      rfl
  | .locals l => by
    rw [stmt]
    exact (accounted_locals scope l).of_eq (by simp [Syntax.Stmt.outline]) fun _ => rfl
  | .switch _ e cases => by
    have he : (reading scope (scrutinee · e)).Accounted _ fun t => e.journal ⟨t, scope⟩ :=
      accounted_reading (J := fun env => e.journal env) fun env =>
        .of_eq (accounts_expr env e) rfl (pick_scrutinee env e)
    rw [stmt]
    refine Accounted.of_eq (he.bind fun e =>
      (accounted_switchCases ctx scope e.type cases).bind_pure _) ?_ fun _ => rfl
    simp [Syntax.Stmt.outline]

theorem accounted_clause (ctx : ReturnContext) (scope : ScopeId) : ∀ c : Syntax.Clause,
    (clause ctx scope c).Accounted c.outline.terms (c.journal ctx scope)
  | ⟨_, cond, body⟩ => by
    rw [clause]
    refine Accounted.of_eq ((accounted_condition scope cond).bind fun _ =>
      (accounted_block fun s => accounted_stmts ctx s body).bind_pure _) ?_ fun _ => rfl
    simp [Syntax.Clause.outline]

theorem accounted_clauses (ctx : ReturnContext) (scope : ScopeId) : ∀ cs : List Syntax.Clause,
    (clauses ctx scope cs).Accounted (Outline.termsAll (Syntax.clauseOutlines cs))
      (Syntax.clauseJournal ctx scope cs)
  | [] => accounted_pure _
  | c :: rest => by
    rw [clauses]
    exact (accounted_clause ctx scope c).bind fun _ =>
      (accounted_clauses ctx scope rest).bind_pure _

theorem accounted_switchCases (ctx : ReturnContext) (scope : ScopeId) (type : Ty) :
    ∀ cs : List Syntax.Case,
      (switchCases ctx scope type cs).Accounted (Outline.termsAll (Syntax.caseOutlines cs))
        (Syntax.caseJournal ctx scope cs)
  | [] => accounted_pure _
  | ⟨span, value, body⟩ :: rest => by
    have hvalue : (reading scope (caseValue · type rest.isEmpty span value)).Accounted _
        fun t => Syntax.caseValueJournal ⟨t, scope⟩ value :=
      accounted_reading (J := fun env => Syntax.caseValueJournal env value) fun env =>
        accounts_caseValue env type rest.isEmpty span value
    rw [switchCases]
    refine Accounted.of_eq (hvalue.bind fun _ =>
      (accounted_block fun s => accounted_stmts ctx s body).bind fun _ =>
        (accounted_switchCases ctx scope type rest).bind_pure _) ?_ fun _ => rfl
    simp [Syntax.caseOutlines]

theorem accounted_stmts (ctx : ReturnContext) (scope : ScopeId) : ∀ ss : List Syntax.Stmt,
    (stmts ctx scope ss).Accounted (Outline.termsAll (Syntax.stmtOutlines ss))
      (Syntax.stmtJournal ctx scope ss)
  | [] => accounted_pure _
  | s :: rest => by
    rw [stmts]
    exact (accounted_stmt ctx scope s).bind fun _ => (accounted_stmts ctx scope rest).bind_pure _

end

/-! ### Declarations -/

theorem accounted_signature (scope : ScopeId) (s : Syntax.Signature) :
    (reading scope (signature · s)).Accounted s.outline.terms fun t => s.journal ⟨t, scope⟩ :=
  accounted_reading (J := fun env => s.journal env) fun env => accounts_signature env s

theorem accounted_decl (mainSeen : Bool) (scope : ScopeId) (d : Syntax.Decl) :
    (decl mainSeen scope d).Accounted d.outline.terms (d.journal scope) := by
  cases d with
  | constant c =>
    have hc : (reading scope (constantValue · c)).Accounted _ fun t => c.journal ⟨t, scope⟩ :=
      accounted_reading (J := fun env => c.journal env) fun env => accounts_constantValue env c
    refine Accounted.of_eq (hc.silent fun _ => (accounted_bindAt _ _).bind_pure _) ?_ fun _ => rfl
    simp [Syntax.Decl.outline]
  | typeAlias a =>
    have ha : (reading scope (typeExpr · a.target)).Accounted _
        fun t => a.target.journal ⟨t, scope⟩ :=
      accounted_reading (J := fun env => a.target.journal env) fun env =>
        accounts_typeExpr env a.target
    refine Accounted.of_eq (ha.silent fun _ => (accounted_bindAt _ _).bind_pure _) ?_ fun _ => rfl
    simp [Syntax.Decl.outline]
  | main span body =>
    have hbody : (block scope span (stmts .main · body)).Accounted _
        ((Syntax.Decl.main span body).journal scope) :=
      accounted_block fun s => accounted_stmts .main s body
    have hterms : (Syntax.Decl.main span body).outline.terms =
        Outline.termsAll (Syntax.stmtOutlines body) := by simp [Syntax.Decl.outline]
    rw [decl, hterms]
    dsimp only
    split
    · exact (accounted_report rfl).after fun _ => hbody.bind_pure _
    · exact hbody.bind_pure _
  | forward s =>
    refine Accounted.of_eq ((accounted_signature scope s).silent fun _ =>
      (accounted_bindAt _ _).bind_pure _) ?_ fun _ => rfl
    simp [Syntax.Decl.outline]
  | definition span s body =>
    refine Accounted.of_eq ((accounted_signature scope s).bind fun signature =>
      (accounted_bindAt _ _).after fun _ =>
        Accounted.bind_pure (accounted_block fun inner =>
          (accounted_declareAll inner _).after fun _ => accounted_stmts _ inner body) _) ?_
      fun _ => rfl
    simp [Syntax.Decl.outline]
  | directive d =>
    exact (accounted_directive scope d).bind_pure _

theorem accounted_decls (mainSeen : Bool) (scope : ScopeId) (ds : List Syntax.Decl) :
    (decls mainSeen scope ds).Accounted (Outline.termsAll (ds.map Syntax.Decl.outline))
      (Syntax.declJournal mainSeen scope ds) := by
  induction ds generalizing mainSeen with
  | nil => exact accounted_pure _
  | cons d rest ih =>
    rw [decls]
    exact (accounted_decl mainSeen scope d).bind fun _ => (ih _).bind_pure _

/-- **The journal of an algorithm accounts for its analysis.** -/
theorem accounts_algorithm (a : Syntax.Algorithm) :
    Accounts (fun _ => True) a.terms a.journal ((algorithm a .initial).pick signal?) := by
  let root := ScopeTable.root
  have hleading : (reading root (directives · a.leading)).Accounted _
      fun t => a.leading.flatMap (Syntax.Directive.journal ⟨t, root⟩) :=
    accounted_reading (J := fun env => a.leading.flatMap (Syntax.Directive.journal env)) fun env =>
      accounts_directives env a.leading
  have hundefined : (reading root fun env =>
      undefinedCallables (env.table.undefinedCallables env.scope)).Accounted [] fun _ => [] :=
    accounted_reading (J := fun _ => []) fun env => .of_eq .nil rfl (by simp)
  have halgorithm : (algorithm a).Accounted a.terms fun t =>
      a.leading.flatMap (Syntax.Directive.journal ⟨t, root⟩) ++
        Syntax.declJournal false root a.decls t := by
    refine Accounted.of_eq (hleading.bind fun _ => (accounted_decls false root a.decls).silent
      fun _ => hundefined.bind_pure _) ?_ fun _ => rfl
    simp [Syntax.Algorithm.terms, Syntax.Algorithm.outline]
  exact halgorithm .initial

end Analysis

end Pseudocode
