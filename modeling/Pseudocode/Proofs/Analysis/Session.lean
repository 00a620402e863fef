import Pseudocode.Analysis.Session
import Pseudocode.Proofs.Analysis.Isolation
import Pseudocode.Proofs.Analysis.Levels

/-!
# Sessions and traces

A session acts on each event when it comes up, an analysis collects the events. **A session ends
with the tree, the scopes and the types of the analysis, and with its findings delivered as the
configuration wants them** (`Session.run_eq`). Each pass is shown to follow the analysis of the same
syntax, from every state of the session.
-/

namespace Pseudocode

/-- A session does not hear of the hints that its configuration switches off at their origin. -/
def Config.hears (c : Config) : Event → Bool
  | .found ⟨.unofficial .scalarInitializers, _⟩ => c.scalarInitializers
  | _ => true

theorem Config.hears_of_level {c : Config} {f : Finding} (h : f.cause.level ≤ 1) :
    c.hears (.found f) = true := by
  obtain ⟨cause, span⟩ := f
  cases cause with
  | unofficial feature =>
    cases feature with
    | scalarInitializers => simp [Cause.level] at h
    | directives | casts => rfl
  | _ => rfl

theorem Traced.Bounded.filter_hears {α : Type} {x : Traced α} (h : x.Bounded 1) (c : Config) :
    x.events.filter c.hears = x.events := by
  refine List.filter_eq_self.mpr fun e he => ?_
  cases e with
  | found f => exact c.hears_of_level (h.level_le he)
  | notConstant | overflow | typed => rfl

namespace Analyzer

variable {α β : Type}

theorem reading_eq (scope : ScopeId) (f : Env → Traced α) (t : ScopeTable) :
    reading scope f t = ⟨((f ⟨t, scope⟩).result, t), (f ⟨t, scope⟩).events⟩ :=
  congrArg (Traced.mk _) (List.append_nil _)

theorem reading_pure (scope : ScopeId) (a : α) : reading scope (fun _ => pure a) = pure a := rfl

theorem reading_bind (scope : ScopeId) (f : Env → Traced α) (g : Env → α → Traced β) :
    reading scope (fun env => f env >>= g env) =
      reading scope f >>= fun a => reading scope (g · a) := by
  funext t
  change (f ⟨t, scope⟩ >>= g ⟨t, scope⟩) >>= (fun b => pure (b, t)) =
    (f ⟨t, scope⟩ >>= fun a => pure (a, t)) >>= fun r => reading scope (fun env => g env r.1) r.2
  simp only [bind_assoc, pure_bind, reading]

end Analyzer

/-! ### The trace of an algorithm -/

namespace Analysis

theorem decls_cons (mainSeen : Bool) (scope : ScopeId) (d : Syntax.Decl) (rest : List Syntax.Decl)
    (t : ScopeTable) :
    decls mainSeen scope (d :: rest) t =
      let first := decl mainSeen scope d t
      let others := decls (mainSeen || isMain d) scope rest first.result.2
      ⟨(first.result.1 :: others.result.1, others.result.2), first.events ++ others.events⟩ := by
  refine congrArg (Traced.mk _) ?_
  exact congrArg (_ ++ ·) (List.append_nil _)

theorem algorithm_eq (a : Syntax.Algorithm) (t : ScopeTable) :
    algorithm a t =
      let leading := directives ⟨t, ScopeTable.root⟩ a.leading
      let all := decls false ScopeTable.root a.decls t
      let undefined := undefinedCallables (all.result.2.undefinedCallables ScopeTable.root)
      ⟨(⟨⟨ScopeTable.root, a.span⟩, leading.result, all.result.1⟩, all.result.2),
        leading.events ++ (all.events ++ undefined.events)⟩ := by
  refine congrArg (Traced.mk _) ?_
  change (_ ++ []) ++ (_ ++ ((_ ++ []) ++ [])) = _
  simp only [List.append_nil]

end Analysis

namespace Session

variable {α β : Type}

/-! ### Handling events -/

theorem handle_with (scopes : ScopeTable) (mainSeen : Bool) (context : ReturnContext) (s : Session)
    (e : Event) :
    handle { s with scopes, mainSeen, context } e =
      { handle s e with scopes, mainSeen, context } := by
  cases e with
  | found | notConstant =>
    simp only [handle, report]
    split <;> rfl
  | overflow | typed => rfl

/-- Events do not depend on the scopes, on the main program or on the return context. -/
theorem foldl_handle_with (es : List Event) (s : Session) (scopes : ScopeTable) (mainSeen : Bool)
    (context : ReturnContext) :
    es.foldl handle { s with scopes, mainSeen, context } =
      { es.foldl handle s with scopes, mainSeen, context } :=
  List.foldl_hom _ (handle_with scopes mainSeen context)

/-- Nor do they change them. -/
theorem foldl_handle_eq (es : List Event) (s : Session) :
    es.foldl handle s =
      { es.foldl handle s with
        scopes := s.scopes, mainSeen := s.mainSeen, context := s.context } :=
  foldl_handle_with es s s.scopes s.mainSeen s.context

theorem foldl_handle_withScopes (es : List Event) (s : Session) (scopes : ScopeTable) :
    es.foldl handle { s with scopes } = { es.foldl handle s with scopes } := by
  rw [foldl_handle_eq es s]
  exact foldl_handle_with es s scopes s.mainSeen s.context

theorem config_handle (s : Session) (e : Event) : (handle s e).config = s.config := by
  cases e with
  | found | notConstant =>
    simp only [handle, report]
    split <;> rfl
  | overflow | typed => rfl

theorem config_foldl_handle (es : List Event) (s : Session) :
    (es.foldl handle s).config = s.config := by
  induction es generalizing s with
  | nil => rfl
  | cons e rest ih => rw [List.foldl_cons, ih, config_handle]

/-- The session after the events of an analysis that leaves `scopes`. -/
def after (s : Session) (es : List Event) (scopes : ScopeTable) : Session :=
  { (es.filter s.config.hears).foldl handle s with scopes }

@[simp]
theorem scopes_after (s : Session) (es : List Event) (t : ScopeTable) :
    (s.after es t).scopes = t := rfl

@[simp]
theorem config_after (s : Session) (es : List Event) (t : ScopeTable) :
    (s.after es t).config = s.config := config_foldl_handle _ s

@[simp]
theorem context_after (s : Session) (es : List Event) (t : ScopeTable) :
    (s.after es t).context = s.context := by
  rw [after, foldl_handle_eq]

@[simp]
theorem mainSeen_after (s : Session) (es : List Event) (t : ScopeTable) :
    (s.after es t).mainSeen = s.mainSeen := by
  rw [after, foldl_handle_eq]

theorem after_scopes (s : Session) (es : List Event) :
    s.after es s.scopes = (es.filter s.config.hears).foldl handle s := by
  rw [after, foldl_handle_eq _ s]

theorem after_with (s : Session) (es : List Event) (t : ScopeTable) (mainSeen : Bool)
    (context : ReturnContext) :
    ({ s with mainSeen, context } : Session).after es t =
      { s.after es t with mainSeen, context } := by
  unfold after
  rw [foldl_handle_with _ s s.scopes mainSeen context]

/-- The session that knows whether there has been a main program. -/
def noting (s : Session) (mainSeen : Bool) : Session := { s with mainSeen }

theorem noting_noting (s : Session) (b b' : Bool) : (s.noting b).noting b' = s.noting b' := rfl

theorem after_noting (s : Session) (es : List Event) (t : ScopeTable) (mainSeen : Bool) :
    (s.noting mainSeen).after es t = (s.after es t).noting mainSeen := by
  rw [noting, after_with s es t mainSeen s.context, noting, context_after]

theorem after_after (s : Session) (es es' : List Event) (t t' : ScopeTable) :
    (s.after es t).after es' t' = s.after (es ++ es') t' := by
  have hconfig := config_after s es t
  unfold after at hconfig ⊢
  rw [hconfig, foldl_handle_withScopes, List.filter_append, List.foldl_append]

/-! ### Following an analysis -/

/-- In the given return context, the session goes through `p` as the analysis `m` prescribes. -/
def Follows (context : ReturnContext) (p : Pass α) (m : Analyzer α) : Prop :=
  ∀ s : Session, s.context = context →
    p s = ((m s.scopes).result.1, s.after (m s.scopes).events (m s.scopes).result.2)

variable {context : ReturnContext}

theorem follows_pure (a : α) : Follows context (pure a) (pure a) := fun _ _ => rfl

theorem Follows.bind {p : Pass α} {m : Analyzer α} {f : α → Pass β} {g : α → Analyzer β}
    (hp : Follows context p m) (hf : ∀ a, Follows context (f a) (g a)) :
    Follows context (p >>= f) (m >>= g) := by
  intro s hs
  change f (p s).1 (p s).2 = _
  rw [hp s hs, hf _ _ ((context_after ..).trans hs), scopes_after, after_after]
  rfl

theorem follows_reading_of_hears (scope : ScopeId) {f : Env → Traced α}
    (h : ∀ env c, (f env).events.filter (Config.hears c) = (f env).events) :
    Follows context (reading scope f) (Analyzer.reading scope f) := by
  intro s _
  have hafter : s.after (f ⟨s.scopes, scope⟩).events s.scopes =
      (f ⟨s.scopes, scope⟩).events.foldl handle s := by
    rw [after_scopes, h]
  rw [Analyzer.reading_eq]
  exact congrArg (Prod.mk _) hafter.symm

theorem follows_reading (scope : ScopeId) {f : Env → Traced α} {n : Nat}
    (h : ∀ env, (f env).Bounded n) (hn : n ≤ 1 := by decide) :
    Follows context (reading scope f) (Analyzer.reading scope f) :=
  follows_reading_of_hears scope fun env => ((h env).mono hn).filter_hears

theorem follows_openScope (parent : ScopeId) :
    Follows context (openScope parent) (Analyzer.openScope parent) := fun _ _ => rfl

theorem follows_bindAt (span : Span) (operation : ScopeTable → Except DeclareError ScopeTable) :
    Follows context (bindAt span operation) (Analyzer.bindAt span operation) := by
  intro s _
  unfold bindAt Analyzer.bindAt
  cases operation s.scopes with
  | ok => rfl
  | error error =>
    have hreport : s.after [.found ⟨.unbindable error, span⟩] s.scopes =
        s.report ⟨.unbindable error, span⟩ := after_scopes s _
    exact congrArg (Prod.mk ()) hreport.symm

theorem follows_declareAll (scope : ScopeId) (symbols : List Symbol) :
    Follows context (declareAll scope symbols) (Analyzer.declareAll scope symbols) := by
  induction symbols with
  | nil => exact follows_pure ()
  | cons symbol rest ih => exact (follows_bindAt _ _).bind fun _ => ih

theorem follows_block (parent : ScopeId) (span : Span)
    {body : ScopeId → Pass (List Semantic.Stmt)} {body' : ScopeId → Analyzer (List Semantic.Stmt)}
    (h : ∀ scope, Follows context (body scope) (body' scope)) :
    Follows context (block parent span body) (Analyzer.block parent span body') := by
  refine (follows_openScope parent).bind fun scope => ?_
  exact (h scope).bind fun _ => follows_pure _

/-- The return context is put back. -/
theorem Follows.within {inner : ReturnContext} {p : Pass α} {m : Analyzer α}
    (h : Follows inner p m) : Follows context (within inner p) m := by
  intro s _
  have hinner := h { s with context := inner } rfl
  unfold Session.within
  rw [hinner, after_with s _ _ s.mainSeen inner]
  exact congrArg (Prod.mk _) (after_with s _ _ s.mainSeen s.context).symm

/-! ### Statements -/

theorem bounded_optionalInitializer (env : Env) (type : Ty) (init? : Option Syntax.Initializer) :
    (optionalInitializer env type init?).Bounded 0 := by
  cases init? with
  | none => exact Traced.silent_pure _
  | some init =>
    exact (Analysis.bounded_initializer env type init).bind fun _ => Traced.silent_pure _

/-- The analysis gives every hint. -/
theorem localInitializer_eq (env : Env) (type : Ty) (init? : Option Syntax.Initializer) :
    Analysis.localInitializer env type init? = do
      let init ← optionalInitializer env type init?
      scalarHint .default type init?
      return init := by
  cases init? with
  | none => rfl
  | some init =>
    unfold Analysis.localInitializer optionalInitializer scalarHint
    by_cases h : type.isAggregate = true
    · simp [h, Config.default]
    · simp [h, Config.default]

theorem events_scalarHint (c : Config) (type : Ty) (init? : Option Syntax.Initializer) :
    (scalarHint c type init?).events =
      (scalarHint .default type init?).events.filter c.hears := by
  cases init? with
  | none => rfl
  | some init =>
    unfold scalarHint
    cases hhints : c.scalarInitializers <;> cases haggregate : type.isAggregate <;>
      simp [Config.default, Config.hears, hhints]

theorem follows_scalarHint (scope : ScopeId) (type : Ty) (init? : Option Syntax.Initializer) :
    Follows context (do let s ← get; perform (scalarHint s.config type init?))
      (Analyzer.reading scope fun _ => scalarHint .default type init?) := by
  intro s _
  have hafter := after_scopes s (scalarHint .default type init?).events
  rw [← events_scalarHint] at hafter
  rw [Analyzer.reading_eq]
  exact congrArg (Prod.mk ()) hafter.symm

theorem follows_locals (scope : ScopeId) (l : Syntax.LocalVariables) :
    Follows context (locals scope l) (Analysis.locals scope l) := by
  have hlocals : Analysis.locals scope l = do
      let type ← Analyzer.reading scope (Analysis.typeExpr · l.type)
      let init ← Analyzer.reading scope (optionalInitializer · type l.initializer)
      Analyzer.reading scope fun _ => scalarHint .default type l.initializer
      Analyzer.declareAll scope (l.names.map fun name => .localVariable name type)
      return .locals ⟨scope, l.span⟩ type l.names init := by
    simp only [Analysis.locals, localInitializer_eq, Analyzer.reading_bind, Analyzer.reading_pure,
      bind_assoc, pure_bind]
  rw [hlocals]
  refine (follows_reading scope fun env => Analysis.bounded_typeExpr env l.type).bind fun type => ?_
  refine (follows_reading scope fun env =>
    bounded_optionalInitializer env type l.initializer).bind fun init => ?_
  rw [← bind_assoc get]
  refine (follows_scalarHint scope type l.initializer).bind fun _ => ?_
  exact (follows_declareAll scope _).bind fun _ => follows_pure _

mutual

theorem follows_stmt (context : ReturnContext) (scope : ScopeId) :
    ∀ s : Syntax.Stmt, Follows context (stmt scope s) (Analysis.stmt context scope s)
  | .nop _ => by
    rw [stmt, Analysis.stmt]
    exact follows_pure _
  | .expr e => by
    rw [stmt, Analysis.stmt]
    exact follows_reading scope fun env => Analysis.bounded_expressionStmt env e
  | .assignment a => by
    rw [stmt, Analysis.stmt]
    exact follows_reading scope fun env => Analysis.bounded_assignment env a
  | .returns r => by
    rw [stmt, Analysis.stmt]
    intro s hs
    subst hs
    exact (follows_reading scope fun env => Analysis.bounded_returnStmt s.context env r) s rfl
  | .routine _ call => by
    rw [stmt, Analysis.stmt]
    refine (follows_reading scope fun env => Analysis.bounded_routineArgs env call).bind fun _ => ?_
    exact follows_pure _
  | .directive d => by
    rw [stmt, Analysis.stmt]
    refine (follows_reading scope fun env => Analysis.bounded_directive env d).bind fun _ => ?_
    exact follows_pure _
  | .alternative _ first others none => by
    rw [stmt, Analysis.stmt]
    refine (follows_clause context scope first).bind fun _ => ?_
    exact (follows_clauses context scope others).bind fun _ => follows_pure _
  | .alternative span first others (some body) => by
    rw [stmt, Analysis.stmt]
    refine (follows_clause context scope first).bind fun _ => ?_
    refine (follows_clauses context scope others).bind fun _ => ?_
    have hbody := follows_block scope span fun inner => follows_stmts context inner body
    exact hbody.bind fun _ => follows_pure _
  | .loop span _ cond body => by
    rw [stmt, Analysis.stmt]
    refine (follows_reading scope fun env =>
      Analysis.bounded_checkedExpr env _ cond).bind fun _ => ?_
    have hbody := follows_block scope span fun inner => follows_stmts context inner body
    exact hbody.bind fun _ => follows_pure _
  | .forLoop span variant start stop step body => by
    rw [stmt, Analysis.stmt]
    refine (follows_reading scope fun env =>
      Analysis.bounded_forHeader env variant start stop step).bind fun _ => ?_
    have hbody := follows_block scope span fun inner => follows_stmts context inner body
    exact hbody.bind fun _ => follows_pure _
  | .locals l => by
    rw [stmt, Analysis.stmt]
    exact follows_locals scope l
  | .switch _ e cases => by
    rw [stmt, Analysis.stmt]
    refine (follows_reading scope fun env => Analysis.bounded_scrutinee env e).bind fun _ => ?_
    exact (follows_switchCases context scope _ cases).bind fun _ => follows_pure _

theorem follows_clause (context : ReturnContext) (scope : ScopeId) :
    ∀ c : Syntax.Clause, Follows context (clause scope c) (Analysis.clause context scope c)
  | ⟨span, cond, body⟩ => by
    rw [clause, Analysis.clause]
    refine (follows_reading scope fun env =>
      Analysis.bounded_checkedExpr env _ cond).bind fun _ => ?_
    have hbody := follows_block scope span fun inner => follows_stmts context inner body
    exact hbody.bind fun _ => follows_pure _

theorem follows_clauses (context : ReturnContext) (scope : ScopeId) :
    ∀ cs : List Syntax.Clause,
      Follows context (clauses scope cs) (Analysis.clauses context scope cs)
  | [] => follows_pure _
  | c :: rest => by
    rw [clauses, Analysis.clauses]
    refine (follows_clause context scope c).bind fun _ => ?_
    exact (follows_clauses context scope rest).bind fun _ => follows_pure _

theorem follows_switchCases (context : ReturnContext) (scope : ScopeId) (type : Ty) :
    ∀ cs : List Syntax.Case,
      Follows context (switchCases scope type cs) (Analysis.switchCases context scope type cs)
  | [] => follows_pure _
  | ⟨span, value, body⟩ :: rest => by
    rw [switchCases, Analysis.switchCases]
    refine (follows_reading scope fun env =>
      Analysis.bounded_caseValue env type rest.isEmpty span value).bind fun _ => ?_
    have hbody := follows_block scope span fun inner => follows_stmts context inner body
    refine hbody.bind fun _ => ?_
    exact (follows_switchCases context scope type rest).bind fun _ => follows_pure _

theorem follows_stmts (context : ReturnContext) (scope : ScopeId) :
    ∀ ss : List Syntax.Stmt, Follows context (stmts scope ss) (Analysis.stmts context scope ss)
  | [] => follows_pure _
  | s :: rest => by
    rw [stmts, Analysis.stmts]
    refine (follows_stmt context scope s).bind fun _ => ?_
    exact (follows_stmts context scope rest).bind fun _ => follows_pure _

end

/-! ### Declarations -/

theorem follows_body (scope : ScopeId) (span : Span) (s : Semantic.Signature)
    (ss : List Syntax.Stmt) :
    Follows context (body scope span s ss) (Analysis.callableBody scope span s ss) := by
  refine follows_block scope span fun inner => ?_
  refine (follows_declareAll inner _).bind fun _ => ?_
  exact (follows_stmts _ inner ss).within

/-- Declarations other than main programs. -/
theorem follows_decl {d : Syntax.Decl} (hd : Analysis.isMain d = false) (mainSeen : Bool)
    (scope : ScopeId) : Follows context (decl scope d) (Analysis.decl mainSeen scope d) := by
  cases d with
  | constant c =>
    refine (follows_reading scope fun env => Analysis.bounded_constantValue env c).bind fun r => ?_
    exact (follows_bindAt _ _).bind fun _ => follows_pure _
  | typeAlias a =>
    refine (follows_reading scope fun env =>
      Analysis.bounded_typeExpr env a.target).bind fun _ => ?_
    exact (follows_bindAt _ _).bind fun _ => follows_pure _
  | main => cases hd
  | forward s =>
    refine (follows_reading scope fun env => Analysis.bounded_signature env s).bind fun _ => ?_
    exact (follows_bindAt _ _).bind fun _ => follows_pure _
  | definition span s body =>
    refine (follows_reading scope fun env => Analysis.bounded_signature env s).bind fun _ => ?_
    refine (follows_bindAt _ _).bind fun _ => ?_
    exact (follows_body scope span _ body).bind fun _ => follows_pure _
  | directive d =>
    refine (follows_reading scope fun env => Analysis.bounded_directive env d).bind fun _ => ?_
    exact follows_pure _

theorem follows_secondMain (mainSeen : Bool) (span : Span) :
    Follows context (perform (secondMain mainSeen span)) (liftM (secondMain mainSeen span)) := by
  intro s _
  cases mainSeen with
  | false => rfl
  | true =>
    have hreport := after_scopes s [.found ⟨.secondMainProgram, span⟩]
    exact congrArg (Prod.mk ()) hreport.symm

/-- A main program, but for the note that there has been one. -/
theorem follows_main (mainSeen : Bool) (scope : ScopeId) (span : Span) (ss : List Syntax.Stmt) :
    Follows context
      (do
        perform (secondMain mainSeen span)
        let body ← within .main (block scope span (stmts · ss))
        return .main ⟨scope, span⟩ body)
      (Analysis.decl mainSeen scope (.main span ss)) := by
  have hdecl : Analysis.decl mainSeen scope (.main span ss) = do
      liftM (secondMain mainSeen span)
      let body ← Analyzer.block scope span (Analysis.stmts .main · ss)
      return .main ⟨scope, span⟩ body := by
    cases mainSeen <;> rfl
  have hbody := follows_block scope span fun inner => follows_stmts .main inner ss
  rw [hdecl]
  refine (follows_secondMain mainSeen span).bind fun _ => ?_
  exact hbody.within.bind fun _ => follows_pure _

theorem decl_eq (scope : ScopeId) (d : Syntax.Decl) (s : Session) :
    decl scope d s =
      let r := Analysis.decl s.mainSeen scope d s.scopes
      (r.result.1, (s.after r.events r.result.2).noting (s.mainSeen || Analysis.isMain d)) := by
  cases hd : Analysis.isMain d with
  | false =>
    rw [follows_decl hd s.mainSeen scope s rfl, Bool.or_false]
    exact congrArg (Prod.mk _) (after_noting s _ _ s.mainSeen)
  | true =>
    cases d with
    | main span ss =>
      have hmain := follows_main s.mainSeen scope span ss s rfl
      rw [Bool.or_true]
      exact congrArg (fun r => (r.1, r.2.noting true)) hmain
    | constant | typeAlias | forward | definition | directive => cases hd

/-- One declaration after the other, with the note on main programs carried along. -/
theorem decls_eq (scope : ScopeId) (ds : List Syntax.Decl) (s : Session) :
    decls scope ds s =
      let r := Analysis.decls s.mainSeen scope ds s.scopes
      (r.result.1,
        (s.after r.events r.result.2).noting (s.mainSeen || ds.any Analysis.isMain)) := by
  induction ds generalizing s with
  | nil =>
    rw [List.any_nil, Bool.or_false]
    rfl
  | cons d rest ih =>
    have hdecls : decls scope (d :: rest) s =
      ((decl scope d s).1 :: (decls scope rest (decl scope d s).2).1,
        (decls scope rest (decl scope d s).2).2) := rfl
    rw [hdecls, ih, decl_eq, Analysis.decls_cons]
    dsimp only
    rw [after_noting, after_after, noting_noting, List.any_cons, ← Bool.or_assoc]
    rfl

theorem filter_hears_undefinedCallables (c : Config) (cs : List Callable) :
    (Analysis.undefinedCallables cs).events.filter c.hears =
      (Analysis.undefinedCallables cs).events := by
  induction cs with
  | nil => rfl
  | cons callable rest ih => exact congrArg (_ :: ·) ih

theorem algorithm_eq (a : Syntax.Algorithm) {s : Session} (h : s.mainSeen = false) :
    algorithm a s =
      let r := Analysis.algorithm a s.scopes
      (r.result.1, (s.after r.events r.result.2).noting (a.decls.any Analysis.isMain)) := by
  let undefined (env : Env) : Traced Unit :=
    Analysis.undefinedCallables (env.table.undefinedCallables env.scope)
  have hpass : algorithm a s =
      let leading := reading ScopeTable.root (Analysis.directives · a.leading) s
      let all := decls ScopeTable.root a.decls leading.2
      (⟨⟨ScopeTable.root, a.span⟩, leading.1, all.1⟩,
        (reading ScopeTable.root undefined all.2).2) := rfl
  have hleading := (follows_reading ScopeTable.root
    fun env => Analysis.bounded_directives env a.leading) s rfl
  have hundefined (u : Session) := follows_reading_of_hears ScopeTable.root
    (fun env c => filter_hears_undefinedCallables c (env.table.undefinedCallables env.scope)) u rfl
  rw [Analyzer.reading_eq] at hleading
  simp only [Analyzer.reading_eq] at hundefined
  rw [hpass, hleading, Analysis.algorithm_eq]
  dsimp only
  rw [decls_eq]
  dsimp only
  rw [hundefined]
  dsimp only
  rw [after_noting, after_after, after_after, mainSeen_after, h, Bool.false_or]
  rfl

/-! ### What the events amount to -/

theorem types_foldl_handle (es : List Event) (s : Session) :
    (es.foldl handle s).types = s.types ++ (Event.types es).toArray := by
  induction es generalizing s with
  | nil => simp [Event.types]
  | cons e rest ih =>
    rw [List.foldl_cons, ih]
    cases e with
    | found | notConstant =>
      simp only [handle, report]
      split <;> rfl
    | overflow => rfl
    | typed id type => simp [handle, Event.types]

/-- The findings that the session reports go to the sink, in order. -/
theorem sink_foldl_handle (es : List Event) (s : Session) :
    (es.foldl handle s).sink =
      s.sink.reportAll (((Event.findings s.overflows es).filter (s.config.enables ·.cause.code)).map
        (Finding.diagnostic s.source)) := by
  induction es generalizing s with
  | nil => rfl
  | cons e rest ih =>
    rw [List.foldl_cons, ih]
    cases e with
    | found finding =>
      by_cases h : s.config.enables finding.cause.code = true
      · simp [handle, report, h, Event.findings, Sink.reportAll]
      · simp [handle, report, h, Event.findings]
    | notConstant span =>
      by_cases h : s.config.enables (Cause.notConstant (s.overflows.any span.encloses)).code = true
      · simp [handle, report, h, Event.findings, Sink.reportAll]
      · simp [handle, report, h, Event.findings]
    | overflow | typed => rfl

end Session

theorem Event.types_filter_hears (c : Config) (es : List Event) :
    types (es.filter c.hears) = types es := by
  unfold types
  rw [List.filterMap_filter]
  congr 1
  funext e
  cases e with
  | found => exact ite_self none
  | notConstant | overflow | typed => rfl

/-- A finding is wanted if it is heard of and reports under its code are switched on. -/
theorem Config.wants_eq (c : Config) (f : Finding) :
    c.wants f = (c.hears (.found f) && c.enables f.cause.code) := by
  obtain ⟨cause, span⟩ := f
  cases cause with
  | unofficial feature => cases feature <;> simp [wants, hears, enables, Cause.code, Bool.and_comm]
  | unbindable error => cases error <;> rfl
  | _ => rfl

theorem Event.findings_filter_hears (c : Config) (overflows : List Span) (es : List Event) :
    (findings overflows (es.filter c.hears)).filter (c.enables ·.cause.code) =
      (findings overflows es).filter c.wants := by
  fun_induction findings overflows es with
  | case1 => rfl
  | case2 overflows finding rest ih =>
    cases hhears : c.hears (.found finding) with
    | false => simp [hhears, Config.wants_eq, ih]
    | true => simp [hhears, Config.wants_eq, findings, List.filter_cons, ih]
  | case3 overflows span rest ih =>
    have hwants : c.wants ⟨.notConstant (overflows.any span.encloses), span⟩ = true := rfl
    have henables : c.enables (Cause.notConstant (overflows.any span.encloses)).code = true := rfl
    rw [List.filter_cons_of_pos hwants, ← ih]
    exact List.filter_cons_of_pos henables
  | case4 overflows span rest ih => exact ih
  | case5 overflows id type rest ih => exact ih

namespace Session

/-- **A session has the outcome of the analysis.** -/
theorem run_eq (config : Config) (source : Option String) (a : Syntax.Algorithm) :
    run config source a =
      { tree := (analyze a).tree
        scopes := (analyze a).scopes
        types := (analyze a).types
        sink := (analyze a).report config source } := by
  let events := (Analysis.algorithm a .initial).events
  have halgorithm : algorithm a (start config source) =
      ((analyze a).tree, ((start config source).after events (analyze a).scopes).noting _) :=
    algorithm_eq a rfl
  have htypes : ((start config source).after events (analyze a).scopes).types =
      (Event.types events).toArray := by
    rw [after, types_foldl_handle, Event.types_filter_hears]
    exact Array.empty_append
  have hsink : ((start config source).after events (analyze a).scopes).sink =
      (analyze a).report config source := by
    have hfindings := Event.findings_filter_hears config [] events
    rw [after, sink_foldl_handle]
    exact congrArg (fun found => (Sink.empty config.suppressed).reportAll
      (found.map (Finding.diagnostic source))) hfindings
  have hrun : run config source a =
      { tree := (algorithm a (start config source)).1
        scopes := (algorithm a (start config source)).2.scopes
        types := ⟨(algorithm a (start config source)).2.types.toList⟩
        sink := (algorithm a (start config source)).2.sink } := rfl
  rw [hrun, halgorithm]
  simp only [noting, htypes, hsink, scopes_after]
  rfl

/-! ### Lexical isolation -/

open ScopeTable (Confined)

theorem scopes_reading (scope : ScopeId) (f : Env → Traced α) (s : Session) :
    (reading scope f s).2.scopes = s.scopes := by
  change ((f ⟨s.scopes, scope⟩).events.foldl handle s).scopes = s.scopes
  rw [foldl_handle_eq]

theorem Follows.confined {s : Session} {p : Pass α} {m : Analyzer α} {e : Effect} {scope : ScopeId}
    (h : Follows s.context p m) (hm : m.Confines e scope) :
    Confined e scope s.scopes (p s).2.scopes := by
  rw [h s rfl]
  exact hm s.scopes

theorem confined_decl (scope : ScopeId) (d : Syntax.Decl) (s : Session) :
    Confined .declaring scope s.scopes (decl scope d s).2.scopes := by
  rw [decl_eq]
  exact Analysis.confines_decl s.mainSeen scope d s.scopes

/-- **What is analysed in a scope stays there.** Reading changes no scope. A block and the body of a
callable change none that was there before, a statement and a declaration none but the scope they
stand in, to which a statement only adds. Every scope opened lies below that scope. The return
context is the same before and after. -/
theorem lexical_isolation (s : Session) (scope : ScopeId) :
    (∀ e, (reading scope (Analysis.expr · e) s).2.scopes = s.scopes) ∧
    (∀ l, (reading scope (Analysis.lvalue · l) s).2.scopes = s.scopes) ∧
    (∀ t, (reading scope (Analysis.typeExpr · t) s).2.scopes = s.scopes) ∧
    (∀ type i, (reading scope (Analysis.initializer · type i) s).2.scopes = s.scopes) ∧
    (∀ d, (reading scope (Analysis.directive · d) s).2.scopes = s.scopes) ∧
    (∀ span ss, Confined .nothing scope s.scopes (block scope span (stmts · ss) s).2.scopes) ∧
    (∀ span sig ss, Confined .nothing scope s.scopes (body scope span sig ss s).2.scopes) ∧
    (∀ st, Confined .appending scope s.scopes (stmt scope st s).2.scopes ∧
      (stmt scope st s).2.context = s.context) ∧
    ∀ d, Confined .declaring scope s.scopes (decl scope d s).2.scopes ∧
      (decl scope d s).2.context = s.context := by
  refine ⟨fun e => scopes_reading .., fun l => scopes_reading .., fun t => scopes_reading ..,
    fun type i => scopes_reading .., fun d => scopes_reading .., ?_, ?_, ?_, ?_⟩
  · intro span ss
    have hfollows := follows_block scope span fun inner => follows_stmts s.context inner ss
    refine hfollows.confined ?_
    exact Analyzer.confines_block scope span fun inner => Analysis.confines_stmts _ inner ss
  · intro span sig ss
    refine (follows_body scope span sig ss).confined ?_
    exact Analysis.confines_callableBody scope span sig ss
  · intro st
    have hfollows := follows_stmt s.context scope st
    refine ⟨hfollows.confined (Analysis.confines_stmt s.context scope st), ?_⟩
    rw [hfollows s rfl, context_after]
  · intro d
    refine ⟨confined_decl scope d s, ?_⟩
    rw [decl_eq]
    exact context_after s _ (Analysis.decl s.mainSeen scope d s.scopes).result.2

end Session

end Pseudocode
