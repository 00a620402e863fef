import Pseudocode.Proofs.Analysis.Delivery
import Pseudocode.Proofs.Analysis.Faithful
import Pseudocode.Proofs.Directive.Removal

/-!
# Directives only observe

The analysis of a program and that of the bare program go side by side. A directive adds to what the
first one leaves behind; it changes neither the scopes nor the place of the next item nor a value.
`Covers` relates the two analyses of a piece of syntax.
-/

namespace Pseudocode

namespace Traced

variable {α β γ δ : Type} {f : α → β} {g : γ → δ}

/-- The analysis `y` gives what `f` makes of the result of `x`, and whatever it leaves behind, `x`
leaves behind as well, in the same order. -/
structure Covers (f : α → β) (x : Traced α) (y : Traced β) : Prop where
  result : y.result = f x.result
  events : y.events.Sublist x.events

theorem covers_refl (x : Traced α) : Covers id x x := ⟨rfl, .refl _⟩

theorem covers_pure (f : α → β) (a : α) : Covers f (pure a) (pure (f a)) := ⟨rfl, .refl _⟩

theorem Covers.bind {x : Traced α} {y : Traced β} {k : α → Traced γ} {l : β → Traced δ}
    (h : Covers f x y) (hk : ∀ a, Covers g (k a) (l (f a))) : Covers g (x >>= k) (y >>= l) := by
  constructor
  · rw [result_bind, result_bind, h.result]
    exact (hk x.result).result
  · rw [events_bind, events_bind, h.result]
    exact h.events.append (hk x.result).events

/-- What comes first may be left out if the rest does without its result. -/
theorem Covers.after {x : Traced α} {k : α → Traced γ} {y : Traced δ}
    (h : ∀ a, Covers g (k a) y) : Covers g (x >>= k) y where
  result := (h x.result).result
  events := (h x.result).events.trans (List.sublist_append_right _ _)

/-- A last step that `g` undoes may be left out. -/
theorem Covers.bind_pure {x : Traced α} {y : Traced β} {k : α → γ} {g : γ → β}
    (h : Covers f x y) (hk : ∀ a, g (k a) = f a) : Covers g (x >>= fun a => pure (k a)) y where
  result := h.result.trans (hk x.result).symm
  events := h.events.trans (List.sublist_append_left _ _)

end Traced

namespace Analysis

open Traced (Covers covers_refl covers_pure)

/-! ### Initializers -/

mutual

theorem covers_initializer (env : Env) (target : Ty) : ∀ init : Syntax.Initializer,
    Covers Semantic.Initializer.bare (initializer env target init)
      (initializer env target init.bare)
  | .expr e => by
    rw [Syntax.Initializer.bare, initializer]
    refine (covers_refl _).bind fun e => (covers_refl _).bind fun _ => ?_
    exact covers_pure _ _
  | .braced ⟨span, items⟩ => by
    rw [Syntax.Initializer.bare, initializer, initializer]
    split
    · exact (covers_placedItems env target _ none items).bind fun _ => covers_pure _ _
    · dsimp only
      split
      · exact (covers_freeItems env items).bind fun _ => covers_pure _ _
      · refine (covers_refl _).bind fun _ => ?_
        exact (covers_freeItems env items).bind fun _ => covers_pure _ _

theorem covers_placedItems (env : Env) (target : Ty) (aggregate : Value) (cursor : Option Path) :
    ∀ items : List Syntax.Item,
    Covers (Prod.map id Semantic.bareItems) (placedItems env target aggregate cursor items)
      (placedItems env target aggregate cursor (Syntax.bareItems items))
  | [] => covers_pure _ _
  | .directive d :: rest => by
    rw [Syntax.bareItems, placedItems]
    refine Covers.after fun d => ?_
    exact (covers_placedItems env target aggregate cursor rest).bind_pure fun _ => rfl
  | .value ⟨span, designators, value⟩ :: rest => by
    rw [Syntax.bareItems, placedItems, placedItems]
    refine (covers_refl _).bind fun position => ?_
    refine (covers_initializer env _ value).bind fun value => ?_
    rw [Semantic.Initializer.value_bare]
    exact (covers_placedItems env target _ _ rest).bind fun _ => covers_pure _ _

theorem covers_freeItems (env : Env) : ∀ items : List Syntax.Item,
    Covers Semantic.bareItems (freeItems env items) (freeItems env (Syntax.bareItems items))
  | [] => covers_pure _ _
  | .directive d :: rest => by
    rw [Syntax.bareItems, freeItems]
    refine Covers.after fun d => ?_
    exact (covers_freeItems env rest).bind_pure fun _ => rfl
  | .value ⟨span, designators, value⟩ :: rest => by
    rw [Syntax.bareItems, freeItems, freeItems]
    refine (covers_refl _).bind fun designators => ?_
    refine (covers_initializer env _ value).bind fun value => ?_
    exact (covers_freeItems env rest).bind fun items => covers_pure _ _

end

end Analysis

/-! ### Statements -/

namespace Analyzer

variable {α β γ δ : Type} {f : α → β} {g : γ → δ}

/-- From the same scopes, the two analyses lead to the same scopes, and the first one covers the
second one. -/
def Covers (f : α → β) (m : Analyzer α) (n : Analyzer β) : Prop :=
  ∀ t : ScopeTable, (m t).Covers (Prod.map f id) (n t)

theorem covers_refl (m : Analyzer α) : Covers id m m := fun t => Traced.covers_refl (m t)

theorem covers_pure (f : α → β) (a : α) : Covers f (pure a) (pure (f a)) :=
  fun t => Traced.covers_pure (Prod.map f id) (a, t)

theorem Covers.bind {m : Analyzer α} {n : Analyzer β} {k : α → Analyzer γ} {l : β → Analyzer δ}
    (h : Covers f m n) (hk : ∀ a, Covers g (k a) (l (f a))) : Covers g (m >>= k) (n >>= l) := by
  intro t
  change (m t >>= fun r => k r.1 r.2).Covers _ (n t >>= fun r => l r.1 r.2)
  exact (h t).bind fun r => hk r.1 r.2

theorem covers_reading {scope : ScopeId} {x : Env → Traced α} {y : Env → Traced β}
    (h : ∀ env, (x env).Covers f (y env)) : Covers f (reading scope x) (reading scope y) :=
  fun t => (h ⟨t, scope⟩).bind fun _ => Traced.covers_pure _ _

/-- An analysis that only reads the scopes may be left out if the rest does without its result. -/
theorem Covers.after_reading {scope : ScopeId} {x : Env → Traced α} {k : α → Analyzer γ}
    {n : Analyzer δ} (h : ∀ a, Covers g (k a) n) : Covers g (reading scope x >>= k) n := by
  intro t
  have hstep : (reading scope x >>= k) t = x ⟨t, scope⟩ >>= fun a => k a t := by
    change (x ⟨t, scope⟩ >>= fun a => pure (a, t)) >>= (fun r => k r.1 r.2) = _
    simp only [bind_assoc, pure_bind]
  rw [hstep]
  exact Traced.Covers.after fun a => h a t

theorem covers_block (parent : ScopeId) (span : Span)
    {m n : ScopeId → Analyzer (List Semantic.Stmt)}
    (h : ∀ scope, Covers Semantic.bareStmts (m scope) (n scope)) :
    Covers Semantic.Block.bare (block parent span m) (block parent span n) := by
  refine (covers_refl _).bind fun scope => ?_
  exact (h scope).bind fun _ => covers_pure _ _

end Analyzer

namespace Analysis

open Analyzer

theorem stmts_singleton (ctx : ReturnContext) (scope : ScopeId) (s : Syntax.Stmt) :
    stmts ctx scope [s] = do
      let s ← stmt ctx scope s
      return [s] := by
  rw [stmts, stmts]
  simp only [pure_bind]

theorem stmts_append (ctx : ReturnContext) (scope : ScopeId) (ss rest : List Syntax.Stmt) :
    stmts ctx scope (ss ++ rest) = do
      let ss ← stmts ctx scope ss
      let rest ← stmts ctx scope rest
      return ss ++ rest := by
  induction ss with
  | nil => simp [stmts]
  | cons s ss ih => simp [stmts, ih]

theorem covers_localInitializer (env : Env) (type : Ty) (init : Option Syntax.Initializer) :
    (localInitializer env type init).Covers (Option.map Semantic.Initializer.bare)
      (localInitializer env type (init.map Syntax.Initializer.bare)) := by
  cases init with
  | none => exact Traced.covers_pure _ none
  | some init =>
    rw [Option.map_some, localInitializer, localInitializer, Syntax.Initializer.span_bare]
    refine (covers_initializer env type init).bind fun value => ?_
    dsimp only
    split
    · exact Traced.covers_pure _ (some value)
    · exact (Traced.covers_refl _).bind fun _ => Traced.covers_pure _ (some value)

theorem covers_locals (scope : ScopeId) (l : Syntax.LocalVariables) :
    Covers Semantic.Stmt.bare (locals scope l)
      (locals scope { l with initializer := l.initializer.map Syntax.Initializer.bare } >>=
        fun s => pure [s]) := by
  unfold locals
  simp only [bind_assoc, pure_bind]
  have hreading : ∀ env : Env, Traced.Covers (Prod.map id (Option.map Semantic.Initializer.bare))
      (do
        let type ← typeExpr env l.type
        let init ← localInitializer env type l.initializer
        return (type, init))
      (do
        let type ← typeExpr env l.type
        let init ← localInitializer env type (l.initializer.map Syntax.Initializer.bare)
        return (type, init)) := by
    intro env
    refine (Traced.covers_refl _).bind fun type => ?_
    exact (covers_localInitializer env type l.initializer).bind fun _ => Traced.covers_pure _ _
  refine (covers_reading hreading).bind fun r => ?_
  exact (covers_refl _).bind fun _ => covers_pure _ _

/-- The rule for a statement without anything to remove. -/
theorem covers_stmt_of_bare {x : Env → Traced Semantic.Stmt} (scope : ScopeId)
    (h : ∀ env, (x env).result.bare = [(x env).result]) :
    Covers Semantic.Stmt.bare (reading scope x) (reading scope x >>= fun s => pure [s]) := by
  intro t
  constructor
  · exact congrArg (·, t) (h ⟨t, scope⟩).symm
  · change List.Sublist (((x ⟨t, scope⟩).events ++ []) ++ []) _
    rw [List.append_nil]
    exact .refl _

theorem bare_expressionStmt (env : Env) (e : Syntax.Expr) :
    (expressionStmt env e).result.bare = [(expressionStmt env e).result] := by
  rw [expressionStmt, Traced.result_bind, Traced.result_unless_bind]
  rfl

theorem bare_assignment (env : Env) (a : Syntax.Assignment) :
    (assignment env a).result.bare = [(assignment env a).result] := by
  rw [assignment, Traced.result_bind]
  split <;> rfl

theorem bare_returnStmt (ctx : ReturnContext) (env : Env) (r : Syntax.Return) :
    (returnStmt ctx env r).result.bare = [(returnStmt ctx env r).result] := by
  rw [returnStmt, Traced.result_bind]
  split
  · rfl
  · rfl
  · rw [Traced.result_unless_bind]
    rfl

mutual

theorem covers_stmt (ctx : ReturnContext) (scope : ScopeId) : ∀ s : Syntax.Stmt,
    Covers Semantic.Stmt.bare (stmt ctx scope s) (stmts ctx scope s.bare)
  | .nop span => by
    rw [Syntax.Stmt.bare, stmts_singleton, stmt, pure_bind]
    exact covers_pure _ _
  | .expr e => by
    rw [Syntax.Stmt.bare, stmts_singleton, stmt]
    exact covers_stmt_of_bare scope fun env => bare_expressionStmt env e
  | .assignment a => by
    rw [Syntax.Stmt.bare, stmts_singleton, stmt]
    exact covers_stmt_of_bare scope fun env => bare_assignment env a
  | .returns r => by
    rw [Syntax.Stmt.bare, stmts_singleton, stmt]
    exact covers_stmt_of_bare scope fun env => bare_returnStmt ctx env r
  | .routine span call => by
    rw [Syntax.Stmt.bare, stmts_singleton, stmt]
    simp only [bind_assoc, pure_bind]
    exact (covers_refl _).bind fun _ => covers_pure _ _
  | .directive d => by
    rw [Syntax.Stmt.bare, stmts, stmt]
    exact Covers.after_reading fun _ => covers_pure _ _
  | .alternative span first others none => by
    rw [Syntax.Stmt.bare, stmts_singleton, stmt, stmt]
    simp only [bind_assoc, pure_bind]
    refine (covers_clause ctx scope first).bind fun _ => ?_
    exact (covers_clauses ctx scope others).bind fun _ => covers_pure _ _
  | .alternative span first others (some body) => by
    rw [Syntax.Stmt.bare, stmts_singleton, stmt, stmt]
    simp only [bind_assoc, pure_bind]
    refine (covers_clause ctx scope first).bind fun _ => ?_
    refine (covers_clauses ctx scope others).bind fun _ => ?_
    have hbody := covers_block scope span fun inner => covers_stmts ctx inner body
    exact hbody.bind fun _ => covers_pure _ _
  | .loop span kind condition body => by
    rw [Syntax.Stmt.bare, stmts_singleton, stmt, stmt]
    simp only [bind_assoc, pure_bind]
    refine (covers_refl _).bind fun _ => ?_
    have hbody := covers_block scope span fun inner => covers_stmts ctx inner body
    exact hbody.bind fun _ => covers_pure _ _
  | .forLoop span variant start stop step body => by
    rw [Syntax.Stmt.bare, stmts_singleton, stmt, stmt]
    simp only [bind_assoc, pure_bind]
    refine (covers_refl _).bind fun _ => ?_
    have hbody := covers_block scope span fun inner => covers_stmts ctx inner body
    exact hbody.bind fun _ => covers_pure _ _
  | .locals l => by
    rw [Syntax.Stmt.bare, stmts_singleton, stmt, stmt]
    exact covers_locals scope l
  | .switch span e cases => by
    rw [Syntax.Stmt.bare, stmts_singleton, stmt, stmt]
    simp only [bind_assoc, pure_bind]
    refine (covers_refl _).bind fun e => ?_
    exact (covers_switchCases ctx scope e.type cases).bind fun _ => covers_pure _ _

theorem covers_clause (ctx : ReturnContext) (scope : ScopeId) : ∀ c : Syntax.Clause,
    Covers Semantic.Clause.bare (clause ctx scope c) (clause ctx scope c.bare)
  | ⟨span, condition, body⟩ => by
    rw [Syntax.Clause.bare, clause, clause]
    refine (covers_refl _).bind fun _ => ?_
    have hbody := covers_block scope span fun inner => covers_stmts ctx inner body
    exact hbody.bind fun _ => covers_pure _ _

theorem covers_clauses (ctx : ReturnContext) (scope : ScopeId) : ∀ cs : List Syntax.Clause,
    Covers Semantic.bareClauses (clauses ctx scope cs) (clauses ctx scope (Syntax.bareClauses cs))
  | [] => covers_pure _ _
  | c :: rest => by
    rw [Syntax.bareClauses, clauses, clauses]
    refine (covers_clause ctx scope c).bind fun _ => ?_
    exact (covers_clauses ctx scope rest).bind fun _ => covers_pure _ _

theorem covers_switchCases (ctx : ReturnContext) (scope : ScopeId) (type : Ty) :
    ∀ cs : List Syntax.Case,
    Covers Semantic.bareCases (switchCases ctx scope type cs)
      (switchCases ctx scope type (Syntax.bareCases cs))
  | [] => covers_pure _ _
  | ⟨span, value, body⟩ :: rest => by
    rw [Syntax.bareCases, switchCases, switchCases, Syntax.isEmpty_bareCases]
    refine (covers_refl _).bind fun _ => ?_
    have hbody := covers_block scope span fun inner => covers_stmts ctx inner body
    refine hbody.bind fun _ => ?_
    exact (covers_switchCases ctx scope type rest).bind fun _ => covers_pure _ _

theorem covers_stmts (ctx : ReturnContext) (scope : ScopeId) : ∀ ss : List Syntax.Stmt,
    Covers Semantic.bareStmts (stmts ctx scope ss) (stmts ctx scope (Syntax.bareStmts ss))
  | [] => covers_pure _ _
  | s :: rest => by
    rw [Syntax.bareStmts, stmts_append, stmts]
    refine (covers_stmt ctx scope s).bind fun _ => ?_
    exact (covers_stmts ctx scope rest).bind fun _ => covers_pure _ _

end

/-! ### Algorithms -/

theorem decls_singleton (mainSeen : Bool) (scope : ScopeId) (d : Syntax.Decl) :
    decls mainSeen scope [d] = do
      let d ← decl mainSeen scope d
      return [d] := by
  rw [decls, decls]
  simp only [pure_bind]

theorem decls_append (mainSeen : Bool) (scope : ScopeId) (ds rest : List Syntax.Decl) :
    decls mainSeen scope (ds ++ rest) = do
      let ds' ← decls mainSeen scope ds
      let rest ← decls (mainSeen || ds.any isMain) scope rest
      return ds' ++ rest := by
  induction ds generalizing mainSeen with
  | nil => simp [decls]
  | cons d ds ih => simp [decls, ih, Bool.or_assoc]

theorem covers_constantValue (env : Env) (c : Syntax.ConstantDecl) :
    (constantValue env c).Covers (Prod.map id Semantic.Initializer.bare)
      (constantValue env { c with value := c.value.bare }) := by
  unfold constantValue
  refine (Traced.covers_refl _).bind fun type => ?_
  refine (covers_initializer env type c.value).bind fun init => ?_
  rw [Semantic.Initializer.value_bare, Syntax.Initializer.span_bare]
  exact (Traced.covers_refl _).bind fun _ => Traced.covers_pure _ (type, init)

theorem covers_decl (mainSeen : Bool) (scope : ScopeId) (d : Syntax.Decl) :
    Covers Semantic.Decl.bare (decl mainSeen scope d) (decls mainSeen scope d.bare) := by
  cases d with
  | constant c =>
    rw [Syntax.Decl.bare, decls_singleton, decl, decl]
    simp only [bind_assoc, pure_bind]
    refine (covers_reading fun env => covers_constantValue env c).bind fun r => ?_
    simp only [Prod.map, Semantic.Initializer.value_bare]
    exact (covers_refl _).bind fun _ => covers_pure _ _
  | typeAlias a =>
    rw [Syntax.Decl.bare, decls_singleton, decl]
    simp only [bind_assoc, pure_bind]
    refine (covers_refl _).bind fun target => ?_
    exact (covers_refl _).bind fun _ => covers_pure _ _
  | main span body =>
    have hbody := covers_block scope span fun inner => covers_stmts .main inner body
    rw [Syntax.Decl.bare, decls_singleton, decl, decl]
    dsimp only
    split
    · simp only [bind_assoc, pure_bind]
      refine (covers_refl _).bind fun _ => ?_
      exact hbody.bind fun _ => covers_pure _ _
    · simp only [bind_assoc, pure_bind]
      exact hbody.bind fun _ => covers_pure _ _
  | forward s =>
    rw [Syntax.Decl.bare, decls_singleton, decl]
    simp only [bind_assoc, pure_bind]
    refine (covers_refl _).bind fun signature => ?_
    exact (covers_refl _).bind fun _ => covers_pure _ _
  | definition span s body =>
    rw [Syntax.Decl.bare, decls_singleton, decl, decl]
    simp only [bind_assoc, pure_bind]
    refine (covers_refl _).bind fun signature => ?_
    refine (covers_refl _).bind fun _ => ?_
    refine Covers.bind (covers_block scope span fun inner => ?_) fun _ => covers_pure _ _
    exact (covers_refl _).bind fun _ => covers_stmts _ inner body
  | directive d =>
    rw [Syntax.Decl.bare, decls, decl]
    exact Covers.after_reading fun _ => covers_pure _ _

theorem any_isMain_bare (d : Syntax.Decl) : d.bare.any isMain = isMain d := by
  cases d <;> rfl

theorem covers_decls (mainSeen : Bool) (scope : ScopeId) (ds : List Syntax.Decl) :
    Covers (·.flatMap Semantic.Decl.bare) (decls mainSeen scope ds)
      (decls mainSeen scope (ds.flatMap Syntax.Decl.bare)) := by
  induction ds generalizing mainSeen with
  | nil => exact covers_pure _ _
  | cons d rest ih =>
    rw [List.flatMap_cons, decls_append, any_isMain_bare, decls]
    refine (covers_decl mainSeen scope d).bind fun _ => ?_
    exact (ih _).bind fun _ => covers_pure _ _

theorem covers_algorithm (a : Syntax.Algorithm) :
    Covers Semantic.Algorithm.bare (algorithm a) (algorithm a.bare) := by
  have hleading : reading ScopeTable.root (directives · a.bare.leading) = pure [] := rfl
  unfold algorithm
  rw [hleading, pure_bind]
  refine Covers.after_reading fun leading => ?_
  refine (covers_decls false ScopeTable.root a.decls).bind fun _ => ?_
  exact (covers_refl _).bind fun _ => covers_pure _ _

end Analysis

/-! ### Diagnostics -/

/-- The diagnostic without its advice. -/
def Diagnostic.plain (d : Diagnostic) : Diagnostic := { d with advice := [] }

/-- Overflows show in the advice only. -/
theorem Event.plain_findings_sublist (source : Option String) {few many : List Event}
    (h : few.Sublist many) (overflows overflows' : List Span) :
    ((findings overflows few).map fun f => (f.diagnostic source).plain).Sublist
      ((findings overflows' many).map fun f => (f.diagnostic source).plain) := by
  induction h generalizing overflows overflows' with
  | slnil => exact .slnil
  | cons event _ ih =>
    cases event with
    | found finding | notConstant span => exact .cons _ (ih overflows overflows')
    | overflow span => exact ih overflows (span :: overflows')
    | typed id type => exact ih overflows overflows'
  | cons_cons event _ ih =>
    cases event with
    | found finding | notConstant span => exact .cons_cons _ (ih overflows overflows')
    | overflow span => exact ih (span :: overflows) (span :: overflows')
    | typed id type => exact ih overflows overflows'

/-- A configuration lets plain diagnostics pass as it does the others. -/
theorem Config.plain_delivered (c : Config) (source : Option String) (findings : List Finding) :
    (c.deliver source findings).delivered.map Diagnostic.plain =
      (findings.map fun f => (f.diagnostic source).plain).filter c.passes := by
  rw [delivered_deliver, List.filter_map, List.filter_map, List.map_map]
  rfl

/-! ### Types on record -/

namespace InferredTypes

/-- An entry is found if no other one has its identity. -/
theorem get?_of_mem {types : InferredTypes} {id : Syntax.NodeId} {type : Ty}
    (hnodup : (types.records.map (·.1)).Nodup) (hmem : (id, type) ∈ types.records) :
    types.get? id = some type := by
  obtain ⟨before, after, hrecords⟩ := List.append_of_mem hmem
  rw [hrecords, List.map_append, List.map_cons] at hnodup
  have hapart := (List.nodup_append.mp hnodup).2.2
  refine List.lookup_eq_some_iff.mpr ⟨before, after, hrecords, fun entry hentry => ?_⟩
  exact bne_iff_ne.mpr (hapart entry.1 (List.mem_map_of_mem hentry) id List.mem_cons_self).symm

end InferredTypes

namespace Session

theorem ids_records_run (config : Config) (source : Option String) (a : Syntax.Algorithm) :
    (run config source a).types.records.map (·.1) = a.terms.map (·.id) := by
  have herase := (mirrors_run config source a).map_erase
  have hterms := Outline.term_counterparts _ _ (List.head_eq_of_cons_eq herase)
  rw [Analysis.ids_of_recorded (recorded_run config source a), Syntax.Algorithm.terms, ← hterms,
    List.map_map]
  rfl

/-- **Directives only observe.** Without its directives a program has the same scopes and the same
analysed tree, but for the directives in it. Whatever is reported of the bare program is reported of
the program as well, in the same order and up to advice. If all identities are different, the terms
outside of directives have the same types on record. -/
theorem directives_only_observe (config : Config) (source : Option String)
    (a : Syntax.Algorithm) :
    let full := run config source a
    let bare := run config source a.bare
    bare.scopes = full.scopes ∧
    bare.tree = full.tree.bare ∧
    (bare.sink.delivered.map Diagnostic.plain).Sublist
      (full.sink.delivered.map Diagnostic.plain) ∧
    ((a.terms.map (·.id)).Nodup → ∀ t ∈ a.bare.terms, ∃ type,
      bare.types.get? t.id = some type ∧ full.types.get? t.id = some type) := by
  intro full bare
  have hcovers := Analysis.covers_algorithm a .initial
  have hfull : full = _ := run_eq config source a
  have hbare : bare = _ := run_eq config source a.bare
  have hrecords : bare.types.records.Sublist full.types.records := by
    rw [hfull, hbare]
    exact hcovers.events.filterMap _
  have hscopes := congrArg Prod.snd hcovers.result
  have htree := congrArg Prod.fst hcovers.result
  refine ⟨?_, ?_, ?_, ?_⟩
  · rw [hfull, hbare]
    exact hscopes
  · rw [hfull, hbare]
    exact htree
  · rw [hfull, hbare]
    dsimp only
    rw [Analysis.report, Analysis.report, Config.plain_delivered, Config.plain_delivered]
    exact (Event.plain_findings_sublist source hcovers.events [] []).filter _
  · intro hnodup t ht
    have hids := ids_records_run config source a.bare
    have hmem : t.id ∈ bare.types.records.map (·.1) := by
      rw [hids]
      exact List.mem_map_of_mem ht
    obtain ⟨⟨id, type⟩, hentry, rfl⟩ := List.mem_map.mp hmem
    rw [← ids_records_run config source a] at hnodup
    refine ⟨type, InferredTypes.get?_of_mem (hnodup.sublist (hrecords.map _)) hentry, ?_⟩
    exact InferredTypes.get?_of_mem hnodup (hrecords.subset hentry)

end Session

end Pseudocode
