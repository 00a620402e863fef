import Pseudocode.Analysis.Algorithm
import Pseudocode.Proofs.Scope.Evolution

/-!
# Analyses only let the scopes evolve

The analysis of a statement, a declaration or a whole algorithm changes the table of scopes in no
other ways than those of `ScopeTable.Change`.
-/

namespace Pseudocode

namespace Analyzer

variable {α β : Type}

/-- Whatever the scopes are, the analysis leaves scopes that they evolve into. -/
def Evolving (m : Analyzer α) : Prop := ∀ t : ScopeTable, t.Evolves (m t).result.2

theorem evolving_pure (a : α) : (pure a : Analyzer α).Evolving := fun t => .refl t

theorem Evolving.bind {m : Analyzer α} {f : α → Analyzer β} (hm : m.Evolving)
    (hf : ∀ a, (f a).Evolving) : (m >>= f).Evolving := by
  intro t
  exact (hm t).trans (hf (m t).result.1 (m t).result.2)

theorem evolving_reading (scope : ScopeId) (f : Env → Traced α) : (reading scope f).Evolving :=
  fun t => .refl t

theorem evolving_lift (x : Traced α) : (liftM x : Analyzer α).Evolving := fun t => .refl t

theorem evolving_openScope (parent : ScopeId) : (openScope parent).Evolving :=
  fun t => (ScopeTable.Change.push t parent).evolves

theorem evolving_bindAt (span : Span) {operation : ScopeTable → Except DeclareError ScopeTable}
    (h : ∀ t t', operation t = .ok t' → t.Evolves t') : (bindAt span operation).Evolving := by
  intro t
  unfold bindAt
  split
  · rename_i t' ht'
    exact h t t' ht'
  · exact .refl t

theorem evolving_declare (scope : ScopeId) (symbol : Symbol) : (declare scope symbol).Evolving :=
  evolving_bindAt _ fun _ _ => ScopeTable.evolves_of_declare

theorem evolving_declareAll (scope : ScopeId) (symbols : List Symbol) :
    (declareAll scope symbols).Evolving := by
  induction symbols with
  | nil => exact evolving_pure ()
  | cons s rest ih => exact (evolving_declare scope s).bind fun _ => ih

theorem evolving_block (parent : ScopeId) (span : Span)
    {body : ScopeId → Analyzer (List Semantic.Stmt)} (hbody : ∀ scope, (body scope).Evolving) :
    (block parent span body).Evolving := by
  refine (evolving_openScope parent).bind fun scope => ?_
  exact (hbody scope).bind fun _ => evolving_pure _

end Analyzer

namespace Analysis

open Analyzer

theorem evolving_locals (scope : ScopeId) (l : Syntax.LocalVariables) :
    (locals scope l).Evolving := by
  refine (evolving_reading scope _).bind fun _ => ?_
  exact (evolving_declareAll scope _).bind fun _ => evolving_pure _

mutual

theorem evolving_stmt (ctx : ReturnContext) (scope : ScopeId) :
    ∀ s : Syntax.Stmt, (stmt ctx scope s).Evolving
  | .nop _ => by
    rw [stmt]
    exact evolving_pure _
  | .expr _ | .assignment _ | .returns _ => by
    rw [stmt]
    exact evolving_reading scope _
  | .routine .. | .directive _ => by
    rw [stmt]
    exact (evolving_reading scope _).bind fun _ => evolving_pure _
  | .alternative _ first others none => by
    rw [stmt]
    refine (evolving_clause ctx scope first).bind fun _ => ?_
    exact (evolving_clauses ctx scope others).bind fun _ => evolving_pure _
  | .alternative _ first others (some body) => by
    rw [stmt]
    refine (evolving_clause ctx scope first).bind fun _ => ?_
    refine (evolving_clauses ctx scope others).bind fun _ => ?_
    exact (evolving_block scope _ fun s => evolving_stmts ctx s body).bind fun _ => evolving_pure _
  | .loop _ _ _ body | .forLoop _ _ _ _ _ body => by
    rw [stmt]
    refine (evolving_reading scope _).bind fun _ => ?_
    exact (evolving_block scope _ fun s => evolving_stmts ctx s body).bind fun _ => evolving_pure _
  | .locals l => by
    rw [stmt]
    exact evolving_locals scope l
  | .switch _ _ cases => by
    rw [stmt]
    refine (evolving_reading scope _).bind fun _ => ?_
    exact (evolving_switchCases ctx scope _ cases).bind fun _ => evolving_pure _

theorem evolving_clause (ctx : ReturnContext) (scope : ScopeId) :
    ∀ c : Syntax.Clause, (clause ctx scope c).Evolving
  | ⟨_, _, body⟩ => by
    rw [clause]
    refine (evolving_reading scope _).bind fun _ => ?_
    exact (evolving_block scope _ fun s => evolving_stmts ctx s body).bind fun _ => evolving_pure _

theorem evolving_clauses (ctx : ReturnContext) (scope : ScopeId) :
    ∀ cs : List Syntax.Clause, (clauses ctx scope cs).Evolving
  | [] => evolving_pure _
  | c :: rest => by
    rw [clauses]
    refine (evolving_clause ctx scope c).bind fun _ => ?_
    exact (evolving_clauses ctx scope rest).bind fun _ => evolving_pure _

theorem evolving_switchCases (ctx : ReturnContext) (scope : ScopeId) (type : Ty) :
    ∀ cs : List Syntax.Case, (switchCases ctx scope type cs).Evolving
  | [] => evolving_pure _
  | ⟨_, _, body⟩ :: rest => by
    rw [switchCases]
    refine (evolving_reading scope _).bind fun _ => ?_
    refine (evolving_block scope _ fun s => evolving_stmts ctx s body).bind fun _ => ?_
    exact (evolving_switchCases ctx scope type rest).bind fun _ => evolving_pure _

theorem evolving_stmts (ctx : ReturnContext) (scope : ScopeId) :
    ∀ ss : List Syntax.Stmt, (stmts ctx scope ss).Evolving
  | [] => evolving_pure _
  | s :: rest => by
    rw [stmts]
    refine (evolving_stmt ctx scope s).bind fun _ => ?_
    exact (evolving_stmts ctx scope rest).bind fun _ => evolving_pure _

end

theorem evolving_decl (mainSeen : Bool) (scope : ScopeId) (d : Syntax.Decl) :
    (decl mainSeen scope d).Evolving := by
  cases d with
  | constant c | typeAlias a =>
    refine (evolving_reading scope _).bind fun _ => ?_
    exact (evolving_declare scope _).bind fun _ => evolving_pure _
  | main span body =>
    have hbody := evolving_block scope span fun s => evolving_stmts .main s body
    rw [decl]
    dsimp only
    split
    · refine (evolving_lift _).bind fun _ => ?_
      exact hbody.bind fun _ => evolving_pure _
    · exact hbody.bind fun _ => evolving_pure _
  | forward s =>
    refine (evolving_reading scope _).bind fun _ => ?_
    refine (evolving_bindAt _ fun _ _ => ScopeTable.evolves_of_declareCallable).bind fun _ => ?_
    exact evolving_pure _
  | definition span s body =>
    refine (evolving_reading scope _).bind fun signature => ?_
    refine (evolving_bindAt _ fun _ _ => ScopeTable.evolves_of_defineCallable).bind fun _ => ?_
    refine Evolving.bind (evolving_block scope span fun inner => ?_) fun _ => evolving_pure _
    exact (evolving_declareAll inner _).bind fun _ => evolving_stmts _ inner body
  | directive d => exact (evolving_reading scope _).bind fun _ => evolving_pure _

theorem evolving_decls (mainSeen : Bool) (scope : ScopeId) (ds : List Syntax.Decl) :
    (decls mainSeen scope ds).Evolving := by
  induction ds generalizing mainSeen with
  | nil => exact evolving_pure _
  | cons d rest ih =>
    refine (evolving_decl mainSeen scope d).bind fun _ => ?_
    exact (ih _).bind fun _ => evolving_pure _

end Analysis

end Pseudocode
