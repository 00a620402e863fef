import Pseudocode.Analysis.Algorithm
import Pseudocode.Proofs.Scope.Frame

/-!
# Analyses stay in their scope

A statement adds symbols to the scope it stands in and touches no other scope that was there before.
A block does not even touch the scope it stands in: its statements have a scope of their own.
-/

namespace Pseudocode

open ScopeTable (Confined)

namespace Analyzer

variable {α β : Type} {e : Effect} {scope : ScopeId}

/-- Whatever the scopes are, the analysis is confined to `scope`. -/
def Confines (e : Effect) (scope : ScopeId) (m : Analyzer α) : Prop :=
  ∀ t : ScopeTable, Confined e scope t (m t).result.2

theorem confines_pure (a : α) : Confines e scope (pure a : Analyzer α) :=
  fun t => ScopeTable.confined_refl e scope t

theorem Confines.bind {m : Analyzer α} {f : α → Analyzer β} (hm : Confines e scope m)
    (hf : ∀ a, Confines e scope (f a)) : Confines e scope (m >>= f) := by
  intro t
  exact (hm t).trans (hf (m t).result.1 (m t).result.2)

theorem Confines.appending {m : Analyzer α} (h : Confines .nothing scope m) :
    Confines .appending scope m := fun t => (h t).appending

theorem Confines.declaring {m : Analyzer α} (h : Confines e scope m) :
    Confines .declaring scope m := fun t => (h t).declaring

theorem confines_reading (f : Env → Traced α) : Confines e scope (reading scope f) :=
  fun t => ScopeTable.confined_refl e scope t

theorem confines_lift (x : Traced α) : Confines e scope (liftM x : Analyzer α) :=
  fun t => ScopeTable.confined_refl e scope t

theorem confines_bindAt (span : Span) {operation : ScopeTable → Except DeclareError ScopeTable}
    (h : ∀ t t', operation t = .ok t' → Confined e scope t t') :
    Confines e scope (bindAt span operation) := by
  intro t
  unfold bindAt
  split
  · rename_i t' ht'
    exact h t t' ht'
  · exact ScopeTable.confined_refl e scope t

theorem confines_declare (scope : ScopeId) (symbol : Symbol) :
    Confines .appending scope (declare scope symbol) :=
  confines_bindAt _ fun _ _ => ScopeTable.confined_of_declare

theorem confines_declareAll (scope : ScopeId) (symbols : List Symbol) :
    Confines .appending scope (declareAll scope symbols) := by
  induction symbols with
  | nil => exact confines_pure ()
  | cons symbol rest ih => exact (confines_declare scope symbol).bind fun _ => ih

theorem confines_block (parent : ScopeId) (span : Span)
    {body : ScopeId → Analyzer (List Semantic.Stmt)}
    (hbody : ∀ inner, Confines .appending inner (body inner)) :
    Confines .nothing parent (block parent span body) := by
  intro t
  exact ScopeTable.Confined.of_push (hbody t.size (t.push parent).2)

end Analyzer

namespace Analysis

open Analyzer

theorem confines_locals (scope : ScopeId) (l : Syntax.LocalVariables) :
    Confines .appending scope (locals scope l) := by
  refine (confines_reading _).bind fun _ => ?_
  exact (confines_declareAll scope _).bind fun _ => confines_pure _

mutual

theorem confines_stmt (ctx : ReturnContext) (scope : ScopeId) :
    ∀ s : Syntax.Stmt, Confines .appending scope (stmt ctx scope s)
  | .nop _ => by
    rw [stmt]
    exact confines_pure _
  | .expr _ | .assignment _ | .returns _ => by
    rw [stmt]
    exact confines_reading _
  | .routine .. | .directive _ => by
    rw [stmt]
    exact (confines_reading _).bind fun _ => confines_pure _
  | .alternative _ first others none => by
    rw [stmt]
    refine (confines_clause ctx scope first).appending.bind fun _ => ?_
    exact (confines_clauses ctx scope others).appending.bind fun _ => confines_pure _
  | .alternative span first others (some body) => by
    rw [stmt]
    refine (confines_clause ctx scope first).appending.bind fun _ => ?_
    refine (confines_clauses ctx scope others).appending.bind fun _ => ?_
    have hbody := confines_block scope span fun inner => confines_stmts ctx inner body
    exact hbody.appending.bind fun _ => confines_pure _
  | .loop span _ _ body | .forLoop span _ _ _ _ body => by
    rw [stmt]
    refine (confines_reading _).bind fun _ => ?_
    have hbody := confines_block scope span fun inner => confines_stmts ctx inner body
    exact hbody.appending.bind fun _ => confines_pure _
  | .locals l => by
    rw [stmt]
    exact confines_locals scope l
  | .switch _ _ cases => by
    rw [stmt]
    refine (confines_reading _).bind fun _ => ?_
    exact (confines_switchCases ctx scope _ cases).appending.bind fun _ => confines_pure _

theorem confines_clause (ctx : ReturnContext) (scope : ScopeId) :
    ∀ c : Syntax.Clause, Confines .nothing scope (clause ctx scope c)
  | ⟨span, _, body⟩ => by
    rw [clause]
    refine (confines_reading _).bind fun _ => ?_
    have hbody := confines_block scope span fun inner => confines_stmts ctx inner body
    exact hbody.bind fun _ => confines_pure _

theorem confines_clauses (ctx : ReturnContext) (scope : ScopeId) :
    ∀ cs : List Syntax.Clause, Confines .nothing scope (clauses ctx scope cs)
  | [] => confines_pure _
  | c :: rest => by
    rw [clauses]
    refine (confines_clause ctx scope c).bind fun _ => ?_
    exact (confines_clauses ctx scope rest).bind fun _ => confines_pure _

theorem confines_switchCases (ctx : ReturnContext) (scope : ScopeId) (type : Ty) :
    ∀ cs : List Syntax.Case, Confines .nothing scope (switchCases ctx scope type cs)
  | [] => confines_pure _
  | ⟨span, _, body⟩ :: rest => by
    rw [switchCases]
    refine (confines_reading _).bind fun _ => ?_
    have hbody := confines_block scope span fun inner => confines_stmts ctx inner body
    refine hbody.bind fun _ => ?_
    exact (confines_switchCases ctx scope type rest).bind fun _ => confines_pure _

theorem confines_stmts (ctx : ReturnContext) (scope : ScopeId) :
    ∀ ss : List Syntax.Stmt, Confines .appending scope (stmts ctx scope ss)
  | [] => confines_pure _
  | s :: rest => by
    rw [stmts]
    refine (confines_stmt ctx scope s).bind fun _ => ?_
    exact (confines_stmts ctx scope rest).bind fun _ => confines_pure _

end

/-- The body of a callable, whose parameters are bound in the scope of the body. -/
def callableBody (scope : ScopeId) (span : Span) (s : Semantic.Signature)
    (body : List Syntax.Stmt) : Analyzer Semantic.Block :=
  block scope span fun inner => do
    declareAll inner (s.parameters.map fun p => .parameter p.name p.type p.mode)
    stmts (.callable s.returnType) inner body

theorem confines_callableBody (scope : ScopeId) (span : Span) (s : Semantic.Signature)
    (body : List Syntax.Stmt) : Confines .nothing scope (callableBody scope span s body) := by
  refine confines_block scope span fun inner => ?_
  exact (confines_declareAll inner _).bind fun _ => confines_stmts _ inner body

theorem confines_decl (mainSeen : Bool) (scope : ScopeId) (d : Syntax.Decl) :
    Confines .declaring scope (decl mainSeen scope d) := by
  cases d with
  | constant c | typeAlias a =>
    refine (confines_reading _).bind fun _ => ?_
    exact (confines_declare scope _).declaring.bind fun _ => confines_pure _
  | main span body =>
    have hbody := confines_block scope span fun inner => confines_stmts .main inner body
    rw [decl]
    dsimp only
    split
    · refine (confines_lift _).bind fun _ => ?_
      exact hbody.declaring.bind fun _ => confines_pure _
    · exact hbody.declaring.bind fun _ => confines_pure _
  | forward s =>
    refine (confines_reading _).bind fun _ => ?_
    refine (confines_bindAt _ fun _ _ => ScopeTable.confined_of_declareCallable).bind fun _ => ?_
    exact confines_pure _
  | definition span s body =>
    refine (confines_reading _).bind fun signature => ?_
    refine (confines_bindAt _ fun _ _ => ScopeTable.confined_of_defineCallable).bind fun _ => ?_
    exact (confines_callableBody scope span signature body).declaring.bind fun _ => confines_pure _
  | directive d => exact (confines_reading _).bind fun _ => confines_pure _

end Analysis

end Pseudocode
