import Pseudocode.Proofs.Analysis.Evolution
import Pseudocode.Proofs.Analysis.Mirror
import Pseudocode.Proofs.Analysis.Session
import Pseudocode.Proofs.Scope.Frame

/-!
# The layout of an analysed program

Statements open scopes for their blocks, and declarations for the bodies of callables. Their scopes
are numbered as the blocks are in the outline of the program, each below the block around it, and
everything else is copied. `Mirrors` says so of an analysis that changes the scopes.
-/

namespace Pseudocode

open Event (typed?)

namespace ScopeTable

/-- The parents of the scopes, in order. -/
def parents (t : ScopeTable) : List (Option ScopeId) := t.scopes.toList.map (·.parent)

@[simp]
theorem length_parents (t : ScopeTable) : t.parents.length = t.size := by
  simp [parents, size]

theorem parent?_eq_some_iff {t : ScopeTable} {id parent : ScopeId} :
    t.parent? id = some parent ↔ t.parents[id]? = some (some parent) := by
  simp [parent?, parents, Option.bind_eq_some_iff]

@[simp]
theorem parents_push (t : ScopeTable) (parent : ScopeId) :
    (t.push parent).2.parents = t.parents ++ [some parent] := by
  simp [parents, push]

@[simp]
theorem parents_modifySymbols (t : ScopeTable) (id : ScopeId) (f : List Symbol → List Symbol) :
    (t.modifySymbols id f).parents = t.parents := by
  apply List.ext_getElem?
  intro i
  by_cases h : id = i
  · simp [parents, modifySymbols, h, Function.comp_def]
  · simp [parents, modifySymbols, h]

theorem parents_of_declare {t t' : ScopeTable} {id : ScopeId} {symbol : Symbol}
    (h : t.declare id symbol = .ok t') : t'.parents = t.parents := by
  obtain ⟨-, rfl⟩ := declare_eq_ok h
  exact parents_modifySymbols ..

theorem parents_of_declareCallable {t t' : ScopeTable} {id : ScopeId} {c : Callable}
    (h : t.declareCallable id c = .ok t') : t'.parents = t.parents := by
  obtain rfl | ⟨-, rfl⟩ := declareCallable_eq_ok h
  · rfl
  · exact parents_modifySymbols ..

theorem parents_of_defineCallable {t t' : ScopeTable} {id : ScopeId} {c : Callable}
    (h : t.defineCallable id c = .ok t') : t'.parents = t.parents := by
  obtain ⟨-, rfl⟩ | ⟨_, -, -, rfl⟩ := defineCallable_eq_ok h
  · exact parents_modifySymbols ..
  · exact parents_modifySymbols ..

end ScopeTable

namespace Analysis

open Outline

/-! ### Mirrors -/

/-- The term was analysed at a time when the scopes were between `t` and `t'`. -/
def RecordedBetween (t t' : ScopeTable) (c : Counterpart) (entry : Syntax.NodeId × Ty) : Prop :=
  ∃ env : Env, t.Evolves env.table ∧ env.table.Evolves t' ∧ Recorded env c entry

theorem RecordedBetween.mono {t₀ t t' t₁ : ScopeTable} {c : Counterpart}
    {entry : Syntax.NodeId × Ty} (h : RecordedBetween t t' c entry) (hstart : t₀.Evolves t)
    (hend : t'.Evolves t₁) : RecordedBetween t₀ t₁ c entry := by
  obtain ⟨env, hbefore, hafter, hrecorded⟩ := h
  exact ⟨env, hstart.trans hbefore, hafter.trans hend, hrecorded⟩

/-- In `scope` the outlines `xs` became `ys`, while the scopes went from `t` to `t'` and `entries`
were recorded. -/
structure Mirrors (scope : ScopeId) (t t' : ScopeTable) (xs : List (Outline Syntax.Mark))
    (ys : List (Outline Semantic.Mark)) (entries : List (Syntax.NodeId × Ty)) : Prop where
  outline : ys.map (map Semantic.Mark.scope) = numberedAll scope t.size xs
  parents : t'.parents = t.parents ++ (blocks scope t.size xs).map (some ·.enclosing)
  evolves : t.Evolves t'
  entries : List.Forall₂ (RecordedBetween t t') (counterpartsAll xs ys) entries

section Rules

variable {scope : ScopeId} {t t' t'' : ScopeTable} {xs xs' : List (Outline Syntax.Mark)}
  {ys ys' : List (Outline Semantic.Mark)} {entries entries' : List (Syntax.NodeId × Ty)}

theorem Copies.mirrors {env : Env} (h : Copies env xs ys entries) :
    Mirrors env.scope env.table env.table xs ys entries where
  outline := by rw [h.outline, numberedAll_of_blockCountAll _ _ _ h.flat]
  parents := by
    have hblocks := length_blocks env.scope env.table.size xs
    rw [h.flat, List.length_eq_zero_iff] at hblocks
    rw [hblocks, List.map_nil, List.append_nil]
  evolves := .refl _
  entries := h.entries.imp fun _ _ hc => ⟨env, .refl _, .refl _, hc⟩

theorem mirrors_rebind (scope : ScopeId) (hevolves : t.Evolves t')
    (hparents : t'.parents = t.parents) : Mirrors scope t t' [] [] [] where
  outline := rfl
  parents := by rw [hparents, blocks_nil, List.map_nil, List.append_nil]
  evolves := hevolves
  entries := .nil

theorem Mirrors.size_eq (h : Mirrors scope t t' xs ys entries) :
    t'.size = t.size + blockCountAll xs := by
  have hlength := congrArg List.length h.parents
  simpa [length_blocks] using hlength

theorem Mirrors.map_erase (h : Mirrors scope t t' xs ys entries) : xs.map erase = ys.map erase := by
  have houtline := congrArg (List.map erase) h.outline
  rw [erase_numberedAll, List.map_map] at houtline
  simpa [Function.comp_def] using houtline.symm

theorem Mirrors.length_eq (h : Mirrors scope t t' xs ys entries) : xs.length = ys.length := by
  simpa using congrArg List.length h.map_erase

theorem Mirrors.append (h : Mirrors scope t t' xs ys entries)
    (h' : Mirrors scope t' t'' xs' ys' entries') :
    Mirrors scope t t'' (xs ++ xs') (ys ++ ys') (entries ++ entries') where
  outline := by
    rw [List.map_append, numberedAll_append, h.outline, h'.outline, h.size_eq]
  parents := by
    rw [blocks_append, List.map_append, ← List.append_assoc, ← h.parents, h'.parents, h.size_eq]
  evolves := h.evolves.trans h'.evolves
  entries := by
    rw [counterpartsAll_append h.length_eq]
    have hfirst := h.entries.imp fun _ _ hc => hc.mono (.refl t) h'.evolves
    have hsecond := h'.entries.imp fun _ _ hc => hc.mono h.evolves (.refl t'')
    exact List.rel_append hfirst hsecond

theorem Mirrors.node (h : Mirrors scope t t' xs ys entries) (label : Label) (span : Span)
    (hlabel : label.isBlock = false := by rfl) :
    Mirrors scope t t' [.node label span .plain xs] [.node label span ⟨scope, none⟩ ys]
      entries where
  outline := by simp [map, numberedAll, numbered, hlabel, h.outline]
  parents := by rw [blocks_node scope t.size hlabel, h.parents]
  evolves := h.evolves
  entries := by simpa [counterpartsAll, counterparts, Syntax.Mark.plain] using h.entries

/-- The scope of a block is the next one. -/
theorem Mirrors.block (h : Mirrors t.size (t.push scope).2 t' xs ys entries) (span : Span) :
    Mirrors scope t t' [.node .block span .plain xs] [.node .block span ⟨t.size, none⟩ ys]
      entries where
  outline := by
    have houtline := h.outline
    rw [ScopeTable.size_push] at houtline
    simp [map, numberedAll, numbered, Label.isBlock, houtline]
  parents := by
    have hparents := h.parents
    rw [ScopeTable.size_push, ScopeTable.parents_push, List.append_assoc] at hparents
    rw [blocks_block scope t.size rfl, hparents]
    rfl
  evolves := (ScopeTable.Change.push t scope).evolves.trans h.evolves
  entries := by
    have hentries := h.entries.imp fun _ _ hc =>
      hc.mono (ScopeTable.Change.push t scope).evolves (.refl t')
    simpa [counterpartsAll, counterparts, Syntax.Mark.plain] using hentries

end Rules

end Analysis

/-! ### Analyses that change the scopes -/

namespace Analyzer

variable {α : Type}

/-- Wherever it starts, the analysis makes of the outlines `xs` those that its result has. -/
def Mirrors (m : Analyzer α) (scope : ScopeId) (xs : List (Outline Syntax.Mark))
    (outlines : α → List (Outline Semantic.Mark)) : Prop :=
  ∀ t, Analysis.Mirrors scope t (m t).result.2 xs (outlines (m t).result.1) ((m t).pick typed?)

variable {scope : ScopeId} {xs : List (Outline Syntax.Mark)}

theorem mirrors_reading {f : Env → Traced α} {outlines : α → List (Outline Semantic.Mark)}
    (h : ∀ env, Analysis.Copies env xs (outlines (f env).result) ((f env).pick typed?)) :
    (reading scope f).Mirrors scope xs outlines := by
  intro t
  rw [pick_reading]
  exact (h ⟨t, scope⟩).mirrors

theorem mirrors_bindAt (scope : ScopeId) (span : Span)
    {operation : ScopeTable → Except DeclareError ScopeTable}
    (hevolves : ∀ t t', operation t = .ok t' → t.Evolves t')
    (hparents : ∀ t t', operation t = .ok t' → t'.parents = t.parents) :
    (bindAt span operation).Mirrors scope [] fun _ => [] := by
  intro t
  unfold bindAt
  split
  · rename_i t' ht'
    exact Analysis.mirrors_rebind scope (hevolves t t' ht') (hparents t t' ht')
  · exact Analysis.mirrors_rebind scope (.refl t) rfl

theorem mirrors_declare (scope : ScopeId) (symbol : Symbol) :
    (declare scope symbol).Mirrors scope [] fun _ => [] :=
  mirrors_bindAt scope _ (fun _ _ => ScopeTable.evolves_of_declare) fun _ _ =>
    ScopeTable.parents_of_declare

theorem mirrors_declareCallable (scope : ScopeId) (span : Span) (c : Callable) :
    (bindAt span (·.declareCallable scope c)).Mirrors scope [] fun _ => [] :=
  mirrors_bindAt scope span (fun _ _ => ScopeTable.evolves_of_declareCallable) fun _ _ =>
    ScopeTable.parents_of_declareCallable

theorem mirrors_defineCallable (scope : ScopeId) (span : Span) (c : Callable) :
    (bindAt span (·.defineCallable scope c)).Mirrors scope [] fun _ => [] :=
  mirrors_bindAt scope span (fun _ _ => ScopeTable.evolves_of_defineCallable) fun _ _ =>
    ScopeTable.parents_of_defineCallable

theorem mirrors_declareAll (scope : ScopeId) (symbols : List Symbol) :
    (declareAll scope symbols).Mirrors scope [] fun _ => [] := by
  induction symbols with
  | nil => exact fun t => Analysis.mirrors_rebind scope (.refl t) rfl
  | cons s rest ih =>
    intro t
    rw [declareAll, pick_bind]
    exact (mirrors_declare scope s t).append (ih _)

theorem mirrors_block (scope : ScopeId) (span : Span)
    {body : ScopeId → Analyzer (List Semantic.Stmt)}
    (h : ∀ inner, (body inner).Mirrors inner xs Semantic.stmtOutlines) :
    (block scope span body).Mirrors scope [.node .block span .plain xs] fun b => [b.outline] := by
  intro t
  have hbody := (h t.size (t.push scope).2).block span
  simp only [block, pick_bind, pick_pure, List.append_nil]
  exact hbody

end Analyzer

namespace Analysis

open Analyzer (reading declareAll block)

/-! ### Parts of statements -/

theorem copies_checkedExpr (env : Env) (target : Ty) (e : Syntax.Expr) :
    Copies env [e.outline] [(checkedExpr env target e).result.outline]
      ((checkedExpr env target e).pick typed?) := by
  rw [pick_checkedExpr]
  exact copies_expr env e

theorem copies_checkedExpr? (env : Env) (target : Ty) (e? : Option Syntax.Expr) :
    Copies env (Syntax.optionalOutline e?)
      (Semantic.optionalOutline (checkedExpr? env target e?).result)
      ((checkedExpr? env target e?).pick typed?) := by
  cases e? with
  | none => exact copies_nil env
  | some e =>
    simp only [checkedExpr?, Traced.pick_bind, Traced.pick_pure, List.append_nil]
    exact copies_checkedExpr env target e

/-- An lvalue that is not used as an expression. -/
theorem copies_place (env : Env) (l : Syntax.Lvalue) :
    Copies env [l.outline []] [(lvalue env l).result.outline] ((lvalue env l).pick typed?) := by
  have hplace := copies_lvalue env l (List.forall_mem_nil _)
  rwa [List.map_nil, List.append_nil] at hplace

theorem copies_expressionStmt (env : Env) (e : Syntax.Expr) :
    Copies env [e.outline] [(expressionStmt env e).result.outline]
      ((expressionStmt env e).pick typed?) := by
  rw [pick_expressionStmt, expressionStmt, Traced.result_bind, Traced.result_unless_bind]
  exact copies_expr env e

theorem copies_assignment (env : Env) (a : Syntax.Assignment) :
    Copies env [(Syntax.Stmt.assignment a).outline] [(assignment env a).result.outline]
      ((assignment env a).pick typed?) := by
  have hparts := (copies_place env a.target).append (copies_expr env a.value)
  have hnode := hparts.plain .assignment a.span typed_nil
  rw [pick_assignment, assignment, Traced.result_bind]
  split <;> exact hnode

theorem copies_routineArgs (env : Env) (call : Syntax.RoutineCall) :
    Copies env call.operands ((routineArgs env call).result.map Semantic.Expr.outline)
      ((routineArgs env call).pick typed?) := by
  cases call with
  | assign file name =>
    simp only [routineArgs, Traced.pick_bind, Check.silent_convertible, Traced.pick_pure,
      List.nil_append, List.append_nil]
    exact (copies_place env file).append (copies_checkedExpr env .string name)
  | write file value =>
    simp only [routineArgs, Traced.pick_bind, Traced.pick_pure, List.append_nil]
    exact (copies_checkedExpr env .file file).append (copies_expr env value)
  | print values => exact copies_exprs env values
  | read file target =>
    simp only [routineArgs, Traced.pick_bind, Traced.pick_pure, List.append_nil]
    exact (copies_checkedExpr env .file file).append (copies_place env target)
  | readKey target =>
    simp only [routineArgs, Traced.pick_bind, Traced.pick_pure, List.append_nil]
    exact copies_place env target
  | close file | openAppend file | openWrite file | openRead file =>
    simp only [routineArgs, Traced.pick_bind, Traced.pick_pure, List.append_nil]
    exact copies_checkedExpr env .file file

theorem copies_returnedValue (env : Env) (e? : Option Syntax.Expr) :
    Copies env (Syntax.optionalOutline e?)
      (Semantic.optionalOutline (returnedValue env e?).result)
      ((returnedValue env e?).pick typed?) := by
  cases e? with
  | none => exact copies_nil env
  | some e =>
    simp only [returnedValue, Traced.pick_bind, Traced.pick_pure, List.append_nil]
    exact copies_expr env e

theorem copies_returnStmt (ctx : ReturnContext) (env : Env) (r : Syntax.Return) :
    Copies env [(Syntax.Stmt.returns r).outline] [(returnStmt ctx env r).result.outline]
      ((returnStmt ctx env r).pick typed?) := by
  have hnode := (copies_returnedValue env r.value).plain .returns r.span typed_nil
  rw [returnStmt, Traced.result_bind, Traced.pick_bind]
  dsimp only
  split
  · simp only [Traced.pick_bind, Traced.typed_report, Traced.pick_pure, List.append_nil]
    exact hnode
  · simp only [Traced.pick_bind, Check.silent_convertible, Traced.pick_pure, List.append_nil]
    exact hnode
  · rw [Traced.result_unless_bind, Traced.pick_unless_bind rfl, Traced.pick_pure, List.append_nil]
    exact hnode

theorem copies_scrutinee (env : Env) (e : Syntax.Expr) :
    Copies env [e.outline] [(scrutinee env e).result.outline] ((scrutinee env e).pick typed?) := by
  rw [pick_scrutinee, scrutinee, Traced.result_bind]
  split <;> exact copies_expr env e

theorem copies_caseValue (env : Env) (type : Ty) (isLast : Bool) (span : Span)
    (e? : Option Syntax.Expr) :
    Copies env (Syntax.optionalOutline e?)
      (Semantic.optionalOutline (caseValue env type isLast span e?).result)
      ((caseValue env type isLast span e?).pick typed?) := by
  cases e? with
  | some e =>
    simp only [caseValue, Traced.pick_bind, Check.silent_constant, Traced.pick_pure,
      List.append_nil]
    exact copies_checkedExpr env type e
  | none =>
    rw [caseValue]
    dsimp only
    rw [Traced.result_unless_bind, Traced.pick_unless_bind rfl]
    exact copies_nil env

theorem copies_localInitializer (env : Env) (type : Ty) (init? : Option Syntax.Initializer) :
    Copies env (init?.toList.map Syntax.Initializer.outline)
      ((localInitializer env type init?).result.toList.map Semantic.Initializer.outline)
      ((localInitializer env type init?).pick typed?) := by
  cases init? with
  | none => exact copies_nil env
  | some init =>
    rw [pick_localInitializer, localInitializer, Traced.result_bind, Traced.result_unless_bind]
    exact copies_initializer env type init

theorem copies_forHeader (env : Env) (variant : Syntax.Lvalue) (start stop : Syntax.Expr)
    (step : Option Syntax.Expr) :
    let header := (forHeader env variant start stop step).result
    Copies env
      (variant.outline [] :: start.outline :: stop.outline :: Syntax.optionalOutline step)
      (header.1.outline :: header.2.1.outline :: header.2.2.1.outline ::
        Semantic.optionalOutline header.2.2.2)
      ((forHeader env variant start stop step).pick typed?) := by
  have hvariant := copies_place env variant
  have hstart := copies_expr env start
  have hstop := copies_checkedExpr env (lvalue env variant).result.type stop
  have hstep := copies_checkedExpr? env (lvalue env variant).result.type step
  simp only [forHeader, Traced.pick_bind, Check.silent_assignable, Traced.pick_pure,
    List.nil_append, List.append_nil]
  exact hvariant.append (hstart.append (hstop.append hstep))

/-! ### Statements -/

theorem mirrors_condition (scope : ScopeId) (e : Syntax.Expr) :
    (reading scope (condition · e)).Mirrors scope [e.outline] fun e => [e.outline] :=
  Analyzer.mirrors_reading fun env => copies_checkedExpr env .boolean e

theorem mirrors_locals (scope : ScopeId) (l : Syntax.LocalVariables) :
    (locals scope l).Mirrors scope [(Syntax.Stmt.locals l).outline] fun s => [s.outline] := by
  intro t
  have hinit := copies_localInitializer ⟨t, scope⟩ (typeExpr ⟨t, scope⟩ l.type).result l.initializer
  have hnode := hinit.plain (.locals l.names) l.span (typed_typeExpr ⟨t, scope⟩ l.type)
  simp only [locals, Analyzer.pick_bind, Analyzer.pick_reading, Traced.pick_bind,
    Traced.pick_pure, Analyzer.pick_pure, List.append_nil]
  exact hnode.mirrors.append (Analyzer.mirrors_declareAll scope _ t)

mutual

theorem mirrors_stmt (ctx : ReturnContext) (scope : ScopeId) : ∀ s : Syntax.Stmt,
    (stmt ctx scope s).Mirrors scope [s.outline] fun s => [s.outline]
  | .nop span => by
    intro t
    rw [stmt]
    exact (mirrors_rebind scope (.refl t) rfl).node .nop span
  | .expr e => by
    rw [stmt]
    exact Analyzer.mirrors_reading fun env => copies_expressionStmt env e
  | .assignment a => by
    rw [stmt]
    exact Analyzer.mirrors_reading fun env => copies_assignment env a
  | .returns r => by
    rw [stmt]
    exact Analyzer.mirrors_reading fun env => copies_returnStmt ctx env r
  | .routine span call => by
    intro t
    have hargs := (copies_routineArgs ⟨t, scope⟩ call).mirrors
    have hnode := hargs.node (.routine call.routine) span
    simp only [stmt, Analyzer.pick_bind, Analyzer.pick_reading, Analyzer.pick_pure,
      List.append_nil]
    exact hnode
  | .directive d => by
    intro t
    have hnode := (copies_directive ⟨t, scope⟩ d).mirrors
    simp only [stmt, Analyzer.pick_bind, Analyzer.pick_reading, Analyzer.pick_pure,
      List.append_nil]
    exact hnode
  | .alternative span first others none => by
    intro t
    have hclauses := (mirrors_clause ctx scope first t).append (mirrors_clauses ctx scope others _)
    have hnode := hclauses.node .alternative span
    simp only [stmt, Analyzer.pick_bind, Analyzer.pick_pure, List.append_nil]
    exact hnode
  | .alternative span first others (some body) => by
    intro t
    have hbody := Analyzer.mirrors_block scope span fun inner => mirrors_stmts ctx inner body
    have hparts := (mirrors_clause ctx scope first t).append
      ((mirrors_clauses ctx scope others _).append (hbody _))
    have hnode := hparts.node .alternative span
    simp only [stmt, Analyzer.pick_bind, Analyzer.pick_pure, List.append_nil]
    exact hnode
  | .loop span kind cond body => by
    intro t
    have hbody := Analyzer.mirrors_block scope span fun inner => mirrors_stmts ctx inner body
    have hparts := (mirrors_condition scope cond t).append (hbody _)
    have hnode := hparts.node (.loop kind) span
    simp only [stmt, Analyzer.pick_bind, Analyzer.pick_pure, List.append_nil]
    exact hnode
  | .forLoop span variant start stop step body => by
    intro t
    have hheader := (copies_forHeader ⟨t, scope⟩ variant start stop step).mirrors
    have hbody := Analyzer.mirrors_block scope span fun inner => mirrors_stmts ctx inner body
    have hnode := (hheader.append (hbody t)).node .forLoop span
    simp only [stmt, Analyzer.pick_bind, Analyzer.pick_reading, Analyzer.pick_pure,
      List.append_nil]
    exact hnode
  | .locals l => by
    rw [stmt]
    exact mirrors_locals scope l
  | .switch span e cases => by
    intro t
    have he := (copies_scrutinee ⟨t, scope⟩ e).mirrors
    have hcases := mirrors_switchCases ctx scope (scrutinee ⟨t, scope⟩ e).result.type cases t
    have hnode := (he.append hcases).node .switch span
    simp only [stmt, Analyzer.pick_bind, Analyzer.pick_reading, Analyzer.pick_pure,
      List.append_nil]
    exact hnode

theorem mirrors_clause (ctx : ReturnContext) (scope : ScopeId) : ∀ c : Syntax.Clause,
    (clause ctx scope c).Mirrors scope [c.outline] fun c => [c.outline]
  | ⟨span, cond, body⟩ => by
    intro t
    have hbody := Analyzer.mirrors_block scope span fun inner => mirrors_stmts ctx inner body
    have hparts := (mirrors_condition scope cond t).append (hbody _)
    have hnode := hparts.node .clause span
    simp only [clause, Analyzer.pick_bind, Analyzer.pick_pure, List.append_nil]
    exact hnode

theorem mirrors_clauses (ctx : ReturnContext) (scope : ScopeId) : ∀ cs : List Syntax.Clause,
    (clauses ctx scope cs).Mirrors scope (Syntax.clauseOutlines cs) Semantic.clauseOutlines
  | [] => fun t => mirrors_rebind scope (.refl t) rfl
  | c :: rest => by
    intro t
    have hclauses := (mirrors_clause ctx scope c t).append (mirrors_clauses ctx scope rest _)
    simp only [clauses, Analyzer.pick_bind, Analyzer.pick_pure, List.append_nil]
    exact hclauses

theorem mirrors_switchCases (ctx : ReturnContext) (scope : ScopeId) (type : Ty) :
    ∀ cs : List Syntax.Case,
      (switchCases ctx scope type cs).Mirrors scope (Syntax.caseOutlines cs) Semantic.caseOutlines
  | [] => fun t => mirrors_rebind scope (.refl t) rfl
  | ⟨span, value, body⟩ :: rest => by
    intro t
    have hvalue := (copies_caseValue ⟨t, scope⟩ type rest.isEmpty span value).mirrors
    have hbody := Analyzer.mirrors_block scope span fun inner => mirrors_stmts ctx inner body
    have hcase := (hvalue.append (hbody t)).node .case span
    have hcases := hcase.append (mirrors_switchCases ctx scope type rest _)
    simp only [switchCases, Analyzer.pick_bind, Analyzer.pick_reading, Analyzer.pick_pure,
      List.append_nil]
    rw [← List.append_assoc]
    exact hcases

theorem mirrors_stmts (ctx : ReturnContext) (scope : ScopeId) : ∀ ss : List Syntax.Stmt,
    (stmts ctx scope ss).Mirrors scope (Syntax.stmtOutlines ss) Semantic.stmtOutlines
  | [] => fun t => mirrors_rebind scope (.refl t) rfl
  | s :: rest => by
    intro t
    have hstmts := (mirrors_stmt ctx scope s t).append (mirrors_stmts ctx scope rest _)
    simp only [stmts, Analyzer.pick_bind, Analyzer.pick_pure, List.append_nil]
    exact hstmts

end

/-! ### Declarations -/

theorem copies_parameters (env : Env) (ps : List Syntax.FormalParameter) :
    Copies env (ps.map Syntax.FormalParameter.outline)
      ((parameters env ps).result.map Semantic.FormalParameter.outline)
      ((parameters env ps).pick typed?) := by
  induction ps with
  | nil => exact copies_nil env
  | cons p rest ih =>
    have hnode := (copies_nil env).plain (.parameter p.mode p.name) p.span
      (typed_typeExpr env p.type)
    rw [List.append_nil] at hnode
    simp only [parameters, Traced.pick_bind, Traced.pick_pure, List.append_nil]
    exact hnode.append ih

theorem typed_returnType (env : Env) (type? : Option Syntax.TypeExpr) :
    Typed env (type?.toList.flatMap Syntax.TypeExpr.terms)
      ((returnType env type?).pick typed?) := by
  cases type? with
  | none => exact typed_nil
  | some type => simpa [returnType] using typed_typeExpr env type

theorem copies_signature (env : Env) (s : Syntax.Signature) :
    Copies env [s.outline] [(signature env s).result.outline] ((signature env s).pick typed?) := by
  have hnode := (copies_parameters env s.parameters).node (.signature s.kind s.name) s.span
    typed_nil (typed_returnType env s.returnType)
  simp only [signature, Traced.pick_bind, Traced.pick_pure, List.append_nil]
  exact hnode

theorem mirrors_callableBody (scope : ScopeId) (span : Span) (s : Semantic.Signature)
    (body : List Syntax.Stmt) :
    (callableBody scope span s body).Mirrors scope
      [.node .block span .plain (Syntax.stmtOutlines body)] fun b => [b.outline] := by
  refine Analyzer.mirrors_block scope span fun inner t => ?_
  rw [Analyzer.pick_bind]
  exact (Analyzer.mirrors_declareAll inner _ t).append (mirrors_stmts _ inner body _)

theorem mirrors_decl (mainSeen : Bool) (scope : ScopeId) (d : Syntax.Decl) :
    (decl mainSeen scope d).Mirrors scope [d.outline] fun d => [d.outline] := by
  intro t
  cases d with
  | constant c =>
    have hvalue := copies_initializer ⟨t, scope⟩ (typeExpr ⟨t, scope⟩ c.type).result c.value
    have hnode := hvalue.plain (.constant c.name) c.span (typed_typeExpr ⟨t, scope⟩ c.type)
    simp only [decl, constantValue, Analyzer.pick_bind, Analyzer.pick_reading, Traced.pick_bind,
      Check.silent_constant, Traced.pick_pure, Analyzer.pick_pure, List.append_nil]
    exact hnode.mirrors.append (Analyzer.mirrors_declare scope _ t)
  | typeAlias a =>
    have hnode := (copies_nil ⟨t, scope⟩).plain (.typeAlias a.name) a.span
      (typed_typeExpr ⟨t, scope⟩ a.target)
    simp only [decl, Analyzer.pick_bind, Analyzer.pick_reading, Analyzer.pick_pure,
      List.append_nil] at hnode ⊢
    exact hnode.mirrors.append (Analyzer.mirrors_declare scope _ t)
  | main span body =>
    have hbody := Analyzer.mirrors_block scope span fun inner => mirrors_stmts .main inner body
    have hnode := (hbody t).node .main span
    rw [decl]
    dsimp only
    split
    · simp only [Analyzer.pick_bind, Analyzer.pick_lift, Traced.typed_report, Analyzer.pick_pure,
        List.nil_append, List.append_nil]
      exact hnode
    · simp only [Analyzer.pick_bind, Analyzer.pick_pure, List.append_nil]
      exact hnode
  | forward s =>
    have hsignature := (copies_signature ⟨t, scope⟩ s).mirrors
    have hbind := Analyzer.mirrors_declareCallable scope s.span
      (signature ⟨t, scope⟩ s).result.callable t
    have hnode := (hsignature.append hbind).node .forward s.span
    simp only [decl, Analyzer.pick_bind, Analyzer.pick_reading, Analyzer.pick_pure,
      List.append_nil]
    exact hnode
  | definition span s body =>
    have hsignature := (copies_signature ⟨t, scope⟩ s).mirrors
    have hbind := Analyzer.mirrors_defineCallable scope s.span
      (signature ⟨t, scope⟩ s).result.callable t
    have hbody := mirrors_callableBody scope span (signature ⟨t, scope⟩ s).result body
    have hnode := (hsignature.append (hbind.append (hbody _))).node .definition span
    simp only [decl, Analyzer.pick_bind, Analyzer.pick_reading, Analyzer.pick_pure,
      List.append_nil]
    exact hnode
  | directive d =>
    have hnode := (copies_directive ⟨t, scope⟩ d).mirrors
    simp only [decl, Analyzer.pick_bind, Analyzer.pick_reading, Analyzer.pick_pure,
      List.append_nil]
    exact hnode

theorem mirrors_decls (mainSeen : Bool) (scope : ScopeId) (ds : List Syntax.Decl) :
    (decls mainSeen scope ds).Mirrors scope (ds.map Syntax.Decl.outline)
      (List.map Semantic.Decl.outline) := by
  induction ds generalizing mainSeen with
  | nil => exact fun t => mirrors_rebind scope (.refl t) rfl
  | cons d rest ih =>
    intro t
    simp only [decls, Analyzer.pick_bind, Analyzer.pick_pure, List.append_nil]
    exact (mirrors_decl mainSeen scope d t).append (ih _ _)

theorem mirrors_algorithm (a : Syntax.Algorithm) :
    (algorithm a).Mirrors ScopeTable.root [a.outline] fun a => [a.outline] := by
  intro t
  have hleading := copies_directives ⟨t, ScopeTable.root⟩ a.leading
  have hdecls := mirrors_decls false ScopeTable.root a.decls t
  have hnode := (hleading.mirrors.append hdecls).node (.algorithm a.leading.length) a.span
  have hlength : (directives ⟨t, ScopeTable.root⟩ a.leading).result.length = a.leading.length := by
    simpa using hleading.length_eq.symm
  have houtline : (algorithm a t).result.1.outline =
      .node (.algorithm a.leading.length) a.span ⟨ScopeTable.root, none⟩
        ((directives ⟨t, ScopeTable.root⟩ a.leading).result.map Semantic.Directive.outline ++
          (decls false ScopeTable.root a.decls t).result.1.map Semantic.Decl.outline) := by
    rw [← hlength]
    rfl
  have htypes : (algorithm a t).pick typed? =
      (directives ⟨t, ScopeTable.root⟩ a.leading).pick typed? ++
        (decls false ScopeTable.root a.decls t).pick typed? := by
    simp only [algorithm, Analyzer.pick_bind, Analyzer.pick_reading, silent_undefinedCallables,
      Analyzer.pick_pure, List.append_nil]
    rfl
  simp only [houtline, htypes]
  exact hnode

end Analysis

end Pseudocode
