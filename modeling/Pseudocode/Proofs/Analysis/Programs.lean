import Pseudocode.Proofs.Analysis.Evolution
import Pseudocode.Proofs.Analysis.Traversal

/-!
# Statements and declarations keep every invariant

`Runs` extends the logic to analyses that change the scopes. Statements bind variables, whose types
come from type expressions. The value of a constant is stored in a place of its declared type before
it is bound, and a store need not keep an invariant. So `yields_decls` and `yields_algorithm` ask
for the constants that the declarations declare, and only for those that are bound in the end.
-/

namespace Pseudocode.Invariant

open Analysis
open Analyzer (reading openScope bindAt declare declareAll block)

variable {I : Invariant} {α β : Type}

/-! ### Tables -/

theorem table_initial : I.table .initial := by
  intro id s hs
  simp at hs

theorem table_push {t : ScopeTable} (ht : I.table t) (parent : ScopeId) :
    I.table (t.push parent).2 := by
  intro id s hs
  rw [ScopeTable.symbols_push] at hs
  exact ht id s hs

theorem table_bind {t : ScopeTable} (ht : I.table t) {symbol : Symbol} (hsymbol : I.symbol symbol)
    (id : ScopeId) : I.table (t.bind id symbol) := by
  intro other s hs
  obtain hold | rfl := ScopeTable.mem_symbols_bind hs
  · exact ht other s hold
  · exact hsymbol

theorem table_define {t : ScopeTable} (ht : I.table t) (id : ScopeId) (name : String) :
    I.table (t.modifySymbols id (ScopeTable.markDefined name)) := by
  intro other s hs
  rw [ScopeTable.symbols_modifySymbols] at hs
  split at hs
  · obtain hold | ⟨c, hc, rfl⟩ := ScopeTable.mem_markDefined hs
    · exact ht other s hold
    · exact ht other (.callable c) hc
  · exact ht other s hs

/-! ### Analyses that change the scopes -/

/-- From scopes that the invariant is kept of, the analysis leads to such scopes, and `post` holds
of its result. -/
def Runs (I : Invariant) (m : Analyzer α) (post : α → Prop) : Prop :=
  ∀ t, I.table t → I.Yields (m t) fun r => I.table r.2 ∧ post r.1

theorem runs_pure {a : α} {post : α → Prop} (h : post a) : I.Runs (pure a) post :=
  fun _ ht => yields_pure ⟨ht, h⟩

theorem Runs.bind {m : Analyzer α} {f : α → Analyzer β} {mid : α → Prop} {post : β → Prop}
    (hm : I.Runs m mid) (hf : ∀ a, mid a → I.Runs (f a) post) : I.Runs (m >>= f) post := by
  intro t ht
  change I.Yields (m t >>= fun r => f r.1 r.2) _
  exact (hm t ht).bind fun r hr => hf r.1 hr.2 r.2 hr.1

theorem runs_reading {scope : ScopeId} {f : Env → Traced α} {post : α → Prop}
    (hf : ∀ env, I.table env.table → I.Yields (f env) post) : I.Runs (reading scope f) post :=
  fun t ht => (hf ⟨t, scope⟩ ht).bind fun _ ha => yields_pure ⟨ht, ha⟩

theorem runs_lift {x : Traced α} {post : α → Prop} (hx : I.Yields x post) :
    I.Runs (liftM x : Analyzer α) post := by
  intro t ht
  change I.Yields (x >>= fun a => pure (a, t)) _
  exact hx.bind fun _ ha => yields_pure ⟨ht, ha⟩

theorem runs_openScope (parent : ScopeId) : I.Runs (openScope parent) fun _ => True :=
  fun _ ht => yields_pure ⟨table_push ht parent, trivial⟩

theorem runs_bindAt (span : Span) {operation : ScopeTable → Except DeclareError ScopeTable}
    (h : ∀ t t', I.table t → operation t = .ok t' → I.table t') :
    I.Runs (bindAt span operation) fun _ => True := by
  intro t ht
  unfold bindAt
  split
  · rename_i t' ht'
    exact yields_pure ⟨h t t' ht ht', trivial⟩
  · exact (yields_report_true _ span).bind fun _ _ => yields_pure ⟨ht, trivial⟩

theorem runs_declare (scope : ScopeId) {symbol : Symbol} (hsymbol : I.symbol symbol) :
    I.Runs (declare scope symbol) fun _ => True := by
  refine runs_bindAt _ fun t t' ht ht' => ?_
  obtain ⟨-, rfl⟩ := ScopeTable.declare_eq_ok ht'
  exact table_bind ht hsymbol scope

theorem runs_declareAll (scope : ScopeId) {symbols : List Symbol}
    (hsymbols : ∀ s ∈ symbols, I.symbol s) : I.Runs (declareAll scope symbols) fun _ => True := by
  induction symbols with
  | nil => exact runs_pure trivial
  | cons s rest ih =>
    refine (runs_declare scope (hsymbols s List.mem_cons_self)).bind fun _ _ => ?_
    exact ih fun s hs => hsymbols s (List.mem_cons_of_mem _ hs)

theorem runs_block (parent : ScopeId) (span : Span) {body : ScopeId → Analyzer (List Semantic.Stmt)}
    (hbody : ∀ scope, I.Runs (body scope) fun ss => I.parts (Semantic.stmtParts ss)) :
    I.Runs (block parent span body) fun b => I.parts b.parts := by
  refine (runs_openScope parent).bind fun scope _ => ?_
  exact (hbody scope).bind fun ss hss => runs_pure hss

/-! ### Parts of statements -/

section Parts

variable {env : Env}

theorem yields_checkedExpr (henv : I.table env.table) (target : Ty) (e : Syntax.Expr) :
    I.Yields (checkedExpr env target e) fun e => I.parts e.parts := by
  refine (yields_expr henv e).bind fun e he => ?_
  exact (yields_convertible e target).bind fun _ _ => yields_pure he

theorem parts_optionalParts_some {e : Semantic.Expr} (he : I.parts e.parts) :
    I.parts (Semantic.optionalParts (some e)) := by
  simpa [Semantic.optionalParts] using he

theorem yields_checkedExpr? (henv : I.table env.table) (target : Ty) (e? : Option Syntax.Expr) :
    I.Yields (checkedExpr? env target e?) fun e? => I.parts (Semantic.optionalParts e?) := by
  cases e? with
  | none => exact yields_pure parts_nil
  | some e =>
    refine (yields_checkedExpr henv target e).bind fun e he => yields_pure ?_
    exact parts_optionalParts_some he

theorem yields_expressionStmt (henv : I.table env.table) (e : Syntax.Expr) :
    I.Yields (expressionStmt env e) fun s => I.parts s.parts := by
  refine (yields_expr henv e).bind fun e he => ?_
  exact yields_report_unless_bind (yields_pure he)

theorem yields_assignment (henv : I.table env.table) (a : Syntax.Assignment) :
    I.Yields (assignment env a) fun s => I.parts s.parts := by
  refine (yields_lvalue henv a.target).bind fun target htarget => ?_
  have hrest : I.Yields (do
      let value ← expr env a.value
      Check.assignable value target.type
      return Semantic.Stmt.assignment (env.site a.span) target value) fun s => I.parts s.parts := by
    refine (yields_expr henv a.value).bind fun value hvalue => ?_
    refine (yields_assignable value target.type).bind fun _ _ => yields_pure ?_
    exact parts_append.mpr ⟨htarget, hvalue⟩
  dsimp only
  split
  · exact (yields_report_true _ _).bind fun _ _ => hrest
  · exact hrest

theorem yields_routineArgs (henv : I.table env.table) (call : Syntax.RoutineCall) :
    I.Yields (routineArgs env call) fun es => I.parts (es.flatMap Semantic.Expr.parts) := by
  cases call with
  | assign file name =>
    refine (yields_lvalue henv file).bind fun file hfile => ?_
    refine (yields_convertible file .file).bind fun _ _ => ?_
    refine (yields_checkedExpr henv .string name).bind fun name hname => yields_pure ?_
    simpa using ⟨hfile, hname⟩
  | write file value =>
    refine (yields_checkedExpr henv .file file).bind fun file hfile => ?_
    refine (yields_expr henv value).bind fun value hvalue => yields_pure ?_
    simpa using ⟨hfile, hvalue⟩
  | print values => exact yields_exprs henv values
  | read file target =>
    refine (yields_checkedExpr henv .file file).bind fun file hfile => ?_
    refine (yields_lvalue henv target).bind fun target htarget => yields_pure ?_
    simpa using ⟨hfile, htarget⟩
  | readKey target =>
    refine (yields_lvalue henv target).bind fun target htarget => yields_pure ?_
    simpa using htarget
  | close file | openAppend file | openWrite file | openRead file =>
    refine (yields_checkedExpr henv .file file).bind fun file hfile => yields_pure ?_
    simpa using hfile

theorem yields_forHeader (henv : I.table env.table) (variant : Syntax.Lvalue)
    (start stop : Syntax.Expr) (step : Option Syntax.Expr) :
    I.Yields (forHeader env variant start stop step) fun r =>
      I.parts (r.1.parts ++ r.2.1.parts ++ r.2.2.1.parts ++ Semantic.optionalParts r.2.2.2) := by
  refine (yields_lvalue henv variant).bind fun variant hvariant => ?_
  refine (yields_expr henv start).bind fun start hstart => ?_
  refine (yields_assignable start variant.type).bind fun _ _ => ?_
  refine (yields_checkedExpr henv variant.type stop).bind fun stop hstop => ?_
  refine (yields_checkedExpr? henv variant.type step).bind fun step hstep => yields_pure ?_
  simpa only [parts_append] using ⟨⟨⟨hvariant, hstart⟩, hstop⟩, hstep⟩

theorem yields_localInitializer (henv : I.table env.table) {type : Ty} (htype : I.type type)
    (init : Option Syntax.Initializer) :
    I.Yields (localInitializer env type init) fun init =>
      I.parts (init.toList.flatMap Semantic.Initializer.parts) := by
  cases init with
  | none => exact yields_pure parts_nil
  | some init =>
    refine (yields_initializer henv htype init).bind fun value hvalue => ?_
    exact yields_report_unless_bind (yields_pure (by simpa using hvalue.1))

theorem yields_returnedValue (henv : I.table env.table) (e? : Option Syntax.Expr) :
    I.Yields (returnedValue env e?) fun e? => I.parts (Semantic.optionalParts e?) := by
  cases e? with
  | none => exact yields_pure parts_nil
  | some e =>
    exact (yields_expr henv e).bind fun e he => yields_pure (parts_optionalParts_some he)

theorem yields_returnStmt (henv : I.table env.table) (ctx : ReturnContext) (r : Syntax.Return) :
    I.Yields (returnStmt ctx env r) fun s => I.parts s.parts := by
  refine (yields_returnedValue henv r.value).bind fun value hvalue => ?_
  dsimp only
  split
  · exact (yields_report_true _ _).bind fun _ _ => yields_pure hvalue
  · exact (yields_convertible _ _).bind fun _ _ => yields_pure hvalue
  · exact yields_report_unless_bind (yields_pure hvalue)

theorem yields_scrutinee (henv : I.table env.table) (e : Syntax.Expr) :
    I.Yields (scrutinee env e) fun e => I.parts e.parts := by
  refine (yields_expr henv e).bind fun e he => ?_
  dsimp only
  split
  · exact (yields_report_true _ _).bind fun _ _ => yields_pure he
  · exact yields_pure he

theorem yields_caseValue (henv : I.table env.table) (type : Ty) (isLast : Bool) (span : Span)
    (e? : Option Syntax.Expr) :
    I.Yields (caseValue env type isLast span e?) fun e? => I.parts (Semantic.optionalParts e?) := by
  cases e? with
  | some e =>
    refine (yields_checkedExpr henv type e).bind fun e he => ?_
    refine (yields_constant _ _).bind fun _ _ => yields_pure ?_
    exact parts_optionalParts_some he
  | none =>
    exact yields_report_unless_bind (yields_pure parts_nil)

end Parts

/-! ### Statements -/

theorem runs_locals (scope : ScopeId) (l : Syntax.LocalVariables) :
    I.Runs (locals scope l) fun s => I.parts s.parts := by
  have hheader : I.Runs (reading scope fun env => do
      let type ← typeExpr env l.type
      let init ← localInitializer env type l.initializer
      return (type, init)) fun r =>
        I.type r.1 ∧ I.parts (r.2.toList.flatMap Semantic.Initializer.parts) := by
    refine runs_reading fun env henv => ?_
    refine (yields_typeExpr henv l.type).bind fun type htype => ?_
    refine (yields_localInitializer henv htype l.initializer).bind fun init hinit => ?_
    exact yields_pure ⟨htype, hinit⟩
  refine hheader.bind fun r hr => ?_
  have hsymbols : ∀ s ∈ l.names.map fun name => Symbol.localVariable name r.1, I.symbol s := by
    intro s hs
    obtain ⟨name, -, rfl⟩ := List.mem_map.mp hs
    exact hr.1
  refine (runs_declareAll scope hsymbols).bind fun _ _ => runs_pure ?_
  exact parts_cons.mpr ⟨hr.1, hr.2⟩

mutual

theorem runs_stmt (ctx : ReturnContext) (scope : ScopeId) :
    ∀ s : Syntax.Stmt, I.Runs (stmt ctx scope s) fun s => I.parts s.parts
  | .nop span => by
    rw [stmt]
    exact runs_pure parts_nil
  | .expr e => by
    rw [stmt]
    exact runs_reading fun env henv => yields_expressionStmt henv e
  | .alternative span first others none => by
    rw [stmt]
    refine (runs_clause ctx scope first).bind fun first hfirst => ?_
    refine (runs_clauses ctx scope others).bind fun others hothers => runs_pure ?_
    exact parts_append.mpr ⟨hfirst, hothers⟩
  | .alternative span first others (some body) => by
    rw [stmt]
    refine (runs_clause ctx scope first).bind fun first hfirst => ?_
    refine (runs_clauses ctx scope others).bind fun others hothers => ?_
    refine (runs_block scope span fun inner => runs_stmts ctx inner body).bind fun body hbody => ?_
    exact runs_pure (parts_append.mpr ⟨parts_append.mpr ⟨hfirst, hothers⟩, hbody⟩)
  | .assignment a => by
    rw [stmt]
    exact runs_reading fun env henv => yields_assignment henv a
  | .routine span call => by
    rw [stmt]
    refine (runs_reading fun env henv => yields_routineArgs henv call).bind fun args hargs => ?_
    exact runs_pure hargs
  | .loop span kind cond body => by
    rw [stmt]
    refine (runs_reading fun env henv => yields_checkedExpr henv _ cond).bind fun cond hcond => ?_
    refine (runs_block scope span fun inner => runs_stmts ctx inner body).bind fun body hbody => ?_
    exact runs_pure (parts_append.mpr ⟨hcond, hbody⟩)
  | .forLoop span variant start stop step body => by
    rw [stmt]
    refine (runs_reading fun env henv => yields_forHeader henv variant start stop step).bind
      fun header hheader => ?_
    refine (runs_block scope span fun inner => runs_stmts ctx inner body).bind fun body hbody => ?_
    exact runs_pure (parts_append.mpr ⟨hheader, hbody⟩)
  | .locals l => by
    rw [stmt]
    exact runs_locals scope l
  | .returns r => by
    rw [stmt]
    exact runs_reading fun env henv => yields_returnStmt henv ctx r
  | .switch span e cases => by
    rw [stmt]
    refine (runs_reading fun env henv => yields_scrutinee henv e).bind fun e he => ?_
    refine (runs_switchCases ctx scope e.type cases).bind fun cases hcases => runs_pure ?_
    exact parts_append.mpr ⟨he, hcases⟩
  | .directive d => by
    rw [stmt]
    refine (runs_reading fun env henv => yields_directive henv d).bind fun d hd => ?_
    exact runs_pure hd

theorem runs_clause (ctx : ReturnContext) (scope : ScopeId) :
    ∀ c : Syntax.Clause, I.Runs (clause ctx scope c) fun c => I.parts c.parts
  | ⟨span, cond, body⟩ => by
    rw [clause]
    refine (runs_reading fun env henv => yields_checkedExpr henv _ cond).bind fun cond hcond => ?_
    refine (runs_block scope span fun inner => runs_stmts ctx inner body).bind fun body hbody => ?_
    exact runs_pure (parts_append.mpr ⟨hcond, hbody⟩)

theorem runs_clauses (ctx : ReturnContext) (scope : ScopeId) :
    ∀ cs : List Syntax.Clause,
      I.Runs (clauses ctx scope cs) fun cs => I.parts (Semantic.clauseParts cs)
  | [] => runs_pure parts_nil
  | c :: rest => by
    rw [clauses]
    refine (runs_clause ctx scope c).bind fun c hc => ?_
    refine (runs_clauses ctx scope rest).bind fun rest hrest => runs_pure ?_
    exact parts_append.mpr ⟨hc, hrest⟩

theorem runs_switchCases (ctx : ReturnContext) (scope : ScopeId) (type : Ty) :
    ∀ cs : List Syntax.Case,
      I.Runs (switchCases ctx scope type cs) fun cs => I.parts (Semantic.caseParts cs)
  | [] => runs_pure parts_nil
  | ⟨span, value, body⟩ :: rest => by
    rw [switchCases]
    refine (runs_reading fun env henv => yields_caseValue henv type _ span value).bind
      fun value hvalue => ?_
    refine (runs_block scope span fun inner => runs_stmts ctx inner body).bind fun body hbody => ?_
    refine (runs_switchCases ctx scope type rest).bind fun rest hrest => runs_pure ?_
    exact parts_append.mpr ⟨parts_append.mpr ⟨hvalue, hbody⟩, hrest⟩

theorem runs_stmts (ctx : ReturnContext) (scope : ScopeId) :
    ∀ ss : List Syntax.Stmt, I.Runs (stmts ctx scope ss) fun ss => I.parts (Semantic.stmtParts ss)
  | [] => runs_pure parts_nil
  | s :: rest => by
    rw [stmts]
    refine (runs_stmt ctx scope s).bind fun s hs => ?_
    refine (runs_stmts ctx scope rest).bind fun rest hrest => runs_pure ?_
    exact parts_append.mpr ⟨hs, hrest⟩

end

/-! ### Declarations -/

section Signatures

variable {env : Env}

theorem yields_parameters (henv : I.table env.table) (ps : List Syntax.FormalParameter) :
    I.Yields (parameters env ps) fun ps => ∀ p ∈ ps, I.type p.type := by
  induction ps with
  | nil => exact yields_pure (by simp)
  | cons p rest ih =>
    refine (yields_typeExpr henv p.type).bind fun type htype => ih.bind fun rest hrest => ?_
    refine yields_pure fun q hq => ?_
    obtain rfl | hq := List.mem_cons.mp hq
    · exact htype
    · exact hrest q hq

theorem yields_returnType (henv : I.table env.table) (type : Option Syntax.TypeExpr) :
    I.Yields (returnType env type) I.type := by
  cases type with
  | none => exact yields_pure (I.type_basic rfl)
  | some type => exact yields_typeExpr henv type

/-- What is kept of a signature. -/
def signature (I : Invariant) (s : Semantic.Signature) : Prop :=
  (∀ p ∈ s.parameters, I.type p.type) ∧ I.type s.returnType

theorem yields_signature (henv : I.table env.table) (s : Syntax.Signature) :
    I.Yields (Analysis.signature env s) I.signature := by
  refine (yields_parameters henv s.parameters).bind fun parameters hparameters => ?_
  refine (yields_returnType henv s.returnType).bind fun returnType hreturnType => ?_
  exact yields_pure ⟨hparameters, hreturnType⟩

theorem signature.parts {s : Semantic.Signature} (hs : I.signature s) : I.parts s.parts := by
  refine parts_append.mpr ⟨?_, parts_cons.mpr ⟨hs.2, parts_nil⟩⟩
  intro part hpart
  obtain ⟨p, hp, rfl⟩ := List.mem_map.mp hpart
  exact hs.1 p hp

theorem signature.callable {s : Semantic.Signature} (hs : I.signature s) :
    I.callable s.callable := by
  refine ⟨?_, hs.2⟩
  intro p hp
  obtain ⟨q, hq, rfl⟩ := List.mem_map.mp hp
  exact hs.1 q hq

theorem yields_constantValue (henv : I.table env.table) (c : Syntax.ConstantDecl) :
    I.Yields (constantValue env c) fun r =>
      I.type r.1 ∧ I.parts r.2.parts ∧ I.stores r.2.value r.1 ∧
        (r.2.value.isKnown = false → r.2.value.isInvalid = false → I.excused) := by
  refine (yields_typeExpr henv c.type).bind fun type htype => ?_
  refine (yields_initializer henv htype c.value).bind fun init hinit => ?_
  refine (yields_constant _ _).bind fun _ hknown => yields_pure ?_
  exact ⟨htype, hinit.1, hinit.2, hknown⟩

end Signatures

theorem runs_declareCallable (span : Span) (scope : ScopeId) {c : Callable} (hc : I.callable c) :
    I.Runs (bindAt span (·.declareCallable scope c)) fun _ => True := by
  refine runs_bindAt span fun t t' ht ht' => ?_
  have hsymbol : I.symbol (.callable { c with state := .declared }) := hc
  obtain rfl | ⟨-, rfl⟩ := ScopeTable.declareCallable_eq_ok ht'
  · exact ht
  · exact table_bind ht hsymbol scope

theorem runs_defineCallable (span : Span) (scope : ScopeId) {c : Callable} (hc : I.callable c) :
    I.Runs (bindAt span (·.defineCallable scope c)) fun _ => True := by
  refine runs_bindAt span fun t t' ht ht' => ?_
  have hsymbol : I.symbol (.callable { c with state := .defined }) := hc
  obtain ⟨-, rfl⟩ | ⟨-, -, -, rfl⟩ := ScopeTable.defineCallable_eq_ok ht'
  · exact table_bind ht hsymbol scope
  · exact table_define ht scope c.name.text

/-- The symbol is the constant that an analysed declaration declares: its value is stored in a place
of the declared type. If it is not known, an error accounts for it. -/
def declares (I : Invariant) (d : Semantic.Decl) (s : Symbol) : Prop :=
  ∃ site type name init, d = .constant site type name init ∧
    s = .constant name type (init.value.storedAs type) ∧
    I.type type ∧ I.parts init.parts ∧ I.stores init.value type ∧
    (init.value.isKnown = false → init.value.isInvalid = false → I.excused)

/-- Declarations of anything but a constant bind what the invariant is kept of. -/
theorem runs_decl (mainSeen : Bool) (scope : ScopeId) {d : Syntax.Decl}
    (hd : ∀ c, d ≠ .constant c) : I.Runs (decl mainSeen scope d) fun d => I.parts d.parts := by
  cases d with
  | constant c => exact absurd rfl (hd c)
  | typeAlias a =>
    refine (runs_reading fun env henv => yields_typeExpr henv a.target).bind
      fun target htarget => ?_
    have hsymbol : I.symbol (.typeAlias a.name target) := htarget
    refine (runs_declare scope hsymbol).bind fun _ _ => runs_pure ?_
    exact parts_cons.mpr ⟨htarget, parts_nil⟩
  | main span body =>
    have hbody := runs_block (I := I) scope span fun inner => runs_stmts .main inner body
    rw [decl]
    dsimp only
    split
    · refine (runs_lift (yields_report_true _ span)).bind fun _ _ => ?_
      exact hbody.bind fun body hbody => runs_pure hbody
    · exact hbody.bind fun body hbody => runs_pure hbody
  | forward s =>
    refine (runs_reading fun env henv => yields_signature henv s).bind fun signature hs => ?_
    refine (runs_declareCallable s.span scope hs.callable).bind fun _ _ => ?_
    exact runs_pure hs.parts
  | definition span s body =>
    refine (runs_reading fun env henv => yields_signature henv s).bind fun signature hs => ?_
    refine (runs_defineCallable s.span scope hs.callable).bind fun _ _ => ?_
    have hsymbols : ∀ symbol ∈ signature.parameters.map
        fun p => Symbol.parameter p.name p.type p.mode, I.symbol symbol := by
      intro symbol hsymbol
      obtain ⟨p, hp, rfl⟩ := List.mem_map.mp hsymbol
      exact hs.1 p hp
    refine Runs.bind (runs_block scope span fun inner => ?_) fun body hbody => runs_pure ?_
    · exact (runs_declareAll inner hsymbols).bind fun _ _ => runs_stmts _ inner body
    · exact parts_append.mpr ⟨hs.parts, hbody⟩
  | directive d =>
    exact (runs_reading fun env henv => yields_directive henv d).bind fun d hd => runs_pure hd

/-- To declare a symbol binds nothing else. -/
theorem yields_declare (scope : ScopeId) (symbol : Symbol) {t : ScopeTable} (ht : I.table t) :
    I.Yields (declare scope symbol t) fun r =>
      ∀ id, ∀ s ∈ r.2.symbols id, I.symbol s ∨ s = symbol := by
  unfold declare bindAt
  split
  · rename_i t' ht'
    obtain ⟨-, rfl⟩ := ScopeTable.declare_eq_ok ht'
    refine yields_pure fun id s hs => ?_
    exact (ScopeTable.mem_symbols_bind hs).imp_left (ht id s)
  · refine (yields_report_true _ _).bind fun _ _ => yields_pure fun id s hs => ?_
    exact .inl (ht id s hs)

/-- A declaration binds what the invariant is kept of, except perhaps for the constant that it
declares. -/
theorem yields_decl (mainSeen : Bool) (scope : ScopeId) (d : Syntax.Decl) {t : ScopeTable}
    (ht : I.table t) :
    I.Yields (decl mainSeen scope d t) fun r =>
      I.parts r.1.parts ∧ ∀ id, ∀ s ∈ r.2.symbols id, I.symbol s ∨ I.declares r.1 s := by
  by_cases hd : ∃ c, d = .constant c
  · obtain ⟨c, rfl⟩ := hd
    change I.Yields (reading scope (constantValue · c) t >>= fun r =>
      declare scope (.constant c.name r.1.1 (r.1.2.value.storedAs r.1.1)) r.2 >>= fun d =>
        pure (Semantic.Decl.constant ⟨scope, c.span⟩ r.1.1 c.name r.1.2, d.2)) _
    refine (runs_reading (fun env henv => yields_constantValue henv c) t ht).bind fun r hr => ?_
    obtain ⟨ht', htype, hparts, hvalue⟩ := hr
    refine (yields_declare scope _ ht').bind fun d hd => yields_pure ?_
    refine ⟨parts_cons.mpr ⟨htype, hparts⟩, fun id s hs => ?_⟩
    exact (hd id s hs).imp_right fun heq => ⟨_, _, _, _, rfl, heq, htype, hparts, hvalue⟩
  · refine (runs_decl mainSeen scope (fun c hc => hd ⟨c, hc⟩) t ht).imp fun r hr => ?_
    exact ⟨hr.2, fun id s hs => .inl (hr.1 id s hs)⟩

/-- **Declarations keep the invariant**, if it is kept of the constants among the symbols that they
leave behind: a constant that one of them declares is still bound after the last. -/
theorem yields_decls (mainSeen : Bool) (scope : ScopeId) (ds : List Syntax.Decl) {t : ScopeTable}
    (ht : I.table t)
    (hdeclared : ∀ d ∈ (decls mainSeen scope ds t).result.1, ∀ id,
      ∀ s ∈ (decls mainSeen scope ds t).result.2.symbols id, I.declares d s → I.symbol s) :
    I.Yields (decls mainSeen scope ds t) fun r =>
      I.table r.2 ∧ I.parts (r.1.flatMap Semantic.Decl.parts) := by
  induction ds generalizing mainSeen t with
  | nil => exact yields_pure ⟨ht, parts_nil⟩
  | cons d rest ih =>
    change I.Yields (decl mainSeen scope d t >>= fun first =>
      decls (mainSeen || isMain d) scope rest first.2 >>= fun r => pure (first.1 :: r.1, r.2)) _
    refine (yields_decl mainSeen scope d ht).bind_result fun hfirst => ?_
    -- What this declaration declares is bound for good, so it is among the symbols that `hdeclared`
    -- is about, whatever the later declarations do.
    have hlater :=
      evolving_decls (mainSeen || isMain d) scope rest (decl mainSeen scope d t).result.2
    have htable : I.table (decl mainSeen scope d t).result.2 := by
      intro id s hs
      obtain hsymbol | hs' := hfirst.2 id s hs
      · exact hsymbol
      · have hcallable : s.callable? = none := by
          obtain ⟨_, _, _, _, -, rfl, -⟩ := hs'
          rfl
        exact hdeclared _ List.mem_cons_self id s (hlater.mem_symbols hcallable hs) hs'
    have hrest := ih (mainSeen || isMain d) htable fun d' hd' =>
      hdeclared d' (List.mem_cons_of_mem _ hd')
    refine hrest.bind fun r hr => yields_pure ⟨hr.1, ?_⟩
    exact parts_append.mpr ⟨hfirst.1, hr.2⟩

theorem yields_undefinedCallables (cs : List Callable) :
    I.Yields (undefinedCallables cs) fun _ => True := by
  induction cs with
  | nil => exact yields_pure trivial
  | cons c rest ih => exact (yields_report_true _ _).bind fun _ _ => ih

/-- **The analysis of an algorithm keeps the invariant**, if it is kept of the constants that are
declared in it. -/
theorem yields_algorithm (a : Syntax.Algorithm)
    (hdeclared : ∀ d ∈ (algorithm a .initial).result.1.decls, ∀ id,
      ∀ s ∈ (algorithm a .initial).result.2.symbols id, I.declares d s → I.symbol s) :
    I.Yields (algorithm a .initial) fun r => I.table r.2 ∧ I.parts r.1.parts := by
  change I.Yields (reading ScopeTable.root (directives · a.leading) .initial >>= fun leading =>
    decls false ScopeTable.root a.decls leading.2 >>= fun ds =>
      reading ScopeTable.root (fun env =>
        undefinedCallables (env.table.undefinedCallables env.scope)) ds.2 >>= fun r =>
          pure (Semantic.Algorithm.mk ⟨ScopeTable.root, a.span⟩ leading.1 ds.1, r.2)) _
  refine (runs_reading (fun env henv => yields_directives henv a.leading) .initial
    table_initial).bind_result fun hleading => ?_
  refine (yields_decls false ScopeTable.root a.decls table_initial hdeclared).bind fun ds hds => ?_
  refine (runs_reading (fun env _ => yields_undefinedCallables _) ds.2 hds.1).bind fun r hr => ?_
  exact yields_pure ⟨hr.1, parts_append.mpr ⟨hleading.2, hds.2⟩⟩

end Pseudocode.Invariant
