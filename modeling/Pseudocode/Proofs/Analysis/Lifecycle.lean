import Pseudocode.Proofs.Analysis.Delivery
import Pseudocode.Proofs.Scope.Lifecycle

/-!
# Callables that are announced

The root scope is bound to by declarations only: bodies have scopes of their own. What the table
makes of a declaration, and which callables are missing at the end, can therefore be told from the
list of declarations.
-/

namespace Pseudocode

open Semantic (Decl Signature)

/-- A callable was refused. -/
def Cause.refusesCallable : Cause → Bool
  | .unbindable (.signatureMismatch ..) => true
  | .unbindable (.redefined _ (.callable _) _) => true
  | _ => false

/-- The finding, if it refuses a callable. -/
def Event.refusal? : Event → Option Finding := found? Cause.refusesCallable

/-- A finding was reported as it is, or stands for something that is not constant. -/
theorem Event.mem_findings {overflows : List Span} {es : List Event} {f : Finding}
    (h : f ∈ findings overflows es) : .found f ∈ es ∨ ∃ advice, f.cause = .notConstant advice := by
  fun_induction findings overflows es with
  | case1 => cases h
  | case2 overflows finding rest ih =>
    obtain rfl | hrest := List.mem_cons.mp h
    · exact .inl List.mem_cons_self
    · exact (ih hrest).imp_left (List.mem_cons_of_mem _)
  | case3 overflows span rest ih =>
    obtain rfl | hrest := List.mem_cons.mp h
    · exact .inr ⟨_, rfl⟩
    · exact (ih hrest).imp_left (List.mem_cons_of_mem _)
  | case4 overflows span rest ih => exact (ih h).imp_left (List.mem_cons_of_mem _)
  | case5 overflows id type rest ih => exact (ih h).imp_left (List.mem_cons_of_mem _)

theorem Cause.level_of_refusesCallable {cause : Cause} (h : cause.refusesCallable = true) :
    cause.level = 3 := by
  unfold refusesCallable at h
  split at h
  · rfl
  · rfl
  · cases h

theorem Traced.Bounded.refusals {α : Type} {x : Traced α} (h : x.Bounded 2) :
    x.Silent Event.refusal? := by
  refine h.silent_found? fun cause hcause => ?_
  rw [Cause.level_of_refusesCallable hcause]
  decide

namespace Analysis

open Traced (Bounded)

/-- A declaration that was analysed, and the table that it found. -/
structure Moment where
  table : ScopeTable
  decl : Decl

namespace Moment

/-- What the table makes of the declaration. -/
def outcome (m : Moment) : Except DeclareError ScopeTable := m.decl.bindIn ScopeTable.root m.table

/-- The report of a callable that was refused. -/
def refusal? (m : Moment) : Option Finding :=
  match m.decl with
  | .forward _ s | .definition _ s _ =>
    match m.outcome with
    | .ok _ => none
    | .error e => some ⟨.unbindable e, s.site.span⟩
  | _ => none

end Moment

/-- The declarations of an algorithm with the tables that they find. -/
def history (mainSeen : Bool) : List Syntax.Decl → ScopeTable → List Moment
  | [], _ => []
  | d :: rest, t =>
    let first := decl mainSeen ScopeTable.root d t
    ⟨t, first.result.1⟩ :: history (mainSeen || isMain d) rest first.result.2

/-! ### One declaration -/

theorem table_bindAt (span : Span) (operation : ScopeTable → Except DeclareError ScopeTable)
    (t : ScopeTable) :
    (Analyzer.bindAt span operation t).result.2 = (operation t).toOption.getD t := by
  unfold Analyzer.bindAt
  split
  · rename_i heq
    rw [heq]
    rfl
  · rename_i heq
    rw [heq]
    rfl

theorem symbols_of_confines {α : Type} {x : Analyzer α} {scope : ScopeId}
    (hx : x.Confines .nothing scope) {t : ScopeTable} {id : ScopeId} (hid : id < t.size) :
    (x t).result.2.symbols id = t.symbols id := by
  rw [ScopeTable.symbols, (hx t).scopes_eq hid, ScopeTable.symbols]

/-- A declaration makes its binding and leaves the other symbols of its scope alone. -/
theorem symbols_decl {t : ScopeTable} {scope : ScopeId} (h : scope < t.size) (mainSeen : Bool)
    (d : Syntax.Decl) :
    (decl mainSeen scope d t).result.2.symbols scope =
      bindDecl (t.symbols scope) (decl mainSeen scope d t).result.1 := by
  cases d with
  | constant c =>
    let type := (constantValue ⟨t, scope⟩ c).result.1
    let init := (constantValue ⟨t, scope⟩ c).result.2
    have htable : (decl mainSeen scope (.constant c) t).result.2 = (Analyzer.bindAt c.name.span
        (·.declare scope (.constant c.name type (init.value.storedAs type))) t).result.2 := rfl
    rw [htable, table_bindAt]
    exact symbols_bindIn h (.constant ⟨scope, c.span⟩ type c.name init)
  | typeAlias a =>
    let target := (typeExpr ⟨t, scope⟩ a.target).result
    have htable : (decl mainSeen scope (.typeAlias a) t).result.2 = (Analyzer.bindAt a.name.span
        (·.declare scope (.typeAlias a.name target)) t).result.2 := rfl
    rw [htable, table_bindAt]
    exact symbols_bindIn h (.typeAlias ⟨scope, a.span⟩ a.name target)
  | main span body =>
    have hblock := symbols_of_confines
      (Analyzer.confines_block scope span fun inner => confines_stmts .main inner body) h
    cases mainSeen <;> exact hblock
  | forward s =>
    let signature := (signature ⟨t, scope⟩ s).result
    have htable : (decl mainSeen scope (.forward s) t).result.2 = (Analyzer.bindAt s.span
        (·.declareCallable scope signature.callable) t).result.2 := rfl
    rw [htable, table_bindAt]
    exact symbols_bindIn h (.forward ⟨scope, s.span⟩ signature)
  | definition span s body =>
    let signature := (signature ⟨t, scope⟩ s).result
    let bound := (Analyzer.bindAt s.span (·.defineCallable scope signature.callable) t).result.2
    have htable : (decl mainSeen scope (.definition span s body) t).result.2 =
        (callableBody scope span signature body bound).result.2 := rfl
    have hbound : bound = (t.defineCallable scope signature.callable).toOption.getD t :=
      table_bindAt ..
    have hsize : scope < bound.size := Nat.lt_of_lt_of_le h
      (Analyzer.confines_bindAt s.span (fun _ _ => ScopeTable.confined_of_defineCallable) t).size_le
    rw [htable, symbols_of_confines (confines_callableBody scope span signature body) hsize, hbound]
    exact symbols_defineCallable h ⟨scope, span⟩ signature _
  | directive d => rfl

theorem refusals_bindAt (span : Span) {operation : ScopeTable → Except DeclareError ScopeTable}
    {t : ScopeTable}
    (h : ∀ e, operation t = .error e → (Cause.unbindable e).refusesCallable = true) :
    (Analyzer.bindAt span operation t).pick Event.refusal? =
      (match operation t with
        | .ok _ => none
        | .error e => some ⟨.unbindable e, span⟩ : Option Finding).toList := by
  unfold Analyzer.bindAt
  cases hoperation : operation t with
  | ok => rfl
  | error e => exact congrArg Option.toList (if_pos (h e hoperation))

theorem refusesCallable_of_declareCallable {t : ScopeTable} {scope : ScopeId} {c : Callable}
    {e : DeclareError} (h : t.declareCallable scope c = .error e) :
    (Cause.unbindable e).refusesCallable = true := by
  unfold ScopeTable.declareCallable at h
  split at h
  · cases h
  · split at h <;> cases h
    rfl
  · cases h
    rfl

theorem refusesCallable_of_defineCallable {t : ScopeTable} {scope : ScopeId} {c : Callable}
    {e : DeclareError} (h : t.defineCallable scope c = .error e) :
    (Cause.unbindable e).refusesCallable = true := by
  unfold ScopeTable.defineCallable at h
  split at h
  · cases h
  · split at h
    · cases h
      rfl
    · split at h <;> cases h
      rfl
  · cases h
    rfl

theorem bounded_callableBody (scope : ScopeId) (span : Span) (s : Signature)
    (body : List Syntax.Stmt) : (callableBody scope span s body).Bounded 2 := by
  refine Analyzer.silent_block scope span fun inner => ?_
  refine (Analyzer.bounded_declareAll inner fun symbol hsymbol => ?_).bind fun _ =>
    bounded_stmts _ inner body
  obtain ⟨p, -, rfl⟩ := List.mem_map.mp hsymbol
  rfl

/-- The declaration announces or defines a callable. -/
def isCallable : Syntax.Decl → Bool
  | .forward .. | .definition .. => true
  | _ => false

theorem bounded_decl_of_not_isCallable (scope : ScopeId) (d : Syntax.Decl)
    (h : isCallable d = false) : (decl false scope d).Bounded 2 := by
  cases d with
  | constant c =>
    refine (Analyzer.bounded_reading_le fun env => bounded_constantValue env c).bind fun _ => ?_
    exact (Analyzer.bounded_declare _ rfl).bind fun _ => Analyzer.silent_pure _
  | typeAlias a =>
    refine (Analyzer.bounded_reading_le fun env => bounded_typeExpr env a.target).bind fun _ => ?_
    exact (Analyzer.bounded_declare _ rfl).bind fun _ => Analyzer.silent_pure _
  | main span body =>
    have hblock := Analyzer.silent_block scope span fun s => bounded_stmts .main s body
    exact hblock.bind fun _ => Analyzer.silent_pure _
  | forward | definition => cases h
  | directive d =>
    refine (Analyzer.bounded_reading_le fun env => bounded_directive env d).bind fun _ => ?_
    exact Analyzer.silent_pure _

/-- A callable that is refused is reported once, and nothing else is reported in this way. -/
theorem refusals_decl (mainSeen : Bool) (d : Syntax.Decl) (t : ScopeTable) :
    (decl mainSeen ScopeTable.root d t).pick Event.refusal? =
      (Moment.refusal? ⟨t, (decl mainSeen ScopeTable.root d t).result.1⟩).toList := by
  have hsignature (s : Syntax.Signature) :
      (signature ⟨t, ScopeTable.root⟩ s).Silent Event.refusal? :=
    ((bounded_signature _ s).mono (Nat.zero_le 2)).refusals
  cases d with
  | constant c => exact Bounded.refusals (bounded_decl_of_not_isCallable _ (.constant c) rfl t)
  | typeAlias a => exact Bounded.refusals (bounded_decl_of_not_isCallable _ (.typeAlias a) rfl t)
  | directive d => exact Bounded.refusals (bounded_decl_of_not_isCallable _ (.directive d) rfl t)
  | main span body =>
    have hfirst := Bounded.refusals
      (bounded_decl_of_not_isCallable ScopeTable.root (.main span body) rfl t)
    cases mainSeen <;> exact hfirst
  | forward s =>
    let c := (signature ⟨t, ScopeTable.root⟩ s).result.callable
    have hbind : (Analyzer.bindAt s.span (·.declareCallable ScopeTable.root c) t).pick
        Event.refusal? = _ :=
      refusals_bindAt s.span fun _ => refusesCallable_of_declareCallable
    rw [decl]
    simp only [Analyzer.pick_bind, Analyzer.pick_reading, Analyzer.pick_pure, hsignature,
      List.nil_append, List.append_nil]
    exact hbind
  | definition span s body =>
    let signature := (signature ⟨t, ScopeTable.root⟩ s).result
    have hbind : (Analyzer.bindAt s.span
        (·.defineCallable ScopeTable.root signature.callable) t).pick Event.refusal? = _ :=
      refusals_bindAt s.span fun _ => refusesCallable_of_defineCallable
    have hblock (t : ScopeTable) :
        (callableBody ScopeTable.root span signature body t).Silent Event.refusal? :=
      Bounded.refusals (bounded_callableBody ScopeTable.root span signature body t)
    rw [decl]
    simp only [Analyzer.pick_bind, Analyzer.pick_reading, Analyzer.pick_pure, hsignature,
      List.nil_append, List.append_nil]
    exact (congrArg (_ ++ ·) (hblock _)).trans ((List.append_nil _).trans hbind)

theorem bounded_decl (mainSeen : Bool) (scope : ScopeId) (d : Syntax.Decl) :
    (decl mainSeen scope d).Bounded 3 := by
  cases d with
  | constant c =>
    exact (bounded_decl_of_not_isCallable scope (.constant c) rfl).mono (Nat.le_succ 2)
  | typeAlias a =>
    exact (bounded_decl_of_not_isCallable scope (.typeAlias a) rfl).mono (Nat.le_succ 2)
  | directive d =>
    exact (bounded_decl_of_not_isCallable scope (.directive d) rfl).mono (Nat.le_succ 2)
  | main span body =>
    have hfirst := (bounded_decl_of_not_isCallable scope (.main span body) rfl).mono (Nat.le_succ 2)
    cases mainSeen with
    | false => exact hfirst
    | true =>
      have hdecl : decl true scope (.main span body) =
          (liftM (Traced.report .secondMainProgram span) : Analyzer Unit) >>= fun _ =>
            decl false scope (.main span body) := rfl
      rw [hdecl]
      have hlevel : Cause.secondMainProgram.level = 3 := rfl
      exact (Analyzer.silent_lift (Traced.bounded_report hlevel)).bind fun _ => hfirst
  | forward s =>
    refine (Analyzer.bounded_reading_le fun env => bounded_signature env s).bind fun _ => ?_
    refine (Analyzer.bounded_bindAt _ fun _ _ herror => ?_).bind fun _ => Analyzer.silent_pure _
    exact Cause.level_of_refusesCallable (refusesCallable_of_declareCallable herror)
  | definition span s body =>
    refine (Analyzer.bounded_reading_le fun env => bounded_signature env s).bind fun sig => ?_
    refine (Analyzer.bounded_bindAt _ fun _ _ herror => ?_).bind fun _ => ?_
    · exact Cause.level_of_refusesCallable (refusesCallable_of_defineCallable herror)
    · have hbody := (bounded_callableBody scope span sig body).mono (Nat.le_succ 2)
      exact hbody.bind fun _ => Analyzer.silent_pure _

/-! ### All declarations -/

theorem bounded_decls (mainSeen : Bool) (scope : ScopeId) (ds : List Syntax.Decl) :
    (decls mainSeen scope ds).Bounded 3 := by
  induction ds generalizing mainSeen with
  | nil => exact Analyzer.silent_pure _
  | cons d rest ih =>
    refine (bounded_decl mainSeen scope d).bind fun _ => ?_
    exact (ih _).bind fun _ => Analyzer.silent_pure _

theorem map_decl_history (mainSeen : Bool) (ds : List Syntax.Decl) (t : ScopeTable) :
    (history mainSeen ds t).map Moment.decl = (decls mainSeen ScopeTable.root ds t).result.1 := by
  induction ds generalizing mainSeen t with
  | nil => rfl
  | cons d rest ih =>
    rw [decls_cons]
    exact congrArg (_ :: ·) (ih _ _)

theorem refusals_decls (mainSeen : Bool) (ds : List Syntax.Decl) (t : ScopeTable) :
    (decls mainSeen ScopeTable.root ds t).pick Event.refusal? =
      (history mainSeen ds t).filterMap Moment.refusal? := by
  induction ds generalizing mainSeen t with
  | nil => rfl
  | cons d rest ih =>
    simp only [decls, Analyzer.pick_bind, Analyzer.pick_pure, List.append_nil]
    rw [refusals_decl, ih, history, filterMap_cons_toList]

theorem root_lt_size_decl {t : ScopeTable} (ht : ScopeTable.root < t.size) (mainSeen : Bool)
    (d : Syntax.Decl) :
    ScopeTable.root < (decl mainSeen ScopeTable.root d t).result.2.size :=
  Nat.lt_of_lt_of_le ht (confines_decl mainSeen ScopeTable.root d t).size_le

theorem root_lt_size_of_mem_history {mainSeen : Bool} {ds : List Syntax.Decl} {t : ScopeTable}
    (ht : ScopeTable.root < t.size) {m : Moment} (hm : m ∈ history mainSeen ds t) :
    ScopeTable.root < m.table.size := by
  induction ds generalizing mainSeen t with
  | nil => cases hm
  | cons d rest ih =>
    obtain rfl | hrest := List.mem_cons.mp hm
    · exact ht
    · exact ih (root_lt_size_decl ht mainSeen d) hrest

/-- The root scope after the declarations before a moment. -/
theorem symbols_history {mainSeen : Bool} {ds : List Syntax.Decl} {t : ScopeTable}
    (ht : ScopeTable.root < t.size) {before after : List Moment} {m : Moment}
    (h : history mainSeen ds t = before ++ m :: after) :
    m.table.symbols ScopeTable.root =
      (before.map Moment.decl).foldl bindDecl (t.symbols ScopeTable.root) := by
  induction ds generalizing mainSeen t before with
  | nil => cases before <;> cases h
  | cons d rest ih =>
    cases before with
    | nil =>
      obtain ⟨rfl, -⟩ := List.cons.inj h
      rfl
    | cons first before =>
      obtain ⟨rfl, hrest⟩ := List.cons.inj h
      rw [ih (root_lt_size_decl ht mainSeen d) hrest, symbols_decl ht]
      rfl

theorem symbols_decls (mainSeen : Bool) (ds : List Syntax.Decl) {t : ScopeTable}
    (ht : ScopeTable.root < t.size) :
    (decls mainSeen ScopeTable.root ds t).result.2.symbols ScopeTable.root =
      (decls mainSeen ScopeTable.root ds t).result.1.foldl bindDecl
        (t.symbols ScopeTable.root) := by
  induction ds generalizing mainSeen t with
  | nil => rfl
  | cons d rest ih =>
    rw [decls_cons]
    dsimp only
    rw [ih _ (root_lt_size_decl ht mainSeen d), symbols_decl ht]
    rfl

/-! ### What the table makes of later declarations -/

/-- The first declaration of a name announces `s`. Those in `between` are next, and then `later`. -/
def Announced (moments : List Moment) (s : Signature) (between : List Moment) (later : Moment) :
    Prop :=
  ∃ before first after site, moments = before ++ first :: (between ++ later :: after) ∧
    first.decl = .forward site s ∧ ∀ m ∈ before, m.decl.name? ≠ some s.name.text

/-- The name of a callable that is announced first stands for it ever after. -/
theorem local?_of_announced {a : Syntax.Algorithm} {s : Signature} {between : List Moment}
    {later : Moment} (h : Announced (history false a.decls .initial) s between later) :
    later.table.local? ScopeTable.root s.name.text =
      some (.callable (if between.any (·.decl.fulfils s.announcement)
        then { s.announcement with state := .defined } else s.announcement)) := by
  obtain ⟨before, first, after, site, hmoments, hfirst, hnew⟩ := h
  rw [← List.cons_append, ← List.append_assoc] at hmoments
  have hsymbols := symbols_history (by decide) hmoments
  rw [ScopeTable.local?, hsymbols, List.map_append, List.map_cons, hfirst]
  have hnames : ∀ d ∈ before.map Moment.decl, d.name? ≠ some s.name.text := by
    intro d hd
    obtain ⟨m, hm, rfl⟩ := List.mem_map.mp hd
    exact hnew m hm
  rw [ScopeTable.symbols_initial, find?_of_announced hnames, List.any_map]
  rfl

/-- What the table makes of the later declarations of a name whose first one announces `s`. -/
structure Lawful (moments : List Moment) : Prop where
  /-- To announce it again is accepted, without effect, if the signature is the same. -/
  forward : ∀ (s : Signature) (between : List Moment) (later : Moment) (site : Semantic.Site)
    (s' : Signature), Announced moments s between later →
    later.decl = .forward site s' → s'.name.text = s.name.text →
    later.outcome =
      if s.callable.sameSignature s'.callable then .ok later.table
      else .error (.signatureMismatch s.name.text s'.kind s.site.span)
  /-- To define it is accepted once, for the same signature. -/
  definition : ∀ (s : Signature) (between : List Moment) (later : Moment) (site : Semantic.Site)
    (s' : Signature) (body : Semantic.Block), Announced moments s between later →
    later.decl = .definition site s' body → s'.name.text = s.name.text →
    later.outcome =
      if between.any (·.decl.fulfils s.announcement) then
        .error (.redefined s.name.text (.callable s'.kind) (.callable s.kind))
      else if s.callable.sameSignature s'.callable then
        .ok (later.table.modifySymbols ScopeTable.root (ScopeTable.markDefined s.name.text))
      else .error (.signatureMismatch s.name.text s'.kind s.site.span)
  /-- The root scope is found as the declaration before has left it. -/
  next : ∀ (before : List Moment) (m m' : Moment) (after : List Moment),
    moments = before ++ m :: m' :: after →
    m'.table.symbols ScopeTable.root =
      (m.outcome.toOption.getD m.table).symbols ScopeTable.root

theorem lawful_history (a : Syntax.Algorithm) : Lawful (history false a.decls .initial) where
  forward s between later site s' h hlater hname := by
    have hlocal : later.table.local? ScopeTable.root s'.callable.name.text = _ :=
      hname ▸ local?_of_announced h
    rw [Moment.outcome, hlater, Decl.bindIn, ScopeTable.declareCallable, hlocal, ← hname]
    cases between.any (·.decl.fulfils s.announcement) <;> rfl
  definition s between later site s' body h hlater hname := by
    have hlocal : later.table.local? ScopeTable.root s'.callable.name.text = _ :=
      hname ▸ local?_of_announced h
    rw [Moment.outcome, hlater, Decl.bindIn, ScopeTable.defineCallable, hlocal, ← hname]
    cases between.any (·.decl.fulfils s.announcement) <;> rfl
  next before m m' after h := by
    have hmem : m ∈ history false a.decls .initial := by simp [h]
    have hsize : ScopeTable.root < m.table.size := root_lt_size_of_mem_history (by decide) hmem
    have hm := symbols_history (by decide) h
    rw [List.append_cons] at h
    rw [symbols_history (by decide) h, List.map_append, List.foldl_append, ← hm, Moment.outcome,
      symbols_bindIn hsize]
    rfl

/-! ### The report on missing definitions -/

theorem undefinedCallables_eq (t : ScopeTable) (id : ScopeId) :
    t.undefinedCallables id = (t.symbols id).filterMap Symbol.announced? := by
  unfold ScopeTable.undefinedCallables
  congr 1

/-- The finding that an announced callable was never defined. -/
def missing (s : Signature) : Finding := ⟨.undefinedCallable s.kind s.name.text, s.site.span⟩

theorem events_undefinedCallables (ss : List Signature) :
    (undefinedCallables (ss.map Signature.announcement)).events = (ss.map missing).map .found := by
  induction ss with
  | nil => rfl
  | cons s rest ih => exact congrArg (_ :: ·) ih

theorem findings_append_found (overflows : List Span) (es : List Event) (fs : List Finding) :
    Event.findings overflows (es ++ fs.map .found) = Event.findings overflows es ++ fs := by
  fun_induction Event.findings overflows es with
  | case1 overflows =>
    induction fs with
    | nil => rfl
    | cons f rest ih => exact congrArg (_ :: ·) ih
  | case2 overflows finding rest ih => exact congrArg (_ :: ·) ih
  | case3 overflows span rest ih => exact congrArg (_ :: ·) ih
  | case4 overflows span rest ih => exact ih
  | case5 overflows id type rest ih => exact ih

theorem code_ne_of_level {cause : Cause} (h : cause.level ≤ 3) :
    cause.code ≠ .callableNotDefined := by
  intro hcode
  cases cause with
  | undefinedCallable => simp [Cause.level] at h
  | unbindable error => cases error <;> cases hcode
  | _ => cases hcode

/-- Nothing below the highest level is a report on a missing definition. -/
theorem code_ne_of_mem_findings {α : Type} {x : Traced α} (h : x.Bounded 3) {overflows : List Span}
    {f : Finding} (hf : f ∈ Event.findings overflows x.events) :
    f.cause.code ≠ .callableNotDefined := by
  obtain hfound | ⟨advice, hcause⟩ := Event.mem_findings hf
  · exact code_ne_of_level (h.level_le hfound)
  · rw [hcause]
    intro hcode
    cases hcode

theorem decls_analyze (a : Syntax.Algorithm) :
    (analyze a).tree.decls = (decls false ScopeTable.root a.decls .initial).result.1 := by
  change (algorithm a .initial).result.1.decls = _
  rw [algorithm_eq]

/-- What the analysis of an algorithm finds: what its directives and declarations give rise to, and
then the definitions that are missing. -/
theorem findings_analyze (a : Syntax.Algorithm) :
    (analyze a).findings =
      Event.findings [] ((directives ⟨.initial, ScopeTable.root⟩ a.leading).events ++
        (decls false ScopeTable.root a.decls .initial).events) ++
      (pendingAfter [] (analyze a).tree.decls).map missing := by
  have hsymbols : (decls false ScopeTable.root a.decls .initial).result.2.symbols ScopeTable.root =
      (analyze a).tree.decls.foldl bindDecl [] := by
    rw [decls_analyze, symbols_decls false a.decls (by decide), ScopeTable.symbols_initial]
  have hannounced : ((analyze a).tree.decls.foldl bindDecl []).filterMap Symbol.announced? =
      (pendingAfter [] (analyze a).tree.decls).map Signature.announcement :=
    announced_foldl_bindDecl [] _ List.nodup_nil (by simp [names])
  change Event.findings [] (algorithm a .initial).events = _
  rw [algorithm_eq]
  dsimp only
  rw [undefinedCallables_eq, hsymbols, hannounced, events_undefinedCallables, ← List.append_assoc,
    findings_append_found]

end Analysis

namespace Session

open Analysis (history missing Lawful Moment)

/-- **The lifecycle of callables.** The reports on missing definitions come last, one for each
callable that was announced first and never fulfilled. Until then every callable that the table
refuses is reported once. -/
theorem callable_lifecycle (source : Option String) (a : Syntax.Algorithm) :
    ∃ (found : List Finding) (pending : List Signature),
      (run .default source a).sink.delivered =
        (found ++ pending.map missing).map (Finding.diagnostic source) ∧
      (∀ f ∈ found, f.cause.code ≠ .callableNotDefined) ∧
      Missing (run .default source a).tree.decls pending ∧
      (history false a.decls .initial).map (·.decl) = (run .default source a).tree.decls ∧
      Lawful (history false a.decls .initial) ∧
      found.filter (·.cause.refusesCallable) =
        (history false a.decls .initial).filterMap Moment.refusal? := by
  let leading := Analysis.directives ⟨.initial, ScopeTable.root⟩ a.leading
  let all := Analysis.decls false ScopeTable.root a.decls .initial
  rw [run_eq]
  refine ⟨Event.findings [] (leading.events ++ all.events), pendingAfter [] (analyze a).tree.decls,
    ?_, ?_, ?_, ?_, ?_, ?_⟩
  · rw [Analysis.delivered_default, Analysis.findings_analyze]
  · have hall : (do let _ ← leading; all).Bounded 3 :=
      ((Analysis.bounded_directives _ a.leading).mono (Nat.zero_le 3)).bind fun _ =>
        Analysis.bounded_decls false ScopeTable.root a.decls .initial
    exact fun f hf => Analysis.code_ne_of_mem_findings hall hf
  · exact missing_pendingAfter _
  · exact (Analysis.map_decl_history ..).trans (Analysis.decls_analyze a).symm
  · exact Analysis.lawful_history a
  · have hleading : leading.Silent Event.refusal? :=
      ((Analysis.bounded_directives _ a.leading).mono (Nat.zero_le 2)).refusals
    rw [Event.findings_filter fun _ => rfl]
    change (do let _ ← leading; all).pick Event.refusal? = _
    rw [Traced.pick_bind, hleading, List.nil_append]
    exact Analysis.refusals_decls false a.decls .initial

open Syntax (nowhere ident)

-- A second signature and a second definition of `made` are refused, and `late` is never defined.
example :
    let procedure (name : String) : Syntax.Signature := ⟨nowhere, .procedure, ident name, [], none⟩
    let function (name : String) : Syntax.Signature :=
      ⟨nowhere, .function, ident name, [], some ⟨nowhere, .integer⟩⟩
    let decls : List Syntax.Decl :=
      [.forward (procedure "late"), .forward (procedure "made"), .forward (function "made"),
        .definition nowhere (procedure "made") [], .definition nowhere (procedure "made") []]
    (run .default none ⟨nowhere, [], decls⟩).sink.delivered.map (·.code) =
      [.signatureMismatch, .redefinedSymbol, .callableNotDefined] := by
  decide +kernel

end Session

end Pseudocode
