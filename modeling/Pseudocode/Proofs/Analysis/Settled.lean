import Pseudocode.Proofs.Analysis.Founded
import Pseudocode.Proofs.Analysis.Lifecycle

/-!
# What constants leave open

A value is *settled* when nothing in it is left to be decided at run time, however deep. A constant
that is accepted is known, but that is asked of the value as a whole: the items of a braced
initializer may be decided at run time, and then so is a part of the constant. This is the only way
for it to come about. Expressions only take apart what constants hold.
-/

namespace Pseudocode

/-! ### Settled values -/

namespace Value

/-- Nothing in the value is left to be decided when the program runs. -/
def Settled (v : Value) : Prop := v.Everywhere fun w => w.status ≠ .runtime

theorem settled_iff {v : Value} :
    v.Settled ↔ v.status ≠ .runtime ∧ ∀ w ∈ v.contents, w.Settled := everywhere_iff

theorem status_convertTo_eq_runtime_iff {v : Value} {target : Ty} :
    (v.convertTo target).status = .runtime ↔ v.status = .runtime := by
  unfold convertTo Status.convertTo
  split
  · rename_i heq
    rw [heq]
    split <;> simp
  · rfl

theorem settled_convertTo_iff {v : Value} {target : Ty} :
    (v.convertTo target).Settled ↔ v.Settled := by
  rw [settled_iff, settled_iff, contents_convertTo, Ne, status_convertTo_eq_runtime_iff]

theorem status_storedAs_ne_runtime {v : Value} (h : v.status ≠ .runtime) (target : Ty) :
    (v.storedAs target).status ≠ .runtime := by
  unfold Value.storedAs
  split
  · exact fun hruntime => h (status_convertTo_eq_runtime_iff.mp hruntime)
  · simp [invalid]

theorem Settled.storedAs {v : Value} (h : v.Settled) (target : Ty) :
    (v.storedAs target).Settled :=
  Everywhere.storedAs h (status_storedAs_ne_runtime h.here target)

theorem status_modifySlot_eq_runtime {v : Value} {step : Step} {f : Value → Value}
    (h : (v.modifySlot step f).status = .runtime) : v.status = .runtime := by
  unfold modifySlot at h
  split at h
  · cases h
  · cases h
  · exact h

end Value

namespace Ty

/-- Nothing in the type is void. -/
def VoidFree (t : Ty) : Prop := t.Everywhere fun u => u ≠ .void

theorem VoidFree.status_initial {t : Ty} (h : t.VoidFree) : t.initial.status ≠ .runtime := by
  induction h with
  | @intro t here _ ih =>
    cases t with
    | void => exact absurd rfl here
    | aliased name target => exact ih target List.mem_cons_self
    | _ => simp [initial, Value.known, Value.garbage, Value.invalid]

theorem VoidFree.settled_initial {t : Ty} (h : t.VoidFree) : t.initial.Settled :=
  Everywhere.initial (fun _ hu => VoidFree.status_initial hu) h.everywhere

theorem voidFree_atom {t : Ty} (h : t.isAtom = true) (hvoid : t ≠ .void) : t.VoidFree :=
  everywhere_of_isAtom h hvoid

theorem voidFree_unknown (origin : Span) : (unknown origin).VoidFree :=
  everywhere_unknown.mpr (by simp)

end Ty

/-! ### Types that can be spelled -/

theorem Check.mem_addComponents {type : Ty} {names : List Ident} {components : List (String × Ty)}
    {c : String × Ty} (h : c ∈ (addComponents type names components).result) :
    c ∈ components ∨ c.2 = type := by
  induction names generalizing components with
  | nil => exact .inl h
  | cons name rest ih =>
    rw [addComponents] at h
    split at h
    · exact ih h
    · obtain hold | hnew := ih h
      · obtain hc | hc := List.mem_append.mp hold
        · exact .inl hc
        · exact .inr (by rw [List.mem_singleton.mp hc])
      · exact .inr hnew

namespace Analysis

theorem voidFree_arrayOf {item : Ty} (h : item.VoidFree) (lengths : List Nat) :
    (arrayOf item lengths).VoidFree := by
  induction lengths with
  | nil => exact h
  | cons n rest ih => exact Ty.everywhere_array.mpr ⟨by simp, ih⟩

/-- The aliases in the environment stand for types without void. -/
def Env.VoidFree (env : Env) : Prop :=
  ∀ name target, env.table.lookupAlias env.scope name = .ok target → target.VoidFree

mutual

/-- No type expression stands for the void type, which only procedures return. -/
theorem voidFree_typeExpr {env : Env} (henv : Env.VoidFree env) :
    ∀ t : Syntax.TypeExpr, (typeExpr env t).result.VoidFree
  | ⟨_, .boolean⟩ | ⟨_, .character⟩ | ⟨_, .integer⟩ | ⟨_, .real⟩ | ⟨_, .file⟩ | ⟨_, .string⟩ => by
    rw [typeExpr]
    exact Ty.voidFree_atom rfl (by simp)
  | ⟨span, .boundedString length⟩ => by
    rw [typeExpr, Traced.result_bind, Traced.result_bind]
    split
    · exact Ty.voidFree_atom rfl (by simp)
    · exact Ty.voidFree_unknown span
  | ⟨span, .named name⟩ => by
    rw [typeExpr]
    split
    · rename_i target hlookup
      exact Ty.everywhere_aliased.mpr ⟨by simp, henv _ _ hlookup⟩
    · exact Ty.voidFree_unknown span
  | ⟨span, .array item lengths⟩ => by
    rw [typeExpr, Traced.result_bind, Traced.result_bind]
    split
    · exact voidFree_arrayOf (voidFree_typeExpr henv item) _
    · exact Ty.voidFree_unknown span
  | ⟨_, .struct components⟩ => by
    rw [typeExpr]
    exact Ty.everywhere_struct.mpr
      ⟨by simp, voidFree_structComponents henv (by simp) components⟩

theorem voidFree_structComponents {env : Env} (henv : Env.VoidFree env)
    {components : List (String × Ty)} (h : ∀ c ∈ components, c.2.VoidFree) :
    ∀ ds : List Syntax.ComponentDecl,
      ∀ c ∈ (structComponents env components ds).result, c.2.VoidFree
  | [] => h
  | ⟨_, names, type⟩ :: rest => by
    rw [structComponents]
    refine voidFree_structComponents henv (fun c hc => ?_) rest
    obtain hold | hnew := Check.mem_addComponents hc
    · exact h c hold
    · rw [hnew]
      exact voidFree_typeExpr henv type

end

end Analysis

/-! ### Items -/

namespace Semantic

/-- The value and the items of a constant declaration with a braced initializer. -/
def Decl.bracedConstant? : Decl → Option (Value × List Item)
  | .constant _ _ _ (.braced _ value items) => some (value, items)
  | _ => none

/-- The braced initializers of the constants of an algorithm. -/
def Algorithm.bracedConstants (a : Algorithm) : List (Value × List Item) :=
  a.decls.filterMap Decl.bracedConstant?

theorem Algorithm.mem_bracedConstants {a : Algorithm} {b : Value × List Item} :
    b ∈ a.bracedConstants ↔
      ∃ site type name braces, .constant site type name (.braced braces b.1 b.2) ∈ a.decls := by
  constructor
  · intro h
    obtain ⟨d, hd, hb⟩ := List.mem_filterMap.mp h
    unfold Decl.bracedConstant? at hb
    split at hb
    · cases hb
      exact ⟨_, _, _, _, hd⟩
    · cases hb
  · rintro ⟨site, type, name, braces, hd⟩
    exact List.mem_filterMap.mpr ⟨_, hd, rfl⟩

end Semantic

namespace Analysis

/-- Initializers make settled values out of settled ones. -/
theorem kept_settled : Kept (fun v => v.status ≠ .runtime) (fun t => t ≠ .void) where
  initial h := Ty.VoidFree.settled_initial h
  unknown _ := by simp
  invalid _ := by simp [Value.invalid]
  modifySlot _ _ h hruntime := h (Value.status_modifySlot_eq_runtime hruntime)

theorem settled_initializer (env : Env) {target : Ty} (hdistinct : target.Distinct)
    (hvoid : target.VoidFree) (init : Syntax.Initializer)
    (h : ∀ e ∈ (initializer env target init).result.sources, e.value.Settled) :
    (initializer env target init).result.value.Settled := by
  refine kept_settled.everywhere_initializer env hdistinct hvoid init h fun s _ hs => ?_
  exact Value.status_storedAs_ne_runtime hs s.1

/-! ### Declarations -/

theorem lookup_root (t : ScopeTable) (name : String) :
    t.lookup ScopeTable.root name = t.local? ScopeTable.root name := by
  have hchain : t.chain ScopeTable.root = [ScopeTable.root] := by
    rw [ScopeTable.chain, ScopeTable.chain.go]
    cases t.parent? ScopeTable.root <;> rfl
  rw [ScopeTable.lookup, hchain, List.findSome?_singleton]

/-- What every declaration finds. -/
structure WellRooted (t : ScopeTable) : Prop where
  root_lt_size : ScopeTable.root < t.size
  distinct : Invariant.distinct.table t
  voidFree : ∀ name target, .typeAlias name target ∈ t.symbols ScopeTable.root → target.VoidFree

theorem wellRooted_initial : WellRooted .initial where
  root_lt_size := by decide
  distinct := Invariant.table_initial
  voidFree := by simp

theorem WellRooted.env {t : ScopeTable} (h : WellRooted t) :
    Env.VoidFree ⟨t, ScopeTable.root⟩ := by
  intro name target hlookup
  obtain ⟨s, hs, halias⟩ := ScopeTable.lookup_of_resolve hlookup
  rw [lookup_root] at hs
  have hmem : s ∈ t.symbols ScopeTable.root := List.mem_of_find?_eq_some hs
  cases s with
  | typeAlias name target =>
    cases halias
    exact h.voidFree name target hmem
  | localVariable | constant | parameter | callable => cases halias

theorem mem_symbols_bindDecl {symbols : List Symbol} {d : Semantic.Decl} {s : Symbol}
    (hs : s.callable? = none) (h : s ∈ bindDecl symbols d) : s ∈ symbols ∨ d.symbol? = some s := by
  obtain ⟨hbind, -⟩ | ⟨new, hnew, -, hbind⟩ | ⟨c, -, -, -, hbind⟩ := bindDecl_cases symbols d
  · exact .inl (hbind ▸ h)
  · rw [hbind] at h
    obtain hold | hlast := List.mem_append.mp h
    · exact .inl hold
    · exact .inr (List.mem_singleton.mp hlast ▸ hnew)
  · rw [hbind] at h
    obtain hold | ⟨c', -, rfl⟩ := ScopeTable.mem_markDefined h
    · exact .inl hold
    · cases hs

theorem WellRooted.decl {t : ScopeTable} (h : WellRooted t) (mainSeen : Bool) (d : Syntax.Decl) :
    WellRooted (decl mainSeen ScopeTable.root d t).result.2 where
  root_lt_size := root_lt_size_decl h.root_lt_size mainSeen d
  distinct := by
    have hyields := Invariant.yields_decl (I := .distinct) mainSeen ScopeTable.root d h.distinct
    obtain ⟨-, -, hsymbols⟩ := hyields fun _ _ _ => trivial
    exact fun id s hs => (hsymbols id s hs).elim (fun h => h) Invariant.distinct_symbol_of_declares
  voidFree name target hmem := by
    rw [symbols_decl h.root_lt_size] at hmem
    obtain hold | hnew := mem_symbols_bindDecl rfl hmem
    · exact h.voidFree name target hold
    · cases d with
      | typeAlias a =>
        cases hnew
        exact voidFree_typeExpr h.env a.target
      | main => cases mainSeen <;> cases hnew
      | constant | forward | definition | directive => cases hnew

section Constants

variable {mainSeen : Bool} {ds : List Syntax.Decl} {t : ScopeTable} {site : Semantic.Site}
  {type : Ty} {name : Ident} {init : Semantic.Initializer}

/-- A constant declaration makes a settled value out of settled ones. -/
theorem settled_of_mem_decls (ht : WellRooted t)
    (hd : .constant site type name init ∈ (decls mainSeen ScopeTable.root ds t).result.1)
    (hsources : ∀ e ∈ init.sources, e.value.Settled) : init.value.Settled := by
  induction ds generalizing mainSeen t with
  | nil => cases hd
  | cons d rest ih =>
    rw [decls_cons] at hd
    obtain hfirst | hrest := List.mem_cons.mp hd
    · cases d with
      | constant c =>
        cases hfirst
        have htype : Invariant.distinct.Yields (typeExpr ⟨t, ScopeTable.root⟩ c.type) Ty.Distinct :=
          Invariant.yields_typeExpr ht.distinct c.type
        refine settled_initializer _ (htype fun _ _ _ => trivial).2 ?_ c.value hsources
        exact voidFree_typeExpr ht.env c.type
      | main => cases mainSeen <;> cases hfirst
      | typeAlias | forward | definition | directive => cases hfirst
    · exact ih (ht.decl mainSeen d) hrest

theorem mem_symbols_declare (ht : ScopeTable.root < t.size) {symbol : Symbol}
    (herrors : ∀ e ∈ (Analyzer.declare ScopeTable.root symbol t).events, ¬ e.IsError) :
    symbol ∈ (Analyzer.declare ScopeTable.root symbol t).result.2.symbols ScopeTable.root := by
  unfold Analyzer.declare Analyzer.bindAt at herrors ⊢
  split
  · rename_i t' ht'
    obtain ⟨-, rfl⟩ := ScopeTable.declare_eq_ok ht'
    change symbol ∈ (t.bind ScopeTable.root symbol).symbols ScopeTable.root
    rw [symbols_bind ht]
    exact List.mem_append_right _ List.mem_cons_self
  · rename_i error herror
    rw [herror] at herrors
    have hreported := herrors _ List.mem_cons_self
    cases error <;> exact absurd rfl hreported

/-- Where nothing is wrong, every constant declaration binds its constant. -/
theorem mem_symbols_of_mem_decls (ht : ScopeTable.root < t.size)
    (herrors : ∀ e ∈ (decls mainSeen ScopeTable.root ds t).events, ¬ e.IsError)
    (hd : .constant site type name init ∈ (decls mainSeen ScopeTable.root ds t).result.1) :
    .constant name type (init.value.storedAs type) ∈
      (decls mainSeen ScopeTable.root ds t).result.2.symbols ScopeTable.root := by
  induction ds generalizing mainSeen t with
  | nil => cases hd
  | cons d rest ih =>
    rw [decls_cons] at hd herrors ⊢
    have hrest := evolving_decls (mainSeen || isMain d) ScopeTable.root rest
      (decl mainSeen ScopeTable.root d t).result.2
    obtain hfirst | hd := List.mem_cons.mp hd
    · refine hrest.mem_symbols rfl ?_
      cases d with
      | constant c =>
        cases hfirst
        refine mem_symbols_declare ht fun e he => herrors e ?_
        exact List.mem_append_left _ (List.mem_append_right _ (List.mem_append_left _ he))
      | main => cases mainSeen <;> cases hfirst
      | typeAlias | forward | definition | directive => cases hfirst
    · refine ih (root_lt_size_decl ht mainSeen d) (fun e he => ?_) hd
      exact herrors e (List.mem_append_right _ he)

end Constants

end Analysis

/-! ### Constants that are accepted -/

theorem Value.Sound.isKnown {v : Value} (h : v.Sound)
    (hknown : v.isKnown = false → v.isInvalid = false → False) : v.isKnown = true := by
  by_contra hunknown
  exact hknown (Bool.eq_false_iff.mpr hunknown) h.isInvalid_eq_false

theorem Value.settled_of_isKnown {v : Value} (h : v.isKnown = true)
    (hinside : ∀ w ∈ v.contents, w.Settled) : v.Settled := by
  refine .intro (fun hruntime => ?_) hinside
  simp [isKnown, datum?, hruntime] at h

/-- A stored value that is not refused is settled only if it was before. -/
theorem Value.settled_of_storedAs {v : Value} {target : Ty} (h : (v.storedAs target).Settled)
    (hvalid : (v.storedAs target).isInvalid = false) : v.Settled := by
  unfold Value.storedAs at h hvalid
  split at h
  · exact settled_convertTo_iff.mp h
  · rename_i hassignable
    rw [if_neg hassignable] at hvalid
    cases hvalid

namespace Invariant

/-- Constants are known. -/
def knownConstants : Invariant :=
  { soundness with
    constant v := v.Sound ∧ v.isKnown = true
    value_constant h := h.1 }

/-- What is inside a value comes from constants, and these are settled. -/
def settledConstants : Invariant :=
  { soundness with
    value v := v.Sound ∧ ∀ w ∈ v.contents, w.Settled
    constant v := v.Sound ∧ v.Settled
    value_constant h := ⟨h.1, h.2.inside⟩
    value_literal literal := by
      refine ⟨literal.sound_value, ?_⟩
      cases literal <;> exact fun w hw => absurd hw List.not_mem_nil
    value_runtime h := ⟨Value.sound_runtime h.1, fun w hw => absurd hw List.not_mem_nil⟩
    value_invalid _ h := h.elim
    value_slot h hslot := ⟨h.1.slot? hslot, (h.2 _ (Value.mem_contents_of_slot? hslot)).inside⟩
    value_runtime_part h hpart :=
      ⟨soundness.value_runtime_part h.1 hpart, fun w hw => absurd hw List.not_mem_nil⟩
    value_binary := by
      intro op l r type a b d hl hr htype ha hb hd
      refine ⟨Value.Sound.binary hl.1 hr.1 htype ha hb hd, ?_⟩
      simp [BinaryOp.contents_of_onData? hd]
    value_unary := by
      intro op v type a d hv htype ha hd
      refine ⟨Value.Sound.unary hv.1 htype ha hd, ?_⟩
      rw [Value.contents_known, UnaryOp.contents_of_onDatum? hd, ← Value.contents_of_datum? ha]
      exact hv.2
    value_cast := by
      intro v target a d _ htarget _ hd
      refine ⟨Value.sound_known_of_cast? htarget.1 hd, ?_⟩
      simp [Datum.contents_of_cast? hd]
    value_convertTo := by
      intro v target hv htarget hknown htargetKnown hconvertible
      refine ⟨soundness.value_convertTo hv.1 htarget hknown htargetKnown hconvertible, ?_⟩
      rw [Value.contents_convertTo]
      exact hv.2
    excused_of_value h := soundness.excused_of_value h.1
    recorded_type h := h.1.resolved
    stores_value h := soundness.stores_value h.1 }

end Invariant

namespace Analysis

/-- The constants of all scopes are settled. -/
def SettledConstants (r : Analysis) : Prop :=
  ∀ id name type value, .constant name type value ∈ r.scopes.symbols id → value.Settled

section NoErrors

variable {a : Syntax.Algorithm} {source : Option String}
  (h : ∀ d ∈ ((analyze a).report .default source).delivered, d.severity ≠ .error)

include h

theorem isKnown_of_no_errors {id : ScopeId} {name : Ident} {type : Ty} {value : Value}
    (hmem : .constant name type value ∈ (analyze a).scopes.symbols id) : value.isKnown = true := by
  have hdeclared : ∀ d s, Invariant.knownConstants.declares d s →
      Invariant.knownConstants.symbol s := by
    rintro d s ⟨-, type, -, init, -, rfl, htype, -, ⟨hvalue, hassignable⟩, hknown⟩
    refine ⟨htype, ⟨hvalue.storedAs htype.1 hassignable, ?_⟩, Value.type_storedAs _ _⟩
    rw [Value.storedAs, if_pos hassignable, Value.isKnown_convertTo]
    exact hvalue.isKnown hknown
  have hyields := Invariant.yields_algorithm a fun d _ _ s _ => hdeclared d s
  obtain ⟨-, htable, -⟩ := hyields fun e he herror => not_isError_of_delivered h e he herror
  exact (htable id _ hmem).2.1.2

/-- Constants are settled if the braced initializers among their declarations make settled values,
which need be shown only for items with nothing unsettled inside. -/
theorem settledConstants_of_braced
    (hbraced : ∀ b ∈ (analyze a).tree.bracedConstants,
      (∀ e ∈ Semantic.itemSources b.2, ∀ w ∈ e.value.contents, w.Settled) → b.1.Settled) :
    (analyze a).SettledConstants := by
  have hdeclared : ∀ d ∈ (analyze a).tree.decls, ∀ id, ∀ s ∈ (analyze a).scopes.symbols id,
      Invariant.settledConstants.declares d s → Invariant.settledConstants.symbol s := by
    rintro d hd id s - ⟨site, type, name, init, rfl, rfl, htype, hparts, ⟨hvalue, hassignable⟩,
      hknown⟩
    have hinit : init.value.Settled := by
      cases init with
      | expr e =>
        have he := Invariant.value_of_parts hparts
        exact Value.settled_of_isKnown (hvalue.isKnown hknown) he.2
      | braced braces v items =>
        have hmem : (v, items) ∈ (analyze a).tree.bracedConstants :=
          Semantic.Algorithm.mem_bracedConstants.mpr ⟨site, type, name, braces, hd⟩
        refine hbraced (v, items) hmem fun e he => ?_
        exact (hparts _ (Semantic.Initializer.mem_parts_of_mem_sources (.braced ..) he)).2
    refine ⟨htype, ⟨hvalue.storedAs htype.1 hassignable, ?_⟩, Value.type_storedAs _ _⟩
    exact hinit.storedAs type
  have hyields := Invariant.yields_algorithm a hdeclared
  obtain ⟨-, htable, -⟩ := hyields fun e he herror => not_isError_of_delivered h e he herror
  exact fun id name type value hmem => (htable id _ hmem).2.1.2

theorem settled_of_settledConstants (hconstants : (analyze a).SettledConstants)
    {site : Semantic.Site} {type : Ty} {name : Ident} {init : Semantic.Initializer}
    (hd : .constant site type name init ∈ (analyze a).tree.decls) : init.value.Settled := by
  have hmem : .constant name type (init.value.storedAs type) ∈
      (analyze a).scopes.symbols ScopeTable.root := by
    have herrors := not_isError_of_delivered h
    change _ ∈ (algorithm a .initial).result.2.symbols ScopeTable.root
    rw [decls_analyze] at hd
    rw [algorithm_eq] at herrors ⊢
    refine mem_symbols_of_mem_decls (by decide) (fun e he => herrors e ?_) hd
    exact List.mem_append_right _ (List.mem_append_left _ he)
  refine Value.settled_of_storedAs (hconstants _ _ _ _ hmem) ?_
  have hsound := (soundness_of_no_errors h).2.1 _ _ hmem
  exact hsound.2.1.isInvalid_eq_false

end NoErrors

/-- **Constants are left open by items only.** If the analysis of an algorithm reports no error,
then all its constants are known. They are settled if and only if the braced initializers that they
are declared with make settled values, and for this it is enough that no item of them, at any depth,
is decided at run time. -/
theorem settledConstants_of_no_errors (a : Syntax.Algorithm) (source : Option String)
    (h : ∀ d ∈ ((analyze a).report .default source).delivered, d.severity ≠ .error) :
    (∀ id name type value, .constant name type value ∈ (analyze a).scopes.symbols id →
      value.isKnown = true) ∧
    ((analyze a).SettledConstants ↔ ∀ b ∈ (analyze a).tree.bracedConstants, b.1.Settled) ∧
    ((∀ b ∈ (analyze a).tree.bracedConstants, ∀ e ∈ Semantic.itemSources b.2,
      e.value.status ≠ .runtime) → (analyze a).SettledConstants) := by
  refine ⟨fun id name type value => isKnown_of_no_errors h, ⟨?_, ?_⟩, ?_⟩
  · intro hconstants b hb
    obtain ⟨site, type, name, braces, hd⟩ := Semantic.Algorithm.mem_bracedConstants.mp hb
    exact settled_of_settledConstants h hconstants hd
  · intro hbraced
    exact settledConstants_of_braced h fun b hb _ => hbraced b hb
  · intro hitems
    refine settledConstants_of_braced h fun b hb hinside => ?_
    obtain ⟨site, type, name, braces, hd⟩ := Semantic.Algorithm.mem_bracedConstants.mp hb
    rw [decls_analyze] at hd
    refine settled_of_mem_decls wellRooted_initial hd fun e he => ?_
    exact .intro (hitems b hb e he) (hinside e he)

theorem settledConstants_pairs :
    (∀ d ∈ ((analyze pairs).report .default none).delivered, d.severity ≠ .error) ∧
      (∀ id name type value, .constant name type value ∈ (analyze pairs).scopes.symbols id →
        value.isKnown = true) ∧
      (analyze pairs).tree.bracedConstants.length = 1 ∧ (analyze pairs).SettledConstants := by
  obtain ⟨hknown, -, hsettled⟩ := settledConstants_of_no_errors pairs none (by decide)
  refine ⟨by decide, hknown, rfl, hsettled fun b hb e he => ?_⟩
  have hitems : ((analyze pairs).tree.bracedConstants.flatMap fun b =>
      (Semantic.itemSources b.2).map (·.value.status)) =
        [.known (.integer 3), .known (.string "ab"), .known (.integer 4)] := rfl
  have hmem : e.value.status ∈ ((analyze pairs).tree.bracedConstants.flatMap fun b =>
      (Semantic.itemSources b.2).map (·.value.status)) :=
    List.mem_flatMap.mpr ⟨b, hb, List.mem_map_of_mem he⟩
  rw [hitems] at hmem
  intro hruntime
  simp [hruntime] at hmem

open Syntax (nowhere ident)

/-- A table of one integer, which is a sum out of range. -/
def overflowingItem : Syntax.Algorithm :=
  ⟨nowhere, [],
    [.constant ⟨nowhere, .ofKind (.array (.ofKind .integer) [.ofInteger 1]), ident "T",
      .braced ⟨nowhere, [.value ⟨nowhere, [], .expr ⟨⟨5⟩, nowhere,
        .binary ⟨nowhere, .add⟩ (.ofInteger Int32.maxValue) (.ofInteger 1)⟩⟩]⟩⟩]⟩

/-- A sum out of range is accepted as an item without a word, and the constant has an element that
is decided at run time. -/
theorem unsettled_constant :
    ¬ ∀ (a : Syntax.Algorithm) (source : Option String),
      ((analyze a).report .default source).delivered = [] → (analyze a).SettledConstants := by
  intro h
  have hconstant := h overflowingItem none (by decide) ScopeTable.root _ _ _ (.head _)
  exact (hconstant.inside _ (.tail _ (.head _))).here rfl

end Analysis

end Pseudocode
