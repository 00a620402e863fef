import Pseudocode.Proofs.Analysis.Undefined
import Pseudocode.Proofs.Path.Chain

/-!
# Accesses to the parts of an aggregate

An lvalue goes into the value of an aggregate by subscripts and components. Their selectors also go
into its type. Step by step the two go to the same place, or the type has no slot and the lvalue is
rejected.
-/

namespace Pseudocode

namespace Syntax

def Node.lvalue (node : Node) (kind : LvalueKind) : Lvalue := ⟨node.id, node.span, kind⟩

/-- One more subscript or component. The place accessed is used as the expression `node`, and what
becomes of it is the lvalue `place`. -/
inductive Access where
  | index (node place literal : Node) (n : Int32)
  | component (node place : Node) (name : Ident)

def Access.selector : Access → Selector
  | .index _ _ _ n => .index n
  | .component _ _ name => .component name.text

def Access.apply (l : Lvalue) : Access → Lvalue
  | .index node place literal n =>
    place.lvalue (.subscript (node.expr (.lvalue l)) (literal.expr (.literal (.integer n))))
  | .component node place name => place.lvalue (.component (node.expr (.lvalue l)) name)

/-- The lvalue followed by the accesses. -/
def Lvalue.accesses (l : Lvalue) (chain : List Access) : Lvalue := chain.foldl Access.apply l

end Syntax

/-- No type in the value is unknown, and each datum in it is one that the type beside it demands. -/
def Value.Typed (v : Value) : Prop := v.Everywhere fun w => w.type.Resolved ∧ w.Fits

theorem Event.findings_prefix_append (overflows : List Span) (es es' : List Event) :
    findings overflows es <+: findings overflows (es ++ es') := by
  rw [findings_append]
  exact List.prefix_append ..

namespace Analysis

open Event (report?)
open Syntax (Access)

/-! ### Single accesses -/

section Single

variable {a : Access}

/-- The check of one access to what has been analysed. -/
def access (env : Env) (base : Semantic.Expr) : Access → Traced Value
  | .index _ place literal n =>
    Check.subscript base ⟨env.site literal.span, .integer n, .literal (.integer n)⟩ place.span
  | .component _ place name => Check.component base name place.span

theorem value_apply (env : Env) (l : Syntax.Lvalue) (a : Access) :
    (lvalue env (a.apply l)).result.value = (access env (lvalue env l).result a).result := by
  cases a with
  | index node place literal n | component node place name =>
    simp only [Access.apply, Syntax.Node.lvalue, Syntax.Node.expr, lvalue, Traced.result_bind,
      result_lvalue]
    rfl

theorem reports_apply (env : Env) (l : Syntax.Lvalue) (a : Access) :
    (lvalue env (a.apply l)).pick report? =
      (lvalue env l).pick report? ++ (access env (lvalue env l).result a).pick report? := by
  cases a with
  | index node place literal n =>
    have hliteral : expr env (literal.expr (.literal (.integer n))) =
        finish env literal.id literal.span (.integer n) (.literal (.integer n)) := by
      rw [Syntax.Node.expr, expr]
      rfl
    simp only [Access.apply, Syntax.Node.lvalue, lvalue, Traced.pick_bind, hliteral,
      silent_finish, List.nil_append, List.append_nil]
    rw [Syntax.Node.expr, reports_lvalue, result_lvalue]
    rfl
  | component node place name =>
    simp only [Access.apply, Syntax.Node.lvalue, lvalue, Traced.pick_bind, silent_finish,
      List.append_nil]
    rw [Syntax.Node.expr, reports_lvalue, result_lvalue]
    rfl

/-- What is reported of an access that selects nothing. -/
def rejection? (base : Semantic.Expr) : Access → DesignatorError → Option Finding
  | .index _ _ literal _, .indexOutOfBounds n length =>
    some ⟨.indexOutOfBounds n length, literal.span⟩
  | .index .., .wrongAggregate => some ⟨.subscriptOfNonArray base.type, base.span⟩
  | .component _ _ name, .noSuchComponent =>
    some ⟨.missingComponent (Check.aliasName? base.type) name.text, name.span⟩
  | .component _ place name, .wrongAggregate =>
    some ⟨.componentOfNonStruct name.text base.type, place.span⟩
  | _, _ => none

/-- Different errors are reported differently. -/
theorem rejection?_inj {base : Semantic.Expr} {f : Finding} {e e' : DesignatorError}
    (h : rejection? base a e = some f) (h' : rejection? base a e' = some f) : e = e' := by
  cases a with
  | index | component => cases e <;> cases h <;> cases e' <;> cases h' <;> rfl

theorem subscript_literal (base : Semantic.Expr) (site : Semantic.Site) (n : Int32) (span : Span) :
    Check.subscript base ⟨site, .integer n, .literal (.integer n)⟩ span =
      match base.type.unaliased with
      | .unknown _ => pure (.invalid base.type)
      | .array item length => Check.element base item length n site.span
      | _ => do
        Traced.report (.subscriptOfNonArray base.type) base.span
        return .invalid (.unknown span) := by
  rw [Check.subscript]
  rfl

/-- An access goes where its selector leads in the type of what is accessed. -/
theorem access_of_select (env : Env) {base : Semantic.Expr} {step : Step} {inner : Ty}
    (h : base.type.select a.selector = .ok (step, inner)) :
    ∃ w : Value, w.type = inner ∧ w.datum? = none ∧
      access env base a = pure ((base.value.slot? step).getD w) := by
  cases a with
  | index node place literal n =>
    rw [Access.selector, Ty.select, Ty.indexStep] at h
    split at h
    · rename_i item length hshape
      split at h
      · rename_i hrange
        cases h
        refine ⟨.runtime inner, rfl, rfl, ?_⟩
        rw [access, subscript_literal, hshape]
        exact if_pos hrange
      · cases h
    · cases h
  | component node place name =>
    rw [Access.selector, Ty.select, Ty.componentStep] at h
    split at h
    · rename_i components hshape
      split at h
      · rename_i type hlookup
        cases h
        refine ⟨⟨inner, .pending base.value.isInvalid⟩, rfl, ?_, ?_⟩
        · cases hinvalid : base.value.isInvalid <;> rfl
        · rw [access, Check.component, hshape]
          dsimp only
          rw [hlookup]
      · cases h
    · cases h

theorem access_of_error (env : Env) {base : Semantic.Expr} {error : DesignatorError}
    (h : base.type.select a.selector = .error error) (hbase : base.type.isUnknown = false) :
    ∃ f w, rejection? base a error = some f ∧ access env base a = (do
      Traced.report f.cause f.span
      return w) := by
  cases a with
  | index node place literal n =>
    rw [Access.selector, Ty.select, Ty.indexStep] at h
    split at h
    · rename_i item length hshape
      split at h
      · cases h
      · rename_i hrange
        cases h
        refine ⟨_, .invalid item, rfl, ?_⟩
        rw [access, subscript_literal, hshape]
        exact if_neg hrange
    · rename_i hshape
      cases h
      refine ⟨_, .invalid (.unknown place.span), rfl, ?_⟩
      rw [access, subscript_literal]
      split
      · rename_i origin hunknown
        rw [Ty.isUnknown_iff.mpr ⟨origin, hunknown⟩] at hbase
        cases hbase
      · rename_i item length harray
        exact absurd harray (hshape item length)
      · rfl
  | component node place name =>
    rw [Access.selector, Ty.select, Ty.componentStep] at h
    split at h
    · rename_i components hshape
      split at h
      · cases h
      · rename_i hlookup
        cases h
        refine ⟨_, .invalid (.unknown name.span), rfl, ?_⟩
        rw [access, Check.component, hshape]
        dsimp only
        rw [hlookup]
    · rename_i hshape
      cases h
      refine ⟨_, .invalid (.unknown place.span), rfl, ?_⟩
      rw [access, Check.component]
      split
      · rename_i origin hunknown
        rw [Ty.isUnknown_iff.mpr ⟨origin, hunknown⟩] at hbase
        cases hbase
      · rename_i components hstruct
        exact absurd hstruct (hshape components)
      · rfl

end Single

/-! ### Chains of accesses -/

/-- What is reported of the lvalue. -/
def reported (env : Env) (l : Syntax.Lvalue) : List Finding :=
  Event.findings [] (lvalue env l).events

theorem reported_eq (env : Env) (l : Syntax.Lvalue) :
    reported env l = Event.findings [] ((lvalue env l).pick report?) :=
  (Event.findings_report? ..).symm

/-- Nothing is reported of the lvalue. Its value is of a type that is the same as `t`. -/
structure Leads (env : Env) (l : Syntax.Lvalue) (t : Ty) : Prop where
  silent : (lvalue env l).Silent report?
  typed : (lvalue env l).result.value.Typed
  same : (lvalue env l).result.value.type.same t = true

section Chain

variable {env : Env} {l : Syntax.Lvalue} {a : Access} {t inner leaf : Ty} {step : Step}
  {steps : List Step} {chain : List Access} {error : DesignatorError}

theorem Leads.reported_eq_nil (h : Leads env l t) : reported env l = [] := by
  rw [reported_eq, h.silent]
  rfl

/-- What the type has a slot for, the lvalue leads to. -/
theorem Leads.apply (h : Leads env l t) (ht : t.Resolved)
    (hselect : t.select a.selector = .ok (step, inner)) :
    Leads env (a.apply l) inner ∧
      ∀ w, (lvalue env l).result.value.slot? step = some w →
        (lvalue env (a.apply l)).result.value = w := by
  obtain ⟨hresolved, hfits⟩ := h.typed.here
  obtain ⟨inner', hselect', hinner⟩ := Ty.select_of_same hresolved h.same hselect
  obtain ⟨w, rfl, hdatum, haccess⟩ := access_of_select env hselect'
  have hsilent : (lvalue env (a.apply l)).Silent report? := by
    rw [Traced.Silent, reports_apply, h.silent, haccess]
    rfl
  have hvalue : (lvalue env (a.apply l)).result.value =
      ((lvalue env l).result.value.slot? step).getD w := by
    rw [value_apply, haccess]
    rfl
  cases hslot : (lvalue env l).result.value.slot? step with
  | none =>
    rw [hslot, Option.getD_none] at hvalue
    refine ⟨⟨hsilent, ?_, by rwa [hvalue]⟩, fun _ hw => by cases hw⟩
    rw [hvalue]
    refine Value.everywhere_of_contents_eq_nil ⟨hresolved.slot? (Ty.slot?_of_select hselect'), ?_⟩
      (Value.contents_of_datum?_eq_none hdatum)
    intro datum hknown
    rw [Value.datum?, hknown] at hdatum
    cases hdatum
  | some u =>
    rw [hslot, Option.getD_some] at hvalue
    refine ⟨⟨hsilent, ?_, ?_⟩, ?_⟩
    · rw [hvalue]
      exact h.typed.slot? hslot
    · rw [hvalue]
      exact hfits.same_slot? hresolved ht h.same hslot (Ty.slot?_of_select hselect)
    · intro w hw
      cases hw
      exact hvalue

/-- What the type has no slot for is reported, and nothing else is. -/
theorem Leads.rejected (h : Leads env l t) (ht : t.Resolved)
    (hselect : t.select a.selector = .error error) :
    ∃ f, rejection? (lvalue env l).result a error = some f ∧ reported env (a.apply l) = [f] := by
  have hresolved := h.typed.here.1
  have hselect' := Ty.select_error_of_same hresolved ht h.same hselect
  obtain ⟨f, w, hf, haccess⟩ := access_of_error env hselect' hresolved.isUnknown_eq_false
  refine ⟨f, hf, ?_⟩
  rw [reported_eq, reports_apply, h.silent, haccess]
  rfl

/-- A chain that leads somewhere in the type leads there in the value. -/
theorem Leads.accesses (h : Leads env l t) (ht : t.Resolved)
    (hresolve : t.resolve (chain.map Access.selector) = .ok (steps, leaf)) :
    Leads env (l.accesses chain) leaf ∧
      ∀ w, (lvalue env l).result.value.get? steps = some w →
        (lvalue env (l.accesses chain)).result.value = w := by
  induction chain generalizing l t steps with
  | nil =>
    cases hresolve
    exact ⟨h, fun w hw => Option.some.inj hw⟩
  | cons a rest ih =>
    obtain ⟨step, inner, steps', hselect, hrest, rfl⟩ := Ty.resolve_cons_eq_ok hresolve
    obtain ⟨hstep, hslot⟩ := h.apply ht hselect
    obtain ⟨hleads, hget⟩ := ih hstep (ht.slot? (Ty.slot?_of_select hselect)) hrest
    refine ⟨hleads, fun w hw => ?_⟩
    obtain ⟨u, hu, hw⟩ := Option.bind_eq_some_iff.mp hw
    exact hget w (by rwa [hslot u hu])

end Chain

/-! ### Rejected accesses -/

/-- Nothing is reported of the first `k` accesses. The one after them is reported for the error. -/
def RejectsAt (env : Env) (l : Syntax.Lvalue) (chain : List Access) (k : Nat)
    (error : DesignatorError) : Prop :=
  ∃ a f, chain[k]? = some a ∧
    rejection? (lvalue env (l.accesses (chain.take k))).result a error = some f ∧
    reported env (l.accesses (chain.take k)) = [] ∧
    reported env (l.accesses (chain.take (k + 1))) = [f] ∧
    [f] <+: reported env (l.accesses chain)

theorem accesses_take_succ (l : Syntax.Lvalue) {chain : List Access} {k : Nat} {a : Access}
    (h : chain[k]? = some a) :
    l.accesses (chain.take (k + 1)) = a.apply (l.accesses (chain.take k)) := by
  rw [List.take_add_one, h, Syntax.Lvalue.accesses, List.foldl_append]
  rfl

theorem reported_prefix_apply (env : Env) (l : Syntax.Lvalue) (a : Access) :
    reported env l <+: reported env (a.apply l) := by
  rw [reported_eq, reported_eq, reports_apply]
  exact Event.findings_prefix_append ..

/-- What is reported of the first accesses is reported first of all of them. -/
theorem reported_take_prefix (env : Env) (l : Syntax.Lvalue) (chain : List Access) (k : Nat) :
    reported env (l.accesses (chain.take k)) <+: reported env (l.accesses chain) := by
  have hall (l : Syntax.Lvalue) (rest : List Access) :
      reported env l <+: reported env (l.accesses rest) := by
    induction rest generalizing l with
    | nil => exact List.prefix_rfl
    | cons a rest ih => exact (reported_prefix_apply env l a).trans (ih (a.apply l))
  have hsplit : l.accesses chain = (l.accesses (chain.take k)).accesses (chain.drop k) := by
    simp only [Syntax.Lvalue.accesses, ← List.foldl_append, List.take_append_drop]
  rw [hsplit]
  exact hall ..

section Reject

variable {env : Env} {l : Syntax.Lvalue} {t : Ty} {chain : List Access} {k : Nat}
  {error : DesignatorError}

theorem Leads.rejectsAt (h : Leads env l t) (ht : t.Resolved)
    (hfails : t.FailsAt (chain.map Access.selector) k error) : RejectsAt env l chain k error := by
  obtain ⟨steps, u, s, hresolve, hs, hselect⟩ := hfails
  rw [List.getElem?_map, Option.map_eq_some_iff] at hs
  obtain ⟨a, ha, rfl⟩ := hs
  rw [← List.map_take] at hresolve
  have hleads := (h.accesses ht hresolve).1
  obtain ⟨f, hf, hreported⟩ := hleads.rejected (ht.resolve hresolve) hselect
  rw [← accesses_take_succ l ha] at hreported
  refine ⟨a, f, ha, hf, hleads.reported_eq_nil, hreported, ?_⟩
  rw [← hreported]
  exact reported_take_prefix ..

/-- **A chain breaks off in the type where the lvalue is rejected, and for the same reason.** -/
theorem Leads.failsAt_iff (h : Leads env l t) (ht : t.Resolved) :
    t.FailsAt (chain.map Access.selector) k error ↔ RejectsAt env l chain k error := by
  refine ⟨h.rejectsAt ht, ?_⟩
  rintro ⟨a, f, ha, hf, hbefore, hnext, -⟩
  rw [accesses_take_succ l ha] at hnext
  cases hresolve : t.resolve ((chain.take k).map Access.selector) with
  | error error' =>
    -- Then the chain would have been rejected before.
    obtain ⟨k', -, hfails⟩ := Ty.exists_failsAt hresolve
    obtain ⟨-, f', -, -, -, -, hprefix⟩ := h.rejectsAt ht hfails
    rw [hbefore] at hprefix
    cases List.prefix_nil.mp hprefix
  | ok place =>
    obtain ⟨steps, u⟩ := place
    have hleads := (h.accesses ht hresolve).1
    have hu := ht.resolve hresolve
    cases hselect : u.select a.selector with
    | ok slot =>
      have hsilent := (hleads.apply hu hselect).1.reported_eq_nil
      cases hsilent.symm.trans hnext
    | error error' =>
      obtain ⟨f', hf', hreported⟩ := hleads.rejected hu hselect
      cases hreported.symm.trans hnext
      cases rejection?_inj hf hf'
      refine ⟨steps, u, a.selector, by rw [← List.map_take, hresolve], ?_, hselect⟩
      rw [List.getElem?_map, ha]
      rfl

end Reject

end Analysis

end Pseudocode
