import Pseudocode.Proofs.Value.Typing

/-!
# Chains of selectors

A selector names a slot of an aggregate, and a chain of selectors a place inside of one. Along a
type the selectors of a chain become steps, or one of them selects nothing. Types that are the same
have the same slots. Along a value steps lead to a place that can be read and written: what was
written is read back, unless something was written to a place around it or inside it.
-/

namespace Pseudocode

/-- A one-based index or the name of a component. -/
inductive Selector where
  | index (n : Int32)
  | component (name : String)
deriving DecidableEq

namespace Ty

/-! ### Single selectors -/

/-- The slot that the selector names, and its type. -/
def select (t : Ty) : Selector → Except DesignatorError (Step × Ty)
  | .index n => t.indexStep n
  | .component name => t.componentStep name

theorem slot?_of_select {t inner : Ty} {s : Selector} {step : Step}
    (h : t.select s = .ok (step, inner)) : t.slot? step = some inner := by
  cases s with
  | index n => exact slot?_of_indexStep h
  | component name => exact slot?_of_componentStep h

theorem lookup_of_sameComponents {as bs : List (String × Ty)} (h : sameComponents as bs = true)
    (name : String) : (as.lookup name).isSome = (bs.lookup name).isSome := by
  induction as generalizing bs with
  | nil =>
    cases bs with
    | nil => rfl
    | cons => simp [sameComponents] at h
  | cons head as ih =>
    cases bs with
    | nil => simp [sameComponents] at h
    | cons head' bs =>
      obtain ⟨n, t⟩ := head
      obtain ⟨m, t'⟩ := head'
      simp only [sameComponents, Bool.and_eq_true, beq_iff_eq] at h
      obtain ⟨⟨rfl, -⟩, hrest⟩ := h
      simp only [List.lookup_cons]
      split
      · rfl
      · exact ih hrest

section Same

variable {a b inner : Ty} {s : Selector} {step : Step} {error : DesignatorError}

/-- Types that are the same have the same slots, of types that are the same. -/
theorem select_of_same (ha : a.Resolved) (hsame : a.same b = true)
    (h : b.select s = .ok (step, inner)) :
    ∃ inner', a.select s = .ok (step, inner') ∧ inner'.same inner = true := by
  have hback := same_symm hsame
  cases s with
  | index n =>
    rw [select, indexStep] at h
    split at h
    · rename_i item length hshape
      obtain ⟨item', hshape', hitem⟩ := same_array_of_resolved ha hback hshape
      rw [select, indexStep, hshape']
      dsimp only
      split at h
      · rename_i hrange
        cases h
        exact ⟨item', if_pos hrange, same_symm hitem⟩
      · cases h
    · cases h
  | component name =>
    rw [select, componentStep] at h
    split at h
    · rename_i components hshape
      obtain ⟨components', hshape', hcomponents⟩ := same_struct_of_resolved ha hback hshape
      rw [select, componentStep, hshape']
      dsimp only
      split at h
      · rename_i type hlookup
        cases h
        have hsome := lookup_of_sameComponents hcomponents name
        rw [hlookup, Option.isSome_some, eq_comm, Option.isSome_iff_exists] at hsome
        obtain ⟨type', hlookup'⟩ := hsome
        rw [hlookup']
        exact ⟨type', rfl, same_symm (same_of_lookup hcomponents hlookup hlookup')⟩
      · cases h
    · cases h

/-- What selects nothing in a type selects nothing in a type that is the same. -/
theorem select_error_of_same (ha : a.Resolved) (hb : b.Resolved) (hsame : a.same b = true)
    (h : b.select s = .error error) : a.select s = .error error := by
  have hback := same_symm hsame
  cases s with
  | index n =>
    rw [select, indexStep] at h ⊢
    split at h
    · rename_i item length hshape
      obtain ⟨item', hshape', -⟩ := same_array_of_resolved ha hback hshape
      rw [hshape']
      split at h
      · cases h
      · rename_i hrange
        cases h
        exact if_neg hrange
    · rename_i hnot
      cases h
      split
      · rename_i item length hshape
        obtain ⟨item', hshape', -⟩ := same_array_of_resolved hb hsame hshape
        exact absurd hshape' (hnot item' length)
      · rfl
  | component name =>
    rw [select, componentStep] at h ⊢
    split at h
    · rename_i components hshape
      obtain ⟨components', hshape', hcomponents⟩ := same_struct_of_resolved ha hback hshape
      rw [hshape']
      dsimp only
      split at h
      · cases h
      · rename_i hlookup
        cases h
        have hsome := lookup_of_sameComponents hcomponents name
        rw [hlookup, Option.isSome_none, eq_comm, Option.isSome_eq_false_iff,
          Option.isNone_iff_eq_none] at hsome
        rw [hsome]
    · rename_i hnot
      cases h
      split
      · rename_i components hshape
        obtain ⟨components', hshape', -⟩ := same_struct_of_resolved hb hsame hshape
        exact absurd hshape' (hnot components')
      · rfl

end Same

/-! ### Chains -/

/-- The steps that the chain becomes, and the type at their end. -/
def resolve (t : Ty) : List Selector → Except DesignatorError (List Step × Ty)
  | [] => .ok ([], t)
  | s :: rest =>
    match t.select s with
    | .error error => .error error
    | .ok (step, inner) =>
      match inner.resolve rest with
      | .error error => .error error
      | .ok (steps, leaf) => .ok (step :: steps, leaf)

/-- The first `k` selectors lead somewhere, and the one after them selects nothing there. -/
def FailsAt (t : Ty) (chain : List Selector) (k : Nat) (error : DesignatorError) : Prop :=
  ∃ steps u s, t.resolve (chain.take k) = .ok (steps, u) ∧ chain[k]? = some s ∧
    u.select s = .error error

theorem resolve_cons_eq_ok {t leaf : Ty} {s : Selector} {rest : List Selector} {steps : List Step}
    (h : t.resolve (s :: rest) = .ok (steps, leaf)) :
    ∃ step inner steps', t.select s = .ok (step, inner) ∧
      inner.resolve rest = .ok (steps', leaf) ∧ steps = step :: steps' := by
  rw [resolve] at h
  split at h
  · cases h
  · rename_i step inner hselect
    split at h
    · cases h
    · rename_i steps' leaf' hrest
      cases h
      exact ⟨step, inner, steps', hselect, hrest, rfl⟩

theorem resolve_cons_of_select {t inner leaf : Ty} {s : Selector} {rest : List Selector}
    {step : Step} {steps : List Step} (hselect : t.select s = .ok (step, inner))
    (hrest : inner.resolve rest = .ok (steps, leaf)) :
    t.resolve (s :: rest) = .ok (step :: steps, leaf) := by
  rw [resolve, hselect]
  dsimp only
  rw [hrest]

/-- A chain that leads nowhere breaks off at one of its selectors. -/
theorem exists_failsAt {t : Ty} {chain : List Selector} {error : DesignatorError}
    (h : t.resolve chain = .error error) : ∃ k < chain.length, t.FailsAt chain k error := by
  induction chain generalizing t with
  | nil => cases h
  | cons s rest ih =>
    rw [resolve] at h
    split at h
    · rename_i hselect
      cases h
      exact ⟨0, Nat.succ_pos _, [], t, s, rfl, rfl, hselect⟩
    · rename_i step inner hselect
      split at h
      · rename_i hrest
        cases h
        obtain ⟨k, hk, steps, u, s', hsteps, hs', herror⟩ := ih hrest
        refine ⟨k + 1, Nat.succ_lt_succ hk, step :: steps, u, s', ?_, hs', herror⟩
        exact resolve_cons_of_select hselect hsteps
      · cases h

theorem Resolved.resolve {t leaf : Ty} {chain : List Selector} {steps : List Step}
    (ht : t.Resolved) (h : t.resolve chain = .ok (steps, leaf)) : leaf.Resolved := by
  induction chain generalizing t steps with
  | nil =>
    cases h
    exact ht
  | cons s rest ih =>
    obtain ⟨step, inner, steps', hselect, hrest, rfl⟩ := resolve_cons_eq_ok h
    exact ih (ht.slot? (slot?_of_select hselect)) hrest

end Ty

/-! ### Reading and writing along steps -/

namespace Value

theorem lookup_modifyComponent_self (name : String) (f : Value → Value)
    (components : List (String × Value)) :
    (modifyComponent name f components).lookup name = (components.lookup name).map f := by
  induction components with
  | nil => rfl
  | cons head rest ih =>
    obtain ⟨n, v⟩ := head
    rw [modifyComponent]
    by_cases h : n = name
    · simp [h]
    · have hne : (name == n) = false := beq_false_of_ne (Ne.symm h)
      rw [if_neg h, List.lookup_cons, List.lookup_cons, hne]
      exact ih

theorem lookup_modifyComponent_of_ne {name other : String} (h : other ≠ name) (f : Value → Value)
    (components : List (String × Value)) :
    (modifyComponent name f components).lookup other = components.lookup other := by
  induction components with
  | nil => rfl
  | cons head rest ih =>
    obtain ⟨n, v⟩ := head
    rw [modifyComponent]
    by_cases hn : n = name
    · have hne : (other == n) = false := beq_false_of_ne (hn ▸ h)
      rw [if_pos hn, List.lookup_cons, List.lookup_cons, hne]
    · rw [if_neg hn, List.lookup_cons, List.lookup_cons, ih]

theorem slot?_modifySlot_self (v : Value) (step : Step) (f : Value → Value) :
    (v.modifySlot step f).slot? step = (v.slot? step).map f := by
  obtain ⟨type, status⟩ := v
  cases status with
  | known datum =>
    cases datum with
    | array elements =>
      cases step with
      | index i => exact SparseArray.get?_modify_self elements i f
      | component name => rfl
    | struct components =>
      cases step with
      | index i => rfl
      | component name => exact lookup_modifyComponent_self name f components
    | _ => rfl
  | _ => rfl

theorem slot?_modifySlot_of_ne (v : Value) {step other : Step} (h : other ≠ step)
    (f : Value → Value) : (v.modifySlot step f).slot? other = v.slot? other := by
  unfold modifySlot
  split
  · rename_i elements i hstatus
    cases other with
    | index j =>
      simp only [slot?, hstatus]
      exact SparseArray.get?_modify_of_ne elements f fun hj => h (congrArg Step.index hj)
    | component name => simp only [slot?, hstatus]
  · rename_i components name hstatus
    cases other with
    | index j => simp only [slot?, hstatus]
    | component other =>
      simp only [slot?, hstatus]
      exact lookup_modifyComponent_of_ne (fun hname => h (congrArg Step.component hname)) f
        components
  · rfl

theorem get?_set_self (v new : Value) (steps : List Step) :
    (v.set steps new).get? steps = (v.get? steps).map fun _ => new := by
  induction steps generalizing v with
  | nil => rfl
  | cons step rest ih =>
    rw [set, get?, get?, slot?_modifySlot_self]
    cases v.slot? step with
    | none => rfl
    | some u => exact ih u

/-- A write elsewhere is not seen. -/
theorem get?_set_of_apart (v new : Value) {steps others : List Step} (h : ¬ steps <+: others)
    (h' : ¬ others <+: steps) : (v.set steps new).get? others = v.get? others := by
  induction steps generalizing v others with
  | nil => exact absurd List.nil_prefix h
  | cons step rest ih =>
    cases others with
    | nil => exact absurd List.nil_prefix h'
    | cons other others =>
      rw [set, get?, get?]
      by_cases heq : other = step
      · subst heq
        rw [List.cons_prefix_cons] at h h'
        rw [slot?_modifySlot_self]
        cases v.slot? other with
        | none => rfl
        | some u => exact ih u (fun hrest => h ⟨rfl, hrest⟩) fun hrest => h' ⟨rfl, hrest⟩
      · rw [slot?_modifySlot_of_ne v heq]

/-- Storing a value leaves what is in it. -/
theorem slot?_convertTo (v : Value) (target : Ty) (step : Step) :
    (v.convertTo target).slot? step = v.slot? step := by
  obtain ⟨type, status⟩ := v
  cases status with
  | known datum =>
    cases datum with
    | integer n =>
      simp only [convertTo, Status.convertTo]
      split <;> rfl
    | _ => rfl
  | _ => rfl

end Value

end Pseudocode
