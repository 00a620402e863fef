import Pseudocode.Proofs.Overflow.Journal

/-!
# The journal accounts for the trace

The events of an analysis that concern constants are those that its journal gives rise to. The
journal visits the terms of the syntax in their order, and it demands a term to be constant when the
term and all terms inside it have been visited, and nothing around it has.
-/

namespace Pseudocode

open Syntax (Term Postorder)

/-! ### Events that concern constants -/

/-- The event is, or may explain, a report that something is not constant. -/
def Event.isSignal : Event → Bool
  | .found finding => finding.cause.code = .constantExpressionExpected
  | .notConstant _ | .overflow _ => true
  | .typed .. => false

/-- The event, if it is a signal. -/
def Event.signal? : Event → Option Event := Option.guard isSignal

theorem Cause.topic_of_code {cause : Cause} (h : cause.code = .constantExpressionExpected) :
    cause.topic = .constancy := by
  cases cause with
  | notConstant => rfl
  | unbindable error => cases error <;> cases h
  | _ => cases h

namespace Event

theorem ignores_signal? {topic : Topic} (h : topic ≠ .constancy) : Ignores signal? topic where
  eq_none e he := by
    cases e with
    | found f =>
      refine if_neg fun hf => h ?_
      exact he.symm.trans (Cause.topic_of_code (of_decide_eq_true hf))
    | notConstant | overflow => exact absurd he.symm h
    | typed => rfl

instance (n : Nat) : Ignores signal? (.finding n) := ignores_signal? nofun

instance : Ignores signal? .repetition := ignores_signal? nofun

instance : Ignores signal? .typing := ignores_signal? nofun

end Event

def Entry.events : Entry → List Event
  | .visit v => if v.overflows then [.overflow v.term.span] else []
  | .demand v => [.notConstant v.term.span]

/-! ### Grounded journals -/

/-- The term and all terms inside it have been visited. What was visited after them has been visited
with all terms inside it, unless it is no operation that overflows. -/
def Visit.Answered (v : Visit) (before : List Visit) : Prop :=
  ∃ earlier later, before = earlier ++ (v.visits ++ later) ∧
    ∀ u ∈ later, u.overflows = true → u.term.inner ⊆ later.map (·.term)

theorem Visit.Answered.prepend {v : Visit} {before : List Visit} (h : v.Answered before)
    (more : List Visit) : v.Answered (more ++ before) := by
  obtain ⟨earlier, later, rfl, hlater⟩ := h
  exact ⟨more ++ earlier, later, by rw [List.append_assoc], hlater⟩

theorem Visit.Answered.append {v : Visit} {before more : List Visit} (h : v.Answered before)
    (hmore : Postorder (more.map (·.term))) : v.Answered (before ++ more) := by
  obtain ⟨earlier, later, rfl, hlater⟩ := h
  refine ⟨earlier, later ++ more, by simp only [List.append_assoc], ?_⟩
  intro u hu hoverflows
  rw [List.map_append]
  obtain hu | hu := List.mem_append.mp hu
  · exact List.subset_append_of_subset_left _ (hlater u hu hoverflows)
  · have hterms := hmore u.term (List.mem_map_of_mem hu)
    have hinner := List.Subset.trans u.term.inner_subset hterms.subset
    exact List.subset_append_of_subset_right _ hinner

/-- The visits of a journal. -/
def visited (journal : List Entry) : List Visit := journal.filterMap Entry.visit?

@[simp]
theorem visited_append (journal others : List Entry) :
    visited (journal ++ others) = visited journal ++ visited others := List.filterMap_append ..

@[simp]
theorem visited_demand (v : Visit) (lacks : Value → Bool) : visited (v.demand lacks) = [] := by
  unfold Visit.demand
  split <;> rfl

/-- Each demand is about a term that has been visited. -/
def Grounded (before : List Visit) : List Entry → Prop
  | [] => True
  | .visit v :: rest => Grounded (before ++ [v]) rest
  | .demand v :: rest => v.Answered before ∧ Grounded before rest

theorem Grounded.prepend {before : List Visit} {journal : List Entry} (h : Grounded before journal)
    (more : List Visit) : Grounded (more ++ before) journal := by
  induction journal generalizing before with
  | nil => trivial
  | cons entry rest ih =>
    cases entry with
    | visit v =>
      rw [Grounded, List.append_assoc]
      exact ih h
    | demand v => exact ⟨h.1.prepend more, ih h.2⟩

theorem grounded_append {before : List Visit} {journal others : List Entry} :
    Grounded before (journal ++ others) ↔
      Grounded before journal ∧ Grounded (before ++ visited journal) others := by
  induction journal generalizing before with
  | nil => simp [Grounded, visited]
  | cons entry rest ih =>
    cases entry with
    | visit v =>
      have hvisited : visited (.visit v :: rest) = [v] ++ visited rest := rfl
      rw [List.cons_append, Grounded, Grounded, ih, hvisited, List.append_assoc]
    | demand v =>
      have hvisited : visited (.demand v :: rest) = visited rest := rfl
      rw [List.cons_append, Grounded, Grounded, ih, hvisited, and_assoc]

theorem grounded_demand {v : Visit} {before : List Visit} (h : v.Answered before)
    (lacks : Value → Bool) : Grounded before (v.demand lacks) := by
  unfold Visit.demand
  split
  · exact ⟨h, trivial⟩
  · trivial

/-! ### Accounts -/

/-- The journal visits the terms `ts`, in environments of which `p` holds, and accounts for the
signals. -/
structure Accounts (p : Env → Prop) (ts : List Term) (journal : List Entry)
    (signals : List Event) : Prop where
  signals_eq : signals = journal.flatMap Entry.events
  terms_eq : (visited journal).map (·.term) = ts
  envs : ∀ v ∈ visited journal, p v.env
  grounded : Grounded [] journal

namespace Accounts

variable {p : Env → Prop} {env : Env} {ts ts' : List Term} {journal journal' : List Entry}
  {signals signals' : List Event}

theorem nil : Accounts p [] [] [] := ⟨rfl, rfl, by simp [visited], trivial⟩

theorem append (h : Accounts p ts journal signals) (h' : Accounts p ts' journal' signals') :
    Accounts p (ts ++ ts') (journal ++ journal') (signals ++ signals') where
  signals_eq := by rw [List.flatMap_append, h.signals_eq, h'.signals_eq]
  terms_eq := by rw [visited_append, List.map_append, h.terms_eq, h'.terms_eq]
  envs v hv := by
    rw [visited_append, List.mem_append] at hv
    exact hv.elim (h.envs v) (h'.envs v)
  grounded := by
    refine grounded_append.mpr ⟨h.grounded, ?_⟩
    have hgrounded := h'.grounded.prepend (visited journal)
    rwa [List.append_nil] at hgrounded

theorem of_eq (h : Accounts p ts journal signals) (hts : ts' = ts) (hsignals : signals' = signals) :
    Accounts p ts' journal signals' := by
  rw [hts, hsignals]
  exact h

/-- The rule for a term, once the terms inside it are accounted for. -/
theorem visit {t : Term} (h : Accounts (· = env) t.inner journal signals) :
    Accounts (· = env) t.terms (journal ++ [.visit ⟨env, t⟩])
      (signals ++ Entry.events (.visit ⟨env, t⟩)) := by
  have hself : Accounts (· = env) [t] [.visit ⟨env, t⟩] (Entry.events (.visit ⟨env, t⟩)) :=
    ⟨by simp, rfl, by simp [visited, Entry.visit?], trivial⟩
  rw [t.terms_eq]
  exact h.append hself

/-- The rule for a term that is no operation that overflows. -/
theorem silent {t : Term} (h : Accounts (· = env) t.inner journal signals)
    (ht : Visit.overflows ⟨env, t⟩ = false) :
    Accounts (· = env) t.terms (journal ++ [.visit ⟨env, t⟩]) signals := by
  have hvisit := h.visit
  rwa [Entry.events, ht, if_neg Bool.false_ne_true, List.append_nil] at hvisit

theorem visited_eq (h : Accounts (· = env) ts journal signals) :
    visited journal = ts.map (⟨env, ·⟩) := by
  rw [← h.terms_eq, List.map_map]
  refine (List.map_id _).symm.trans (List.map_congr_left fun v hv => ?_)
  obtain rfl := h.envs v hv
  rfl

/-- The rule for a term that has to be constant and has been visited. -/
theorem demand (h : Accounts p ts journal signals) {v : Visit} (hv : v.Answered (visited journal))
    (lacks : Value → Bool) :
    Accounts p ts (journal ++ v.demand lacks)
      (signals ++ (v.demand lacks).flatMap Entry.events) where
  signals_eq := by rw [List.flatMap_append, h.signals_eq]
  terms_eq := by rw [visited_append, visited_demand, List.append_nil, h.terms_eq]
  envs u hu := by
    rw [visited_append, visited_demand, List.append_nil] at hu
    exact h.envs u hu
  grounded := grounded_append.mpr ⟨h.grounded, grounded_demand hv lacks⟩

end Accounts

end Pseudocode
