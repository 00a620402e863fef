import Pseudocode.Proofs.Analysis.Delivery
import Pseudocode.Proofs.Overflow.Programs

/-!
# The overflow advice is exact

A report that something is not constant mentions an overflow if any operation met so far overflowed
inside the extent of the report. In a tidy algorithm those are the operations of the term that the
report is about: what was met before the term is apart from it, and what is around the term comes
later.
-/

namespace Pseudocode

open Syntax (Term Tidy)

namespace Visit

theorem map_term_visits (v : Visit) : v.visits.map (·.term) = v.term.terms := by
  rw [visits, List.map_map]
  exact List.map_id _

theorem hasOverflow_iff {v : Visit} :
    v.hasOverflow = true ↔ ∃ t ∈ v.term.terms, overflows ⟨v.env, t⟩ = true := by
  simp [hasOverflow, visits]

/-- The finding that a term is not the constant that it has to be. -/
def finding (v : Visit) : Finding := ⟨.notConstant v.hasOverflow, v.term.span⟩

theorem mem_advice_finding (v : Visit) (source : Option String) :
    "integer overflow" ∈ (v.finding.diagnostic source).advice ↔ v.hasOverflow = true := by
  change "integer overflow" ∈ (if v.hasOverflow then ["integer overflow"] else []) ↔ _
  split <;> simp [*]

end Visit

/-! ### From extents to terms -/

section Extents

variable {v : Visit} {before after : List Visit}

/-- What was met so far in the extent of a term is part of the term, if it overflowed. -/
theorem mem_visits_of_encloses (htidy : Tidy ((before ++ after).map (·.term)))
    (hv : v.Answered before) {u : Visit} (hu : u ∈ before) (hoverflows : u.overflows = true)
    (hencloses : v.term.span.encloses u.term.span = true) : u ∈ v.visits := by
  have hnonempty := htidy.nonempty _ (List.mem_map_of_mem (List.mem_append_left after hu))
  have hnot : ¬ v.term.span.Apart u.term.span := Span.not_apart_of_encloses hencloses hnonempty
  obtain ⟨earlier, later, rfl, hlater⟩ := hv
  simp only [List.append_assoc, List.map_append, v.map_term_visits] at htidy
  obtain hu | hu := List.mem_append.mp hu
  · have hinner := List.subset_append_of_subset_left
      (later.map (·.term) ++ after.map (·.term)) v.term.inner_subset
    have hv := List.mem_append_left (later.map (·.term) ++ after.map (·.term)) v.term.mem_terms
    exact absurd (htidy.apart_of_mem (List.mem_map_of_mem hu) hv hinner).symm hnot
  obtain hu | hu := List.mem_append.mp hu
  · exact hu
  · rw [← List.append_assoc] at htidy
    have hinner := List.subset_append_of_subset_left (after.map (·.term)) (hlater u hu hoverflows)
    have hu := List.mem_append_left (after.map (·.term)) (List.mem_map_of_mem (f := (·.term)) hu)
    exact absurd (htidy.apart_of_mem (List.mem_append_right _ v.term.mem_terms) hu hinner) hnot

theorem encloses_of_mem_visits (htidy : Tidy ((before ++ after).map (·.term)))
    (hv : v.Answered before) {u : Visit} (hu : u ∈ v.visits) :
    u ∈ before ∧ v.term.span.encloses u.term.span = true := by
  obtain ⟨earlier, later, rfl, -⟩ := hv
  refine ⟨by simp [hu], ?_⟩
  have hterm : u.term ∈ v.term.terms := by
    rw [← v.map_term_visits]
    exact List.mem_map_of_mem hu
  rw [v.term.terms_eq] at hterm
  obtain hinner | hself := List.mem_append.mp hterm
  · refine htidy.encloses v.term ?_ u.term hinner
    simp [v.map_term_visits, v.term.mem_terms]
  · rw [List.mem_singleton.mp hself]
    exact Span.encloses_refl _

/-- The overflows in the extent of a term are those of the term. -/
theorem any_encloses_eq (htidy : Tidy ((before ++ after).map (·.term))) (hv : v.Answered before)
    {overflows : List Span}
    (hmem : ∀ s, s ∈ overflows ↔ ∃ u ∈ before, u.overflows = true ∧ u.term.span = s) :
    overflows.any v.term.span.encloses = v.hasOverflow := by
  rw [Bool.eq_iff_iff, List.any_eq_true, Visit.hasOverflow, List.any_eq_true]
  constructor
  · rintro ⟨s, hs, hencloses⟩
    obtain ⟨u, hu, hoverflows, rfl⟩ := (hmem s).mp hs
    exact ⟨u, mem_visits_of_encloses htidy hv hu hoverflows hencloses, hoverflows⟩
  · rintro ⟨u, hu, hoverflows⟩
    obtain ⟨hbefore, hencloses⟩ := encloses_of_mem_visits htidy hv hu
    exact ⟨u.term.span, (hmem _).mpr ⟨u, hbefore, hoverflows, rfl⟩, hencloses⟩

end Extents

/-! ### The findings of a journal -/

/-- The findings of a journal that goes on when the terms of `before` have been visited. -/
theorem findings_journal {before : List Visit} {overflows : List Span} {journal : List Entry}
    (htidy : Tidy ((before ++ visited journal).map (·.term))) (hgrounded : Grounded before journal)
    (hmem : ∀ s, s ∈ overflows ↔ ∃ u ∈ before, u.overflows = true ∧ u.term.span = s) :
    Event.findings overflows (journal.flatMap Entry.events) =
      (journal.filterMap Entry.demand?).map Visit.finding := by
  induction journal generalizing before overflows with
  | nil => rfl
  | cons entry rest ih =>
    cases entry with
    | visit v =>
      have hvisited : before ++ visited (.visit v :: rest) = (before ++ [v]) ++ visited rest :=
        List.append_cons ..
      rw [hvisited] at htidy
      by_cases hv : v.overflows = true
      · have hevents : (Entry.visit v).events = [.overflow v.term.span] := if_pos hv
        rw [List.flatMap_cons, hevents]
        refine ih htidy hgrounded fun s => ?_
        rw [List.mem_cons, hmem s, or_comm, eq_comm (a := s)]
        simp [or_and_right, exists_or, hv]
      · have hevents : (Entry.visit v).events = [] := if_neg hv
        rw [List.flatMap_cons, hevents]
        refine ih htidy hgrounded fun s => ?_
        simp [hmem s, or_and_right, exists_or, hv]
    | demand v =>
      have hadvice := any_encloses_eq htidy hgrounded.1 hmem
      rw [List.flatMap_cons, Entry.events, List.singleton_append, Event.findings, hadvice,
        ih htidy hgrounded.2 hmem]
      rfl

theorem mem_visited_of_demand {before : List Visit} {journal : List Entry}
    (hgrounded : Grounded before journal) {v : Visit} (hv : v ∈ journal.filterMap Entry.demand?) :
    v.term ∈ (before ++ visited journal).map (·.term) := by
  induction journal generalizing before with
  | nil => cases hv
  | cons entry rest ih =>
    cases entry with
    | visit u =>
      have hrest := ih hgrounded hv
      rwa [List.append_assoc] at hrest
    | demand u =>
      obtain rfl | hv := List.mem_cons.mp hv
      · obtain ⟨earlier, later, rfl, -⟩ := hgrounded.1
        simp [v.map_term_visits, v.term.mem_terms]
      · exact ih hgrounded.2 hv

/-- What is found about constants depends on nothing but the signals. -/
theorem Event.filter_findings_signal (overflows : List Span) (es : List Event) :
    (findings overflows es).filter (·.cause.code = .constantExpressionExpected) =
      findings overflows (es.filterMap signal?) := by
  have hsignals (es : List Event) : es.filterMap signal? = es.filter isSignal :=
    congrFun List.filterMap_eq_filter es
  rw [hsignals]
  fun_induction findings overflows es with
  | case1 => rfl
  | case2 overflows finding rest ih =>
    by_cases hcode : finding.cause.code = .constantExpressionExpected
    · rw [List.filter_cons_of_pos (by simpa using hcode),
        List.filter_cons_of_pos (by simpa [isSignal] using hcode), findings, ih]
    · rw [List.filter_cons_of_neg (by simpa using hcode),
        List.filter_cons_of_neg (by simpa [isSignal] using hcode), ih]
  | case3 overflows span rest ih => exact congrArg (_ :: ·) ih
  | case4 overflows span rest ih => exact ih
  | case5 overflows id type rest ih => exact ih

namespace Analysis

theorem findings_constants {a : Syntax.Algorithm} (h : Tidy a.terms) :
    (analyze a).findings.filter (·.cause.code = .constantExpressionExpected) =
      a.demands.map Visit.finding := by
  have haccounts := accounts_algorithm a
  have hfilter := Event.filter_findings_signal [] (algorithm a .initial).events
  rw [← haccounts.terms_eq] at h
  have hnone : ∀ s, s ∈ ([] : List Span) ↔
      ∃ u ∈ ([] : List Visit), u.overflows = true ∧ u.term.span = s := by simp
  have hjournal := findings_journal h haccounts.grounded hnone
  rw [← haccounts.signals_eq] at hjournal
  exact hfilter.trans hjournal

theorem mem_terms_of_mem_demands {a : Syntax.Algorithm} {v : Visit} (hv : v ∈ a.demands) :
    v.term ∈ a.terms := by
  have haccounts := accounts_algorithm a
  rw [← haccounts.terms_eq]
  exact mem_visited_of_demand haccounts.grounded hv

end Analysis

namespace Session

/-- **The overflow advice is exact.** In a tidy algorithm a term that has to be constant is reported
each time it turns out that it is not, unless such reports are suppressed. The report mentions an
overflow if and only if the term is, or has inside it, an operation that overflows. -/
theorem overflow_advice_is_exact (config : Config) (source : Option String) (a : Syntax.Algorithm)
    (h : Tidy a.terms) :
    (run config source a).sink.delivered.filter (·.code = .constantExpressionExpected) =
      (if .constantExpressionExpected ∈ config.suppressed then []
      else a.demands.map fun v => v.finding.diagnostic source) ∧
    (∀ v ∈ a.demands, v.term ∈ a.terms) ∧
    ∀ v : Visit, "integer overflow" ∈ (v.finding.diagnostic source).advice ↔
      ∃ t ∈ v.term.terms, Visit.overflows ⟨v.env, t⟩ = true := by
  refine ⟨?_, fun v hv => Analysis.mem_terms_of_mem_demands hv, fun v => ?_⟩
  · rw [run_eq, Analysis.report, Config.filter_delivered_of_code _ _ _ (by decide),
      Analysis.findings_constants h, List.map_map]
    rfl
  · rw [v.mem_advice_finding, Visit.hasOverflow_iff]

/-! The text `int big = 2147483647 + 1; main int n; string[n] s;` has a constant that overflows, and
after it a length that is a variable. -/

def largestLiteral : Syntax.Expr := ⟨⟨0⟩, ⟨10, 10⟩, .literal (.integer 2147483647)⟩

def oneLiteral : Syntax.Expr := ⟨⟨1⟩, ⟨23, 1⟩, .literal (.integer 1)⟩

def tooLarge : Syntax.Expr :=
  ⟨⟨2⟩, ⟨10, 14⟩, .binary ⟨⟨21, 1⟩, .add⟩ largestLiteral oneLiteral⟩

def lengthName : Syntax.Lvalue := ⟨⟨3⟩, ⟨45, 1⟩, .name ⟨"n", ⟨45, 1⟩⟩⟩

def variableLength : Syntax.Expr := ⟨⟨3⟩, ⟨45, 1⟩, .lvalue lengthName⟩

def overflowing : Syntax.Algorithm :=
  ⟨⟨0, 50⟩, [],
    [.constant ⟨⟨0, 25⟩, ⟨⟨0, 3⟩, .integer⟩, ⟨"big", ⟨4, 3⟩⟩, .expr tooLarge⟩,
    .main ⟨26, 24⟩
      [.locals ⟨⟨31, 6⟩, ⟨⟨31, 3⟩, .integer⟩, [⟨"n", ⟨35, 1⟩⟩], none⟩,
      .locals ⟨⟨38, 12⟩, ⟨⟨38, 9⟩, .boundedString variableLength⟩, [⟨"s", ⟨48, 1⟩⟩], none⟩]]⟩

theorem tidy_overflowing : Tidy overflowing.terms := by
  have hnil : Tidy [] := ⟨by simp, by simp, .nil⟩
  have hlargest : Tidy (Term.expr largestLiteral).terms := .self hnil (by decide) (by decide)
  have hone : Tidy (Term.expr oneLiteral).terms := .self hnil (by decide) (by decide)
  have hsum : Tidy (Term.expr tooLarge).terms :=
    .self (hlargest.append hone (by decide)) (by decide) (by decide)
  have hname : Tidy (Term.lvalue lengthName).terms := .self hnil (by decide) (by decide)
  have hlength : Tidy (Term.expr variableLength).terms := .self hname (by decide) (by decide)
  exact hsum.append hlength (by decide)

theorem unrelated_overflow_is_not_blamed :
    Tidy overflowing.terms ∧
    (run .default none overflowing).sink.delivered.filter
        (·.code = .constantExpressionExpected) =
      [⟨.constantExpressionExpected, "constant expression expected", ["integer overflow"],
        ⟨10, 14⟩⟩,
        ⟨.constantExpressionExpected, "constant expression expected", [], ⟨45, 1⟩⟩] := by
  refine ⟨tidy_overflowing, ?_⟩
  obtain ⟨hdelivered, -, -⟩ := overflow_advice_is_exact .default none overflowing tidy_overflowing
  exact hdelivered

end Session

end Pseudocode
