import Pseudocode.Proofs.Filling.Unplaced

/-!
# Calls and signatures

The arguments of a call are analysed first, then all of them are held against the parameters of the
callee. A call can differ from the signature in the number of arguments and, at each position that
both have, in the mode and in the type. However many differences there are, they make up one report,
which lists them by position.
-/

namespace Pseudocode

open Semantic (Argument)

/-! ### Differences -/

/-- Something that a call and a signature are compared in. -/
inductive CallAspect where
  | count
  | mode (position : Nat)
  | type (position : Nat)

/-- The number of arguments comes first, then the mode and the type at each position. -/
def CallAspect.rank : CallAspect → Nat
  | .count => 0
  | .mode position => 2 * position + 1
  | .type position => 2 * position + 2

namespace Check

/-- The call and the signature differ in the aspect, and this is the problem with it. -/
inductive Differs (formals : List Parameter) (args : List Argument) :
    CallAspect → CallProblem → Prop
  | count (h : formals.length ≠ args.length) :
      Differs formals args .count (.count formals.length args.length)
  | mode {i : Nat} {formal : Parameter} {actual : Argument} (hformal : formals[i]? = some formal)
      (hactual : args[i]? = some actual) (h : formal.mode ≠ actual.mode) :
      Differs formals args (.mode i) (.mode formal.name.text formal.mode actual.mode)
  | type {i : Nat} {formal : Parameter} {actual : Argument} (hformal : formals[i]? = some formal)
      (hactual : args[i]? = some actual)
      (h : actual.value.type.convertible formal.type = false) :
      Differs formals args (.type i) (.type formal.name.text formal.type actual.value.type)

/-- The problems are all that there are, each once, in the order of what they are about. -/
def Lists (formals : List Parameter) (args : List Argument) (problems : List CallProblem) : Prop :=
  ∃ entries : List (CallAspect × CallProblem),
    entries.Pairwise (·.1.rank < ·.1.rank) ∧
    (∀ aspect problem, (aspect, problem) ∈ entries ↔ Differs formals args aspect problem) ∧
    problems = entries.map (·.2)

/-- The call does not correspond to the signature. -/
def Mismatched (formals : List Parameter) (args : List Argument) : Prop :=
  formals.length ≠ args.length ∨
    ∃ (i : Nat) (formal : Parameter) (actual : Argument),
      formals[i]? = some formal ∧ args[i]? = some actual ∧
        (formal.mode ≠ actual.mode ∨ actual.value.type.convertible formal.type = false)

theorem mismatched_iff {formals : List Parameter} {args : List Argument} :
    Mismatched formals args ↔ ∃ aspect problem, Differs formals args aspect problem := by
  constructor
  · rintro (h | ⟨i, formal, actual, hformal, hactual, h | h⟩)
    · exact ⟨_, _, .count h⟩
    · exact ⟨_, _, .mode hformal hactual h⟩
    · exact ⟨_, _, .type hformal hactual h⟩
  · rintro ⟨aspect, problem, hdiffers⟩
    cases hdiffers with
    | count h => exact .inl h
    | mode hformal hactual h => exact .inr ⟨_, _, _, hformal, hactual, .inl h⟩
    | type hformal hactual h => exact .inr ⟨_, _, _, hformal, hactual, .inr h⟩

theorem Lists.eq_nil_iff {formals : List Parameter} {args : List Argument}
    {problems : List CallProblem} (h : Lists formals args problems) :
    problems = [] ↔ ¬ Mismatched formals args := by
  obtain ⟨entries, -, hmem, rfl⟩ := h
  rw [List.map_eq_nil_iff, List.eq_nil_iff_forall_not_mem, mismatched_iff]
  constructor
  · rintro hnone ⟨aspect, problem, hdiffers⟩
    exact hnone _ ((hmem aspect problem).mpr hdiffers)
  · rintro hnone ⟨aspect, problem⟩ hentry
    exact hnone ⟨aspect, problem, (hmem aspect problem).mp hentry⟩

/-! ### The problems of a call -/

section Entries

variable (formals : List Parameter) (args : List Argument)

/-- The problems with the argument at position `i`. -/
def entriesAt (i : Nat) (formal : Parameter) (actual : Argument) :
    List (CallAspect × CallProblem) :=
  (if formal.mode = actual.mode then []
    else [(.mode i, .mode formal.name.text formal.mode actual.mode)]) ++
  (if actual.value.type.convertible formal.type then []
    else [(.type i, .type formal.name.text formal.type actual.value.type)])

def countEntries : List (CallAspect × CallProblem) :=
  if formals.length = args.length then [] else [(.count, .count formals.length args.length)]

def argumentEntries : List (CallAspect × CallProblem) :=
  (formals.zip args).zipIdx.flatMap fun x => entriesAt x.2 x.1.1 x.1.2

theorem map_snd_entriesAt (i : Nat) (formal : Parameter) (actual : Argument) :
    (entriesAt i formal actual).map (·.2) = argumentProblems formal actual := by
  rw [entriesAt, argumentProblems, List.map_append]
  congr 1 <;> split <;> rfl

theorem callProblems_eq :
    callProblems formals args = (countEntries formals args ++ argumentEntries formals args).map
      (·.2) := by
  have hpositions : (argumentEntries formals args).map (·.2) =
      ((formals.zip args).zipIdx.map Prod.fst).flatMap fun x => argumentProblems x.1 x.2 := by
    rw [argumentEntries, List.map_flatMap, List.flatMap_map]
    simp only [map_snd_entriesAt]
  rw [List.map_append, hpositions, List.zipIdx_map_fst, countEntries, callProblems]
  congr 1
  split <;> rfl

variable {formals args}

theorem mem_countEntries {x : CallAspect × CallProblem} :
    x ∈ countEntries formals args ↔
      formals.length ≠ args.length ∧ x = (.count, .count formals.length args.length) := by
  unfold countEntries
  split <;> rename_i h <;> simp [h]

theorem mem_entriesAt {i : Nat} {formal : Parameter} {actual : Argument}
    {x : CallAspect × CallProblem} :
    x ∈ entriesAt i formal actual ↔
      (formal.mode ≠ actual.mode ∧
        x = (.mode i, .mode formal.name.text formal.mode actual.mode)) ∨
      (actual.value.type.convertible formal.type = false ∧
        x = (.type i, .type formal.name.text formal.type actual.value.type)) := by
  rw [entriesAt, List.mem_append]
  apply or_congr <;> split <;> rename_i h <;> simp [h]

theorem rank_of_mem_entriesAt {i : Nat} {formal : Parameter} {actual : Argument}
    {x : CallAspect × CallProblem} (h : x ∈ entriesAt i formal actual) :
    2 * i < x.1.rank ∧ x.1.rank ≤ 2 * i + 2 := by
  obtain ⟨-, rfl⟩ | ⟨-, rfl⟩ := mem_entriesAt.mp h <;> simp only [CallAspect.rank] <;> omega

theorem pairwise_entriesAt (i : Nat) (formal : Parameter) (actual : Argument) :
    (entriesAt i formal actual).Pairwise (·.1.rank < ·.1.rank) := by
  unfold entriesAt
  split <;> split <;> simp [CallAspect.rank]

theorem pairwise_argumentEntries :
    (argumentEntries formals args).Pairwise (·.1.rank < ·.1.rank) := by
  rw [argumentEntries, List.pairwise_flatMap]
  refine ⟨fun x _ => pairwise_entriesAt .., ?_⟩
  have hpositions : (formals.zip args).zipIdx.Pairwise (·.2 < ·.2) := by
    rw [← List.pairwise_map (f := Prod.snd) (R := (· < ·)), List.zipIdx_map_snd]
    exact List.pairwise_lt_range' 1
  -- The ranks at a position end where those at the next one begin.
  refine hpositions.imp fun hlt x hx y hy => ?_
  have hx := (rank_of_mem_entriesAt hx).2
  have hy := (rank_of_mem_entriesAt hy).1
  omega

theorem pairwise_entries :
    (countEntries formals args ++ argumentEntries formals args).Pairwise
      (·.1.rank < ·.1.rank) := by
  refine List.pairwise_append.mpr ⟨?_, pairwise_argumentEntries, fun x hx y hy => ?_⟩
  · unfold countEntries
    split <;> simp
  · have hzero : x.1.rank = 0 := by
      rw [(mem_countEntries.mp hx).2]
      rfl
    obtain ⟨z, -, hy⟩ := List.mem_flatMap.mp hy
    have hpos := (rank_of_mem_entriesAt hy).1
    omega

theorem mem_argumentEntries {x : CallAspect × CallProblem} :
    x ∈ argumentEntries formals args ↔
      ∃ (i : Nat) (formal : Parameter) (actual : Argument),
        formals[i]? = some formal ∧ args[i]? = some actual ∧ x ∈ entriesAt i formal actual := by
  simp only [argumentEntries, List.mem_flatMap]
  constructor
  · rintro ⟨⟨⟨formal, actual⟩, i⟩, hposition, hx⟩
    rw [List.mk_mem_zipIdx_iff_getElem?, List.getElem?_zip_eq_some] at hposition
    exact ⟨i, formal, actual, hposition.1, hposition.2, hx⟩
  · rintro ⟨i, formal, actual, hformal, hactual, hx⟩
    refine ⟨((formal, actual), i), ?_, hx⟩
    rw [List.mk_mem_zipIdx_iff_getElem?, List.getElem?_zip_eq_some]
    exact ⟨hformal, hactual⟩

theorem mem_entries (aspect : CallAspect) (problem : CallProblem) :
    (aspect, problem) ∈ countEntries formals args ++ argumentEntries formals args ↔
      Differs formals args aspect problem := by
  simp only [List.mem_append, mem_countEntries, mem_argumentEntries, mem_entriesAt]
  constructor
  · rintro (⟨h, heq⟩ | ⟨i, formal, actual, hformal, hactual, ⟨h, heq⟩ | ⟨h, heq⟩⟩) <;> cases heq
    · exact .count h
    · exact .mode hformal hactual h
    · exact .type hformal hactual h
  · intro h
    cases h with
    | count h => exact .inl ⟨h, rfl⟩
    | mode hformal hactual h => exact .inr ⟨_, _, _, hformal, hactual, .inl ⟨h, rfl⟩⟩
    | type hformal hactual h => exact .inr ⟨_, _, _, hformal, hactual, .inr ⟨h, rfl⟩⟩

end Entries

/-- Nothing is left out of the problems of a call, and nothing is listed twice. -/
theorem lists_callProblems (formals : List Parameter) (args : List Argument) :
    Lists formals args (callProblems formals args) :=
  ⟨_, pairwise_entries, mem_entries, callProblems_eq formals args⟩

end Check

namespace Analysis

open Event (diagnostics diagnostics_append)

/-! ### The analysis of a call -/

/-- An argument of a call, analysed. -/
def argument (env : Env) (a : Syntax.Argument) : Argument :=
  ⟨env.site a.span, a.mode, (expr env a.value).result⟩

theorem result_arguments (env : Env) (args : List Syntax.Argument) :
    (arguments env args).result = args.map (argument env) := by
  induction args with
  | nil =>
    rw [arguments]
    rfl
  | cons a rest ih =>
    obtain ⟨span, mode, value⟩ := a
    rw [arguments, List.map_cons, ← ih]
    rfl

theorem events_arguments (env : Env) (args : List Syntax.Argument) :
    (arguments env args).events = args.flatMap fun a => (expr env a.value).events := by
  induction args with
  | nil =>
    rw [arguments]
    rfl
  | cons a rest ih =>
    obtain ⟨span, mode, value⟩ := a
    rw [arguments, List.flatMap_cons, ← ih]
    simp

section Call

variable {env : Env} {callee : Ident} {callable : Callable}
  (h : env.table.lookupCallable env.scope callee.text = .ok callable)

include h

theorem result_check_call (args : List Argument) (span : Span) :
    (Check.call env callee args span).result = .runtime callable.returnType := by
  rw [Check.call, h]
  exact Traced.result_unless_bind ..

theorem events_check_call (args : List Argument) (span : Span) :
    (Check.call env callee args span).events =
      if Check.callProblems callable.parameters args = [] then []
      else [.found ⟨.callMismatch callable.kind callable.name.text
        (Check.callProblems callable.parameters args), span⟩] := by
  rw [Check.call, h]
  dsimp only
  split <;> rename_i hproblems <;> rw [List.isEmpty_iff] at hproblems
  · rw [if_pos hproblems]
    rfl
  · rw [if_neg hproblems]
    rfl

theorem result_call (id : Syntax.NodeId) (span : Span) (args : List Syntax.Argument) :
    (expr env ⟨id, span, .call callee args⟩).result.value = .runtime callable.returnType := by
  rw [expr, Traced.result_bind, Traced.result_bind, result_check_call h]
  rfl

theorem diagnostics_call (id : Syntax.NodeId) (span : Span) (args : List Syntax.Argument)
    (source : Option String) (overflows : List Span) :
    diagnostics source overflows (expr env ⟨id, span, .call callee args⟩).events =
      diagnostics source overflows (args.flatMap fun a => (expr env a.value).events) ++
        if Check.callProblems callable.parameters (args.map (argument env)) = [] then []
        else [Finding.diagnostic source ⟨.callMismatch callable.kind callable.name.text
          (Check.callProblems callable.parameters (args.map (argument env))), span⟩] := by
  rw [expr, Traced.events_bind, Traced.events_bind, events_arguments, result_arguments,
    diagnostics_append, events_check_call h]
  split <;> rfl

/-- **A call is held against the signature as a whole.** If the call does not correspond to the
signature of its callee, one report is added to those of its arguments, and it lists what is wrong
with the call, in order and each problem once. If it does, nothing is added. Either way its value is
one of the return type that is decided at run time. -/
theorem mismatched_call_is_reported_once (id : Syntax.NodeId) (span : Span)
    (args : List Syntax.Argument) (source : Option String) (overflows : List Span) :
    let call := expr env ⟨id, span, .call callee args⟩
    let actuals := args.map (argument env)
    let before := diagnostics source overflows (args.flatMap fun a => (expr env a.value).events)
    (Check.Mismatched callable.parameters actuals →
      ∃ d problems, diagnostics source overflows call.events = before ++ [d] ∧
        d.code = .callParameterMismatch ∧ d.span = span ∧
        d.advice = problems.map CallProblem.text ∧
        Check.Lists callable.parameters actuals problems) ∧
    (¬ Check.Mismatched callable.parameters actuals →
      diagnostics source overflows call.events = before) ∧
    call.result.value = .runtime callable.returnType := by
  intro call actuals before
  have hlists := Check.lists_callProblems callable.parameters actuals
  have hdiagnostics := diagnostics_call h id span args source overflows
  refine ⟨fun hmismatched => ?_, fun hcorresponds => ?_, result_call h id span args⟩
  · have hproblems : Check.callProblems callable.parameters actuals ≠ [] := fun hnil =>
      hlists.eq_nil_iff.mp hnil hmismatched
    rw [if_neg hproblems] at hdiagnostics
    exact ⟨_, _, hdiagnostics, rfl, rfl, rfl, hlists⟩
  · rw [if_pos (hlists.eq_nil_iff.mpr hcorresponds), List.append_nil] at hdiagnostics
    exact hdiagnostics

end Call

open Syntax (nowhere ident)

/-- A procedure that takes an integer and gives back a real. -/
def gauge : Callable :=
  ⟨ident "gauge", nowhere, .procedure,
    [⟨ident "index", .input, .integer⟩, ⟨ident "result", .output, .real⟩], .void, .defined⟩

def gaugeScope : Env :=
  ⟨ScopeTable.initial.bind ScopeTable.root (.callable gauge), ScopeTable.root⟩

/-- The argument `out "one"`. -/
def gaugeArgument : Syntax.Argument := ⟨nowhere, .output, .ofString "one"⟩

/-- In the call `gauge(out "one")` the second argument is missing, and the first one is of the
wrong mode and type. -/
theorem gauge_of_string_is_reported_once :
    let call := expr gaugeScope ⟨⟨0⟩, nowhere, .call (ident "gauge") [gaugeArgument]⟩
    gaugeScope.table.lookupCallable gaugeScope.scope (ident "gauge").text = .ok gauge ∧
    Check.Mismatched gauge.parameters [argument gaugeScope gaugeArgument] ∧
    call.result.value = .runtime .void ∧
    ∃ d, diagnostics none [] call.events = [d] ∧ d.code = .callParameterMismatch ∧
      d.advice =
        ["expected 2 arguments, got 1", "wrong mode for `index`: expected 'entE', got 'sortE'",
          "wrong type for `index`: expected 'entier', got 'chaîne(3)'"] := by
  intro call
  have hlookup :
      gaugeScope.table.lookupCallable gaugeScope.scope (ident "gauge").text = .ok gauge :=
    rfl
  have hmismatched : Check.Mismatched gauge.parameters [argument gaugeScope gaugeArgument] :=
    .inl (by decide)
  obtain ⟨hreported, -, hvalue⟩ :=
    mismatched_call_is_reported_once hlookup ⟨0⟩ nowhere [gaugeArgument] none []
  obtain ⟨d, problems, hd, hcode, -, -, -⟩ := hreported hmismatched
  refine ⟨hlookup, hmismatched, hvalue, d, hd, hcode, ?_⟩
  exact (List.cons.inj (congrArg (List.map (·.advice)) hd)).1.symm

end Analysis

end Pseudocode
