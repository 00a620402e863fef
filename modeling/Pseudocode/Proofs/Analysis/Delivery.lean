import Pseudocode.Proofs.Analysis.Session
import Pseudocode.Proofs.Analysis.Soundness

/-!
# Configurations only filter

What a session delivers under a configuration can be told from what it delivers under the default
one: each diagnostic is kept or dropped by its code and its message. Nothing else depends on the
configuration.
-/

namespace Pseudocode

namespace Config

/-- The diagnostic is one that a session with this configuration delivers. -/
def passes (c : Config) (d : Diagnostic) : Bool :=
  !c.suppressed.contains d.code &&
    match d.code with
    | .unofficialFeature =>
      c.unofficialFeatures &&
        (c.scalarInitializers ||
          d.message != "language feature 'scalar initializers' is not official")
    | .evaluateExpression | .evaluateType => c.debug
    | _ => true

/-- The text tells the feature. -/
theorem message_unofficial (source : Option String) (feature : Feature) :
    ((Cause.unofficial feature).message source !=
      "language feature 'scalar initializers' is not official") =
      (feature != .scalarInitializers) := by
  cases feature <;> rfl

/-- The diagnostic of a finding tells all that the configuration asks about the finding. -/
theorem passes_diagnostic (c : Config) (source : Option String) (f : Finding) :
    c.passes (f.diagnostic source) =
      (!c.suppressed.contains (f.diagnostic source).code && c.wants f) := by
  obtain ⟨cause, span⟩ := f
  unfold passes
  congr 1
  cases cause with
  | unofficial feature =>
    change (c.unofficialFeatures && (c.scalarInitializers ||
      (Cause.unofficial feature).message source != _)) = _
    rw [message_unofficial]
    cases feature <;> simp [wants]
  | unbindable error => cases error <;> rfl
  | _ => rfl

theorem delivered_deliver (c : Config) (source : Option String) (findings : List Finding) :
    (c.deliver source findings).delivered =
      (findings.map (Finding.diagnostic source)).filter c.passes := by
  rw [deliver, Sink.delivered_reportAll]
  change [] ++ _ = _
  rw [List.nil_append, List.filter_map, List.filter_map, List.filter_filter]
  congr 1
  refine List.filter_congr fun f _ => ?_
  exact (passes_diagnostic c source f).symm

/-- The findings that are delivered do not depend on the source text. -/
theorem delivered_eq_map (c : Config) (source : Option String) (findings : List Finding) :
    (c.deliver source findings).delivered =
      (findings.filter fun f => !c.suppressed.contains f.cause.code && c.wants f).map
        (Finding.diagnostic source) := by
  rw [delivered_deliver, List.filter_map]
  refine congrArg (List.map _) (List.filter_congr fun f _ => ?_)
  exact passes_diagnostic c source f

/-- Only findings of three codes may be left out. -/
theorem wants_of_code {c : Config} {f : Finding}
    (h : f.cause.code ∉ [Code.unofficialFeature, .evaluateExpression, .evaluateType]) :
    c.wants f = true := by
  obtain ⟨cause, span⟩ := f
  cases cause with
  | unofficial | shownValue | shownType => exact absurd (by simp [Cause.code]) h
  | _ => rfl

/-- The diagnostics of a code under which all findings are wanted. -/
theorem filter_delivered_of_code (c : Config) (source : Option String) (findings : List Finding)
    {code : Code} (h : code ∉ [Code.unofficialFeature, .evaluateExpression, .evaluateType]) :
    (c.deliver source findings).delivered.filter (·.code = code) =
      if code ∈ c.suppressed then []
      else (findings.filter (·.cause.code = code)).map (Finding.diagnostic source) := by
  rw [delivered_eq_map, List.filter_map, List.filter_filter]
  split
  · rename_i hsuppressed
    refine List.map_eq_nil_iff.mpr (List.filter_eq_nil_iff.mpr fun f _ => ?_)
    by_cases hcode : f.cause.code = code
    · simp [hcode, hsuppressed]
    · simp [Finding.diagnostic, hcode]
  · rename_i hsuppressed
    refine congrArg (List.map _) (List.filter_congr fun f _ => ?_)
    by_cases hcode : f.cause.code = code
    · simp [Finding.diagnostic, hcode, hsuppressed, wants_of_code (hcode ▸ h)]
    · simp [Finding.diagnostic, hcode]

end Config

namespace Session

/-- **A configuration has no influence but on what is delivered.** -/
theorem config_only_filters (c : Config) (source : Option String) (a : Syntax.Algorithm) :
    (run c source a).tree = (run .default source a).tree ∧
    (run c source a).scopes = (run .default source a).scopes ∧
    (run c source a).types = (run .default source a).types ∧
    (run c source a).sink.delivered = (run .default source a).sink.delivered.filter c.passes ∧
    (run c source a).sink.counts = .of (run c source a).sink.delivered := by
  rw [run_eq, run_eq]
  refine ⟨rfl, rfl, rfl, ?_, ?_⟩
  · rw [Analysis.delivered_default, Analysis.report, Config.delivered_deliver]
  · exact Sink.counts_reportAll rfl _

end Session

end Pseudocode
