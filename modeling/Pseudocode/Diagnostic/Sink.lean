import Pseudocode.Diagnostic.Code
import Pseudocode.Span

/-!
# Diagnostics and where they go
-/

namespace Pseudocode

structure Diagnostic where
  code : Code
  message : String
  advice : List String
  span : Span
deriving DecidableEq

namespace Diagnostic

def severity (d : Diagnostic) : Severity := d.code.severity

/-- The name under which a renderer shows the rule that was broken. -/
def rule (d : Diagnostic) : String := "psdc::" ++ d.code.name

/-- The level at which a renderer shows the diagnostic: hints and debug messages are advice. -/
def level (d : Diagnostic) : String :=
  match d.severity with
  | .error => "error"
  | .warning => "warning"
  | .hint | .debug => "advice"

/-- The advice as one text, a line for each. -/
def help? (d : Diagnostic) : Option String :=
  if d.advice.isEmpty then none else some ("\n".intercalate d.advice)

end Diagnostic

/-- How many diagnostics there are of each severity. -/
structure SeverityCounts where
  errors : Nat
  warnings : Nat
  hints : Nat
  debug : Nat
deriving DecidableEq

namespace SeverityCounts

def zero : SeverityCounts := ⟨0, 0, 0, 0⟩

def add (c : SeverityCounts) : Severity → SeverityCounts
  | .error => { c with errors := c.errors + 1 }
  | .warning => { c with warnings := c.warnings + 1 }
  | .hint => { c with hints := c.hints + 1 }
  | .debug => { c with debug := c.debug + 1 }

/-- The counts of a list of diagnostics. -/
def of (ds : List Diagnostic) : SeverityCounts :=
  let count (s : Severity) := ds.countP (·.severity == s)
  ⟨count .error, count .warning, count .hint, count .debug⟩

theorem of_append_singleton (ds : List Diagnostic) (d : Diagnostic) :
    of (ds ++ [d]) = (of ds).add d.severity := by
  cases h : d.severity <;> simp [of, add, List.countP_append, h]

end SeverityCounts

/-- A destination for diagnostics that drops those with a suppressed code and counts the others. -/
structure Sink where
  suppressed : List Code
  delivered : List Diagnostic
  counts : SeverityCounts

namespace Sink

def empty (suppressed : List Code) : Sink := ⟨suppressed, [], .zero⟩

def report (s : Sink) (d : Diagnostic) : Sink :=
  if s.suppressed.contains d.code then s
  else { s with delivered := s.delivered ++ [d], counts := s.counts.add d.severity }

def reportAll (s : Sink) (ds : List Diagnostic) : Sink := ds.foldl report s

theorem suppressed_reportAll (s : Sink) (ds : List Diagnostic) :
    (s.reportAll ds).suppressed = s.suppressed := by
  induction ds generalizing s with
  | nil => rfl
  | cons d ds ih =>
    rw [reportAll, List.foldl_cons, ← reportAll, ih]
    unfold report
    split <;> rfl

theorem delivered_reportAll (s : Sink) (ds : List Diagnostic) :
    (s.reportAll ds).delivered =
      s.delivered ++ ds.filter fun d => !s.suppressed.contains d.code := by
  induction ds generalizing s with
  | nil => simp [reportAll]
  | cons d ds ih =>
    rw [reportAll, List.foldl_cons, ← reportAll, ih]
    by_cases h : s.suppressed.contains d.code = true
    · have hreport : s.report d = s := by rw [report, if_pos h]
      rw [hreport, List.filter_cons_of_neg (by simpa using h)]
    · have hreport : s.report d =
          { s with delivered := s.delivered ++ [d], counts := s.counts.add d.severity } := by
        rw [report, if_neg h]
      rw [hreport, List.filter_cons_of_pos (by simpa using h)]
      simp

theorem counts_reportAll {s : Sink} (hs : s.counts = .of s.delivered) (ds : List Diagnostic) :
    (s.reportAll ds).counts = .of (s.reportAll ds).delivered := by
  induction ds generalizing s with
  | nil => exact hs
  | cons d ds ih =>
    rw [reportAll, List.foldl_cons, ← reportAll]
    apply ih
    unfold report
    split
    · exact hs
    · simp only
      rw [SeverityCounts.of_append_singleton, hs]

end Sink

end Pseudocode
