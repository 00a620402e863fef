import Mathlib.Data.List.Forall2
import Pseudocode.Proofs.Analysis.Lifecycle
import Pseudocode.Proofs.Identity.Renaming

/-!
# What an analysis does not depend on

The identities of nodes serve as keys of the inferred types, and the source text is there to be
quoted. Neither has any other part in the outcome of an analysis.
-/

namespace Pseudocode

/-! ### Quotations -/

namespace Text

/-- In `text` stands `quoted` at `span`, whose ends are ends of characters. -/
def Quotes (text : String) (span : Span) (quoted : String) : Prop :=
  ∃ before after : String, text = before ++ quoted ++ after ∧
    before.utf8ByteSize = span.offset ∧ quoted.utf8ByteSize = span.length

/-- The number of bytes of characters. -/
def byteSize (cs : List Char) : Nat := (String.ofList cs).utf8ByteSize

theorem byteSize_nil : byteSize [] = 0 := rfl

theorem byteSize_cons (c : Char) (cs : List Char) :
    byteSize (c :: cs) = c.utf8Size + byteSize cs := by
  simp [byteSize]

theorem exists_utf8Size_add_eq_succ (c : Char) (n : Nat) : ∃ k, c.utf8Size + n = k + 1 := by
  have hpos := c.utf8Size_pos
  exact ⟨c.utf8Size + n - 1, by omega⟩

theorem dropBytes_append (front rest : List Char) :
    dropBytes (byteSize front) (front ++ rest) = some rest := by
  induction front with
  | nil => rw [byteSize_nil, List.nil_append, dropBytes]
  | cons c front ih =>
    obtain ⟨k, hk⟩ := exists_utf8Size_add_eq_succ c (byteSize front)
    rw [byteSize_cons, List.cons_append, hk, dropBytes, if_pos (by omega), ← hk,
      Nat.add_sub_cancel_left, ih]

theorem takeBytes_append (front rest : List Char) :
    takeBytes (byteSize front) (front ++ rest) = some front := by
  induction front with
  | nil => rw [byteSize_nil, List.nil_append, takeBytes]
  | cons c front ih =>
    obtain ⟨k, hk⟩ := exists_utf8Size_add_eq_succ c (byteSize front)
    rw [byteSize_cons, List.cons_append, hk, takeBytes, if_pos (by omega), ← hk,
      Nat.add_sub_cancel_left, ih, Option.map_some]

theorem exists_of_dropBytes {n : Nat} {cs rest : List Char} (h : dropBytes n cs = some rest) :
    ∃ front, cs = front ++ rest ∧ byteSize front = n := by
  fun_induction dropBytes n cs with
  | case1 cs =>
    cases h
    exact ⟨[], rfl, rfl⟩
  | case2 | case4 => cases h
  | case3 n c cs hfits ih =>
    obtain ⟨front, rfl, hsize⟩ := ih h
    exact ⟨c :: front, rfl, by rw [byteSize_cons, hsize, Nat.add_sub_cancel' hfits]⟩

theorem exists_of_takeBytes {n : Nat} {cs front : List Char} (h : takeBytes n cs = some front) :
    byteSize front = n ∧ ∃ rest, cs = front ++ rest := by
  fun_induction takeBytes n cs generalizing front with
  | case1 cs =>
    cases h
    exact ⟨rfl, cs, rfl⟩
  | case2 | case4 => cases h
  | case3 n c cs hfits ih =>
    obtain ⟨front, hfront, rfl⟩ := Option.map_eq_some_iff.mp h
    obtain ⟨hsize, rest, rfl⟩ := ih hfront
    exact ⟨by rw [byteSize_cons, hsize, Nat.add_sub_cancel' hfits], rest, rfl⟩

theorem byteSize_toList (s : String) : byteSize s.toList = s.utf8ByteSize := by
  rw [byteSize, String.ofList_toList]

/-- The bytes of a span can be taken out of a text just if its ends are ends of characters. -/
theorem slice?_eq_some_iff {text quoted : String} {span : Span} :
    slice? text span.offset span.length = some quoted ↔ Quotes text span quoted := by
  constructor
  · intro h
    obtain ⟨front, hfront, rfl⟩ := Option.map_eq_some_iff.mp h
    obtain ⟨middle, hdrop, htake⟩ := Option.bind_eq_some_iff.mp hfront
    obtain ⟨before, htext, hbefore⟩ := exists_of_dropBytes hdrop
    obtain ⟨hquoted, after, rfl⟩ := exists_of_takeBytes htake
    refine ⟨String.ofList before, String.ofList after, ?_, hbefore, hquoted⟩
    rw [← String.toList_inj, htext]
    simp
  · rintro ⟨before, after, rfl, hbefore, hquoted⟩
    rw [← byteSize_toList] at hbefore hquoted
    rw [slice?, String.toList_append, String.toList_append, List.append_assoc, ← hbefore,
      dropBytes_append, ← hquoted, Option.bind_some, takeBytes_append, Option.map_some,
      String.ofList_toList]

end Text

/-! ### Inferred types -/

namespace InferredTypes

variable {r : Syntax.NodeId → Syntax.NodeId}

/-- The types under other identities. Of nodes that come to have the same one, the first counts. -/
def renamed (r : Syntax.NodeId → Syntax.NodeId) (t : InferredTypes) : InferredTypes :=
  ⟨t.records.map fun record => (r record.1, record.2)⟩

theorem get?_renamed (hr : Function.Injective r) (t : InferredTypes) (id : Syntax.NodeId) :
    (t.renamed r).get? (r id) = t.get? id := by
  obtain ⟨records⟩ := t
  change (records.map fun record => (r record.1, record.2)).lookup (r id) = records.lookup id
  induction records with
  | nil => rfl
  | cons record rest ih =>
    obtain ⟨id', type⟩ := record
    have hkeys : (r id == r id') = (id == id') := by
      rw [Bool.eq_iff_iff, beq_iff_eq, beq_iff_eq, hr.eq_iff]
    rw [List.map_cons, List.lookup_cons, List.lookup_cons, hkeys, ih]

/-- Under other identities that stay apart, the map is the same with its keys renamed. -/
theorem get?_renamed_eq_some_iff (hr : Function.Injective r) (t : InferredTypes)
    (id : Syntax.NodeId) (type : Ty) :
    (t.renamed r).get? id = some type ↔ ∃ id', r id' = id ∧ t.get? id' = some type := by
  constructor
  · intro h
    obtain ⟨⟨id', type'⟩, -, hrecord⟩ := List.mem_map.mp (mem_of_lookup h)
    obtain ⟨rfl, rfl⟩ := Prod.mk.inj hrecord
    exact ⟨id', rfl, (get?_renamed hr t id').symm.trans h⟩
  · rintro ⟨id', rfl, h⟩
    exact (get?_renamed hr t id').trans h

end InferredTypes

namespace Event

variable (r : Syntax.NodeId → Syntax.NodeId)

theorem findings_map_renamed (overflows : List Span) (es : List Event) :
    findings overflows (es.map (renamed r)) = findings overflows es := by
  fun_induction findings overflows es with
  | case1 => rfl
  | case2 overflows finding rest ih => exact congrArg (finding :: ·) ih
  | case3 overflows span rest ih => exact congrArg (_ :: ·) ih
  | case4 overflows span rest ih => exact ih
  | case5 overflows id type rest ih => exact ih

theorem types_map_renamed (es : List Event) :
    types (es.map (renamed r)) = (types es).map fun record => (r record.1, record.2) := by
  induction es with
  | nil => rfl
  | cons e rest ih =>
    cases e with
    | found | notConstant | overflow => exact ih
    | typed id type => exact congrArg ((r id, type) :: ·) ih

end Event

/-- The analysis of a renamed program, but for the identities that the types are filed under. -/
theorem analyze_renamed (r : Syntax.NodeId → Syntax.NodeId) (a : Syntax.Algorithm) :
    analyze (a.renamed r) = { analyze a with types := (analyze a).types.renamed r } := by
  obtain ⟨hresult, hevents⟩ := Analysis.renames_algorithm (r := r) a .initial
  unfold analyze
  dsimp only [StateT.run]
  rw [hresult, hevents, Event.findings_map_renamed, Event.types_map_renamed]
  rfl

/-! ### Signatures that differ -/

namespace ScopeTable

variable {t : ScopeTable} {id : ScopeId} {c : Callable} {name : String} {kind : CallableKind}
  {previous : Span}

theorem exists_of_declareCallable_mismatch
    (h : t.declareCallable id c = .error (.signatureMismatch name kind previous)) :
    ∃ earlier, t.local? id name = some (.callable earlier) ∧ earlier.span = previous := by
  unfold declareCallable at h
  split at h
  · cases h
  · rename_i existing hlocal
    split at h
    · cases h
    · cases h
      exact ⟨existing, hlocal, rfl⟩
  · cases h

theorem exists_of_defineCallable_mismatch
    (h : t.defineCallable id c = .error (.signatureMismatch name kind previous)) :
    ∃ earlier, t.local? id name = some (.callable earlier) ∧ earlier.span = previous := by
  unfold defineCallable at h
  split at h
  · cases h
  · rename_i existing hlocal
    split at h
    · cases h
    · split at h
      · cases h
      · cases h
        exact ⟨existing, hlocal, rfl⟩
  · cases h

end ScopeTable

namespace Analysis

theorem refusals_analyze (a : Syntax.Algorithm) :
    (analyze a).findings.filter (·.cause.refusesCallable) =
      (history false a.decls .initial).filterMap Moment.refusal? := by
  let leading := directives ⟨.initial, ScopeTable.root⟩ a.leading
  have hleading : leading.Silent Event.refusal? :=
    ((bounded_directives _ a.leading).mono (Nat.zero_le 2)).refusals
  have hmissing (ss : List Semantic.Signature) :
      (ss.map missing).filter (·.cause.refusesCallable) = [] := by
    refine List.filter_eq_nil_iff.mpr fun f hf => ?_
    obtain ⟨s, -, rfl⟩ := List.mem_map.mp hf
    exact Bool.false_ne_true
  rw [findings_analyze, List.filter_append, hmissing, List.append_nil,
    Event.findings_filter fun _ => rfl]
  change (do let _ ← leading; decls false ScopeTable.root a.decls .initial).pick Event.refusal? = _
  rw [Traced.pick_bind, hleading, List.nil_append]
  exact refusals_decls false a.decls .initial

/-- A callable that a declaration finds in the root scope is there to the end. -/
theorem callable_of_mem_history {a : Syntax.Algorithm} {m : Moment}
    (hm : m ∈ history false a.decls .initial) {name : String} {c : Callable}
    (h : m.table.local? ScopeTable.root name = some (.callable c)) :
    ∃ c', (analyze a).scopes.local? ScopeTable.root name = some (.callable c') ∧
      c'.span = c.span := by
  obtain ⟨before, after, hsplit⟩ := List.append_of_mem hm
  have hroot : ScopeTable.root < ScopeTable.initial.size := Nat.one_pos
  have hmoment := symbols_history hroot hsplit
  have hscopes : (analyze a).scopes = (decls false ScopeTable.root a.decls .initial).result.2 := by
    change (algorithm a .initial).result.2 = _
    rw [algorithm_eq]
  have hend : (analyze a).scopes.symbols ScopeTable.root =
      ((m :: after).map Moment.decl).foldl bindDecl (m.table.symbols ScopeTable.root) := by
    rw [hscopes, symbols_decls false a.decls hroot, ← map_decl_history, hsplit, List.map_append,
      List.foldl_append, ← hmoment]
  have hfind := find?_foldl_bindDecl h ((m :: after).map Moment.decl)
  rw [← hend] at hfind
  refine ⟨_, hfind, ?_⟩
  split <;> rfl

/-- When a signature differs from an earlier one, the earlier one is that of the callable which the
root scope has under the name. -/
theorem exists_of_mismatch {a : Syntax.Algorithm} {name : String} {kind : CallableKind}
    {previous span : Span}
    (h : ⟨.unbindable (.signatureMismatch name kind previous), span⟩ ∈ (analyze a).findings) :
    ∃ earlier, (analyze a).scopes.local? ScopeTable.root name = some (.callable earlier) ∧
      earlier.span = previous := by
  have hrefusal : _ ∈ (analyze a).findings.filter (·.cause.refusesCallable) :=
    List.mem_filter.mpr ⟨h, rfl⟩
  rw [refusals_analyze] at hrefusal
  obtain ⟨m, hm, hm'⟩ := List.mem_filterMap.mp hrefusal
  have hlocal : ∃ earlier, m.table.local? ScopeTable.root name = some (.callable earlier) ∧
      earlier.span = previous := by
    obtain ⟨t, d⟩ := m
    cases d with
    | forward site s =>
      simp only [Moment.refusal?, Moment.outcome, Semantic.Decl.bindIn] at hm'
      split at hm'
      · cases hm'
      · cases hm'
        exact ScopeTable.exists_of_declareCallable_mismatch ‹_›
    | definition site s body =>
      simp only [Moment.refusal?, Moment.outcome, Semantic.Decl.bindIn] at hm'
      split at hm'
      · cases hm'
      · cases hm'
        exact ScopeTable.exists_of_defineCallable_mismatch ‹_›
    | constant | typeAlias | main | directive => cases hm'
  obtain ⟨c, hc, hspan⟩ := hlocal
  obtain ⟨earlier, hearlier, hsame⟩ := callable_of_mem_history hm hc
  exact ⟨earlier, hearlier, hsame.trans hspan⟩

end Analysis

/-! ### Diagnostics with a text at hand -/

/-- The diagnostic `d'` is what becomes of `d` if `text` is at hand. The only message to change is
that about a signature which differs from an earlier one: it quotes the signature of the callable in
the root scope, just if that stands in the text. -/
structure Diagnostic.Illustrates (text : String) (scopes : ScopeTable) (d d' : Diagnostic) :
    Prop where
  code_eq : d'.code = d.code
  advice_eq : d'.advice = d.advice
  span_eq : d'.span = d.span
  message_eq : d.code ≠ .signatureMismatch → d'.message = d.message
  mismatch : d.code = .signatureMismatch → ∃ name kind earlier,
    scopes.local? ScopeTable.root name = some (.callable earlier) ∧
    d.message = (DeclareError.signatureMismatch name kind earlier.span).message ∧
    (∀ quoted, Text.Quotes text earlier.span quoted →
      d'.message = s!"{d.message} (`{quoted}`)") ∧
    ((∀ quoted, ¬ Text.Quotes text earlier.span quoted) → d'.message = d.message)

theorem Cause.message_of_code_ne {cause : Cause} (h : cause.code ≠ .signatureMismatch)
    (source : Option String) : cause.message source = cause.message none := by
  cases cause with
  | unbindable error =>
    cases error with
    | redefined => rfl
    | signatureMismatch => exact absurd rfl h
  | missingComponent owner name => cases owner <;> rfl
  | assertionFailed message => cases message <;> rfl
  | _ => rfl

theorem Cause.eq_of_code_mismatch {cause : Cause} (h : cause.code = .signatureMismatch) :
    ∃ name kind previous, cause = .unbindable (.signatureMismatch name kind previous) := by
  cases cause with
  | unbindable error =>
    cases error with
    | redefined => cases h
    | signatureMismatch name kind previous => exact ⟨name, kind, previous, rfl⟩
  | _ => cases h

theorem Cause.message_unbindable (source : Option String) (error : DeclareError) :
    (Cause.unbindable error).message source = unbindableMessage source error := rfl

section Mismatch

variable {text quoted name : String} {kind : CallableKind} {previous : Span}

theorem Cause.message_mismatch_of_quotes (h : Text.Quotes text previous quoted) :
    (Cause.unbindable (.signatureMismatch name kind previous)).message (some text) =
      s!"{(DeclareError.signatureMismatch name kind previous).message} (`{quoted}`)" := by
  rw [message_unbindable, unbindableMessage, quotation?, Option.bind_some,
    Text.slice?_eq_some_iff.mpr h]

theorem Cause.message_mismatch_of_not_quotes (h : ∀ quoted, ¬ Text.Quotes text previous quoted) :
    (Cause.unbindable (.signatureMismatch name kind previous)).message (some text) =
      (DeclareError.signatureMismatch name kind previous).message := by
  have hslice : Text.slice? text previous.offset previous.length = none := by
    rw [Option.eq_none_iff_forall_ne_some]
    exact fun quoted hquoted => h quoted (Text.slice?_eq_some_iff.mp hquoted)
  rw [message_unbindable, unbindableMessage, quotation?, Option.bind_some, hslice]

end Mismatch

theorem Analysis.illustrates_diagnostic {a : Syntax.Algorithm} {f : Finding}
    (h : f ∈ (analyze a).findings) (text : String) :
    (f.diagnostic none).Illustrates text (analyze a).scopes (f.diagnostic (some text)) where
  code_eq := rfl
  advice_eq := rfl
  span_eq := rfl
  message_eq hcode := Cause.message_of_code_ne hcode (some text)
  mismatch hcode := by
    obtain ⟨cause, span⟩ := f
    obtain ⟨name, kind, previous, rfl⟩ := Cause.eq_of_code_mismatch hcode
    obtain ⟨earlier, hlocal, rfl⟩ := exists_of_mismatch h
    exact ⟨name, kind, earlier, hlocal, rfl, fun _ => Cause.message_mismatch_of_quotes,
      Cause.message_mismatch_of_not_quotes⟩

namespace Config

theorem counts_deliver (c : Config) (source source' : Option String) (findings : List Finding) :
    (c.deliver source findings).counts = (c.deliver source' findings).counts := by
  have hcounts (s : Option String) : (c.deliver s findings).counts =
      .of (c.deliver s findings).delivered := Sink.counts_reportAll rfl _
  rw [hcounts, hcounts, delivered_eq_map, delivered_eq_map]
  simp only [SeverityCounts.of, List.countP_map]
  rfl

end Config

namespace Session

/-- **Neither the identities of nodes nor the source text matter.** With other identities, be they
distinct or not, the outcome is the same, and the types are filed under the new identities. With a
source text, the outcome is the same but for signatures that messages quote from it. -/
theorem identity_and_text_are_irrelevant (config : Config) (source : Option String) (text : String)
    (a : Syntax.Algorithm) (r : Syntax.NodeId → Syntax.NodeId) :
    let given := run config source a
    let renamed := run config source (a.renamed r)
    let plain := run config none a
    let quoting := run config (some text) a
    (renamed.tree = given.tree ∧ renamed.scopes = given.scopes ∧ renamed.sink = given.sink ∧
      renamed.types = given.types.renamed r ∧
      (Function.Injective r → ∀ id type, renamed.types.get? id = some type ↔
        ∃ id', r id' = id ∧ given.types.get? id' = some type)) ∧
    (quoting.tree = plain.tree ∧ quoting.scopes = plain.scopes ∧ quoting.types = plain.types ∧
      quoting.sink.counts = plain.sink.counts ∧
      List.Forall₂ (Diagnostic.Illustrates text plain.scopes) plain.sink.delivered
        quoting.sink.delivered) := by
  rw [run_eq config source a, run_eq config source (a.renamed r), run_eq config none a,
    run_eq config (some text) a, analyze_renamed]
  refine ⟨⟨rfl, rfl, rfl, rfl, ?_⟩, rfl, rfl, rfl, ?_, ?_⟩
  · exact fun hr id type => (analyze a).types.get?_renamed_eq_some_iff hr id type
  · exact config.counts_deliver (some text) none (analyze a).findings
  · rw [Analysis.report, Analysis.report, Config.delivered_eq_map, Config.delivered_eq_map,
      List.forall₂_map_left_iff, List.forall₂_map_right_iff, List.forall₂_same]
    exact fun f hf => Analysis.illustrates_diagnostic (List.mem_filter.mp hf).1 text

/-- Moves each identity up by one. -/
def shifted (id : Syntax.NodeId) : Syntax.NodeId := ⟨id.index + 1⟩

open Syntax (nowhere)

/-- A main program that prints a number. -/
def printing : Syntax.Algorithm :=
  ⟨nowhere, [], [.main nowhere [.routine nowhere (.print [.ofInteger 7])]]⟩

/-- The number keeps its type under its new identity. -/
theorem typed_under_shifted_identity : Function.Injective shifted ∧
    (run .default none (printing.renamed shifted)).types.get? ⟨1⟩ = some .integer := by
  have hinjective : Function.Injective shifted := by
    rintro ⟨i⟩ ⟨j⟩ h
    simpa [shifted] using h
  have hprinted : (run .default none printing).types.get? ⟨0⟩ = some .integer := rfl
  obtain ⟨⟨-, -, -, -, htypes⟩, -⟩ :=
    identity_and_text_are_irrelevant .default none "" printing shifted
  exact ⟨hinjective, (htypes hinjective ⟨1⟩ .integer).mpr ⟨⟨0⟩, rfl, hprinted⟩⟩

end Session

end Pseudocode
