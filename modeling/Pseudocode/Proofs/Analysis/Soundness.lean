import Pseudocode.Proofs.Analysis.Programs
import Pseudocode.Proofs.Value.Typing

/-!
# Programs without errors are sound

An error leaves its mark on what is analysed: an unknown type, an invalid value. Conversely, a mark
is never left without an error: if none is reported, all types of the analysis are resolved, and all
its values are unpoisoned and well typed. The two go together, since an unknown type is the same as
every type and would let a value of any type pass for one of any other.
-/

namespace Pseudocode

/-! ### Errors are delivered -/

theorem Config.wants_default (f : Finding) : Config.default.wants f = true := by
  unfold Config.wants
  split <;> rfl

theorem Analysis.delivered_default (r : Analysis) (source : Option String) :
    (r.report .default source).delivered = r.findings.map (Finding.diagnostic source) := by
  have hwants : r.findings.filter Config.default.wants = r.findings :=
    List.filter_eq_self.mpr fun f _ => Config.wants_default f
  simp only [Analysis.report, Config.deliver, Sink.delivered_reportAll, hwants]
  simp [Sink.empty, Config.default]

/-- Every error of a trace is found. -/
theorem Event.exists_mem_findings_of_isError {e : Event} {events : List Event}
    (overflows : List Span) (he : e ∈ events) (herror : e.IsError) :
    ∃ f ∈ findings overflows events, f.cause.code.isError = true := by
  fun_induction findings overflows events with
  | case1 => cases he
  | case2 overflows finding rest ih =>
    obtain rfl | he := List.mem_cons.mp he
    · exact ⟨finding, List.mem_cons_self, herror⟩
    · obtain ⟨f, hf, hcode⟩ := ih he
      exact ⟨f, List.mem_cons_of_mem _ hf, hcode⟩
  | case3 overflows span rest ih =>
    obtain rfl | he := List.mem_cons.mp he
    · exact ⟨_, List.mem_cons_self, rfl⟩
    · obtain ⟨f, hf, hcode⟩ := ih he
      exact ⟨f, List.mem_cons_of_mem _ hf, hcode⟩
  | case4 overflows span rest ih =>
    obtain rfl | he := List.mem_cons.mp he
    · cases herror
    · exact ih he
  | case5 overflows id type rest ih =>
    obtain rfl | he := List.mem_cons.mp he
    · cases herror
    · exact ih he

/-! ### The invariant -/

theorem Syntax.Literal.sound_value (literal : Syntax.Literal) : literal.value.Sound := by
  cases literal with
  | boolean | character | integer | real | string =>
    refine Value.sound_known (Ty.resolved_of_isAtom rfl) ?_ (by simp [Datum.contents])
    simp [Datum.Fits, Ty.unaliased]

/-- What is kept as long as nothing is wrong. -/
def Invariant.soundness : Invariant where
  excused := False
  type t := t.Resolved ∧ t.Distinct
  value := Value.Sound
  constant := Value.Sound
  aggregate := Value.Sound
  stores v target := v.Sound ∧ v.type.assignable target = true
  recorded := Ty.Resolved
  type_unknown _ h := h.elim
  type_basic h :=
    ⟨Ty.resolved_of_isAtom (Ty.isAtom_of_isBasic h), Ty.distinct_of_isAtom (Ty.isAtom_of_isBasic h)⟩
  type_boundedString _ _ := ⟨Ty.resolved_of_isAtom rfl, Ty.distinct_of_isAtom rfl⟩
  type_array h _ _ := ⟨Ty.resolved_array.mpr h.1, Ty.everywhere_array.mpr ⟨trivial, h.2⟩⟩
  type_struct h hnames :=
    ⟨Ty.resolved_struct.mpr fun c hc => (h c hc).1,
      Ty.everywhere_struct.mpr ⟨hnames, fun c hc => (h c hc).2⟩⟩
  type_aliased _ _ h := ⟨Ty.resolved_aliased.mpr h.1, Ty.everywhere_aliased.mpr ⟨trivial, h.2⟩⟩
  type_slot h hslot := ⟨h.1.slot? hslot, Ty.Everywhere.slot? h.2 hslot⟩
  distinct_of_type h := h.2
  excused_of_type h hunknown := by
    rw [h.1.isUnknown_eq_false] at hunknown
    cases hunknown
  value_constant h := h
  value_literal := Syntax.Literal.sound_value
  value_runtime h := Value.sound_runtime h.1
  value_invalid _ h := h.elim
  value_slot h hslot := h.slot? hslot
  value_runtime_part h hpart := Value.sound_runtime (h.resolved.unaliased.inside _ hpart)
  value_binary := Value.Sound.binary
  value_unary := Value.Sound.unary
  value_cast _ htarget _ hd := Value.sound_known_of_cast? htarget.1 hd
  value_convertTo h htarget _ _ hconvertible :=
    h.convertTo htarget.1 (Ty.assignable_of_convertible hconvertible)
  excused_of_value := by
    rintro v h (hunknown | hinvalid)
    · rw [h.resolved.isUnknown_eq_false] at hunknown
      cases hunknown
    · rw [h.isInvalid_eq_false] at hinvalid
      cases hinvalid
  recorded_type h := h.resolved
  aggregate_initial h _ := h.1.initial_sound
  aggregate_invalid _ h := h.elim
  aggregate_set := by
    intro v item path hv hpath hitem
    have hleaf : path.type.Resolved := Ty.Everywhere.reach? hv.resolved hpath
    refine (hv.set hv.resolved (Ty.same_refl _) hpath (hitem.1.storedAs hleaf hitem.2) ?_).1
    simp [Ty.same_refl]
  stores_value h hassignable := ⟨h, by simpa using hassignable⟩
  stores_aggregate h := ⟨h, Ty.assignable_of_convertible (Ty.convertible_of_same (Ty.same_refl _))⟩

/-- What is stored where it may be stored makes a constant that the invariant is kept of. -/
theorem Invariant.soundness_symbol_of_declares {d : Semantic.Decl} {s : Symbol}
    (h : soundness.declares d s) : soundness.symbol s := by
  obtain ⟨-, type, -, init, -, rfl, htype, -, ⟨hvalue, hassignable⟩, -⟩ := h
  exact ⟨htype, hvalue.storedAs htype.1 hassignable, Value.type_storedAs _ _⟩

namespace Analysis

section NoErrors

variable {a : Syntax.Algorithm} {source : Option String}
  (h : ∀ d ∈ ((analyze a).report .default source).delivered, d.severity ≠ .error)

include h

theorem not_isError_of_delivered : ∀ e ∈ (algorithm a .initial).events, ¬ e.IsError := by
  intro e he herror
  obtain ⟨f, hf, hcode⟩ := Event.exists_mem_findings_of_isError [] he herror
  refine h (f.diagnostic source) ?_ ((Code.severity_eq_error_iff _).mpr hcode)
  rw [delivered_default]
  exact List.mem_map_of_mem hf

/-- The invariant is kept throughout the analysis of an algorithm without errors. -/
theorem soundness_of_no_errors :
    (∀ e ∈ (algorithm a .initial).events, Invariant.soundness.event e) ∧
      Invariant.soundness.table (analyze a).scopes ∧
      Invariant.soundness.parts (analyze a).tree.parts := by
  have hyields := Invariant.yields_algorithm a fun d _ _ s _ =>
    Invariant.soundness_symbol_of_declares (d := d) (s := s)
  exact hyields fun e he herror => not_isError_of_delivered h e he herror

theorem sound_of_mem_values {v : Value} (hv : v ∈ (analyze a).tree.values) : v.Sound := by
  obtain ⟨part, hpart, hvalue⟩ := List.mem_filterMap.mp hv
  have hkept := (soundness_of_no_errors h).2.2 part hpart
  cases part with
  | expr e =>
    cases hvalue
    exact hkept
  | aggregate v items =>
    cases hvalue
    exact hkept.aggregate
  | type => cases hvalue

theorem resolved_of_mem_types {t : Ty} (ht : t ∈ (analyze a).tree.types) : t.Resolved := by
  obtain ⟨part, hpart, htype⟩ := List.mem_filterMap.mp ht
  have hkept := (soundness_of_no_errors h).2.2 part hpart
  cases part with
  | type =>
    cases htype
    exact hkept.1
  | expr | aggregate => cases htype

theorem resolved_of_get? {id : Syntax.NodeId} {t : Ty} (ht : (analyze a).types.get? id = some t) :
    t.Resolved := by
  obtain ⟨e, he, htyped⟩ := List.mem_filterMap.mp (mem_of_lookup ht)
  have hkept := (soundness_of_no_errors h).1 e he
  cases e with
  | typed =>
    cases htyped
    exact hkept
  | found | notConstant | overflow => cases htyped

end NoErrors

end Analysis

/-! ### A sample -/

namespace Syntax

/-- The place of syntax that was not read from a text. -/
def nowhere : Span := ⟨0, 0⟩

def ident (text : String) : Ident := ⟨text, nowhere⟩

def Expr.ofInteger (n : Int32) : Expr := ⟨⟨0⟩, nowhere, .literal (.integer n)⟩

def Expr.ofString (s : String) : Expr := ⟨⟨1⟩, nowhere, .literal (.string s)⟩

def Expr.ofName (name : String) : Expr := ⟨⟨2⟩, nowhere, .lvalue ⟨⟨2⟩, nowhere, .name (ident name)⟩⟩

def Expr.subscript (array index : Expr) : Expr :=
  ⟨⟨3⟩, nowhere, .lvalue ⟨⟨3⟩, nowhere, .subscript array index⟩⟩

def Expr.component (base : Expr) (name : String) : Expr :=
  ⟨⟨4⟩, nowhere, .lvalue ⟨⟨4⟩, nowhere, .component base (ident name)⟩⟩

def TypeExpr.ofKind (kind : TypeKind) : TypeExpr := ⟨nowhere, kind⟩

end Syntax

open Syntax (nowhere ident)

/-- Two pairs of an integer and a string. The second one is reached by a designator, and its integer
is read back into a constant. -/
def pairs : Syntax.Algorithm :=
  ⟨nowhere, [],
    [.typeAlias ⟨nowhere, ident "Pair", .ofKind (.struct
      [⟨nowhere, [ident "n"], .ofKind .integer⟩,
        ⟨nowhere, [ident "s"], .ofKind (.boundedString (.ofInteger 4))⟩])⟩,
    .constant ⟨nowhere, .ofKind (.array (.ofKind (.named (ident "Pair"))) [.ofInteger 2]),
      ident "pairs", .braced ⟨nowhere,
        [.value ⟨nowhere, [], .braced ⟨nowhere,
          [.value ⟨nowhere, [], .expr (.ofInteger 3)⟩,
            .value ⟨nowhere, [], .expr (.ofString "ab")⟩]⟩⟩,
        .value ⟨nowhere, [⟨nowhere, .index (.ofInteger 2)⟩, ⟨nowhere, .component (ident "n")⟩],
          .expr (.ofInteger 4)⟩]⟩⟩,
    .constant ⟨nowhere, .ofKind .integer, ident "last",
      .expr (.component (.subscript (.ofName "pairs") (.ofInteger 2)) "n")⟩]⟩

/-! ### Main results -/

/-- The types that a symbol is declared with. -/
def Symbol.types : Symbol → List Ty
  | .localVariable _ t | .constant _ t _ | .parameter _ t _ | .typeAlias _ t => [t]
  | .callable c => c.returnType :: c.parameters.map (·.type)

/-- No type of the symbol has an unknown type in it, and its value is unpoisoned. -/
def Symbol.Unpoisoned (s : Symbol) : Prop :=
  (∀ t ∈ s.types, t.Resolved) ∧ ∀ v, s.value? = some v → v.Unpoisoned

theorem Symbol.unpoisoned_of_soundness {s : Symbol} (h : Invariant.soundness.symbol s) :
    s.Unpoisoned := by
  cases s with
  | constant name type value =>
    refine ⟨by simpa [types] using h.1.1, ?_⟩
    rintro _ ⟨⟩
    exact h.2.1.unpoisoned
  | localVariable name type | parameter name type mode =>
    refine ⟨by simpa [types] using h.1, ?_⟩
    rintro _ ⟨⟩
    exact (Value.sound_runtime h.1).unpoisoned
  | typeAlias name target => exact ⟨by simpa [types] using h.1, by simp [value?]⟩
  | callable c =>
    refine ⟨?_, by simp [value?]⟩
    intro t ht
    obtain rfl | ht := List.mem_cons.mp ht
    · exact h.2.1
    · obtain ⟨p, hp, rfl⟩ := List.mem_map.mp ht
      exact (h.1 p hp).1

/-- **Recovery is sound.** If the analysis of an algorithm reports no error, then no unknown type
and no invalid value occurs in it, however deep: not in the tree, not in a symbol of a scope, and
not among the types of the nodes. -/
theorem unpoisoned_of_no_errors (a : Syntax.Algorithm) (source : Option String)
    (h : ∀ d ∈ ((analyze a).report .default source).delivered, d.severity ≠ .error) :
    (∀ v ∈ (analyze a).tree.values, v.Unpoisoned) ∧
      (∀ t ∈ (analyze a).tree.types, t.Resolved) ∧
      (∀ id, ∀ s ∈ (analyze a).scopes.symbols id, s.Unpoisoned) ∧
      ∀ id t, (analyze a).types.get? id = some t → t.Resolved := by
  refine ⟨?_, ?_, ?_, ?_⟩
  · intro v hv
    exact (Analysis.sound_of_mem_values h hv).unpoisoned
  · intro t ht
    exact Analysis.resolved_of_mem_types h ht
  · intro id s hs
    exact Symbol.unpoisoned_of_soundness ((Analysis.soundness_of_no_errors h).2.1 id s hs)
  · intro id t ht
    exact Analysis.resolved_of_get? h ht

theorem unpoisoned_pairs :
    (∀ d ∈ ((analyze pairs).report .default none).delivered, d.severity ≠ .error) ∧
      (∀ v ∈ (analyze pairs).tree.values, v.Unpoisoned) ∧
      (∀ t ∈ (analyze pairs).tree.types, t.Resolved) ∧
      (∀ id, ∀ s ∈ (analyze pairs).scopes.symbols id, s.Unpoisoned) ∧
      ∀ id t, (analyze pairs).types.get? id = some t → t.Resolved :=
  ⟨by decide, unpoisoned_of_no_errors pairs none (by decide)⟩

/-- **Known values are well typed.** If the analysis of an algorithm reports no error, then every
value in its tree and every constant in its scopes is well typed, and a constant is of the type it
was declared with. -/
theorem wellTyped_of_no_errors (a : Syntax.Algorithm) (source : Option String)
    (h : ∀ d ∈ ((analyze a).report .default source).delivered, d.severity ≠ .error) :
    (∀ v ∈ (analyze a).tree.values, v.WellTyped) ∧
      ∀ id name type value, .constant name type value ∈ (analyze a).scopes.symbols id →
        value.WellTyped ∧ value.type = type := by
  refine ⟨?_, ?_⟩
  · intro v hv
    exact (Analysis.sound_of_mem_values h hv).wellTyped
  · intro id name type value hmem
    have hsymbol := (Analysis.soundness_of_no_errors h).2.1 id _ hmem
    exact ⟨hsymbol.2.1.wellTyped, hsymbol.2.2⟩

theorem wellTyped_last :
    (∀ d ∈ ((analyze pairs).report .default none).delivered, d.severity ≠ .error) ∧
      (∀ v ∈ (analyze pairs).tree.values, v.WellTyped) ∧
      (Symbol.constant (ident "last") .integer (.integer 4) ∈
        (analyze pairs).scopes.symbols ScopeTable.root ∧ (Value.integer 4).WellTyped) := by
  have hlast : Symbol.constant (ident "last") .integer (.integer 4) ∈
      (analyze pairs).scopes.symbols ScopeTable.root := .tail _ (.tail _ (.head _))
  obtain ⟨hvalues, hconstants⟩ := wellTyped_of_no_errors pairs none (by decide)
  exact ⟨by decide, hvalues, hlast, (hconstants _ _ _ _ hlast).1⟩

end Pseudocode
