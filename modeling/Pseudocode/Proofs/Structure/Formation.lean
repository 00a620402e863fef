import Pseudocode.Proofs.Analysis.Delivery
import Pseudocode.Proofs.Analysis.Founded
import Pseudocode.Proofs.Structure.Reports

/-!
# Type expressions stand for well-formed types

Whatever a program asks for, the types that come of it have lengths from one up to the greatest
integer and structures with distinct names. A length that would not do makes the type unknown, and a
name that is repeated is left out, so that the first component of each name is kept. An alias brings
in a type from the scopes, and the types in the scopes have come about in the same way.
-/

namespace Pseudocode

namespace Ty

/-- A positive integer of the language. -/
def IsLength (n : Nat) : Prop := 1 ≤ n ∧ n ≤ 2147483647

/-- The type has a proper length or distinct names, if it has any. -/
def Formed : Ty → Prop
  | .array _ length | .boundedString length => IsLength length
  | .struct components => (components.map (·.1)).Nodup
  | _ => True

/-- All types in the type, at any depth, are formed properly. -/
def WellFormed (t : Ty) : Prop := t.Everywhere Formed

theorem isLength_of_le_maxValue {n : Nat} (hpos : 0 < n)
    (hmax : (n : Int) ≤ Int32.maxValue.toInt) : IsLength n := by
  have hvalue : Int32.maxValue.toInt = 2147483647 := rfl
  constructor <;> omega

theorem WellFormed.distinct {t : Ty} (h : t.WellFormed) : t.Distinct := by
  refine Everywhere.imp h fun u hu => ?_
  cases u with
  | struct components => exact hu
  | _ => trivial

theorem wellFormed_of_isBasic {t : Ty} (h : t.isBasic = true) : t.WellFormed := by
  refine everywhere_of_isAtom (isAtom_of_isBasic h) ?_
  cases t with
  | boundedString | array | struct => cases h
  | _ => trivial

end Ty

/-! ### The invariant -/

/-- Nothing is asked of values, and all types are well formed. -/
def Invariant.formation : Invariant :=
  { Invariant.distinct with
    type := Ty.WellFormed
    type_unknown _ _ := .intro trivial (by simp [Ty.parts])
    type_basic := Ty.wellFormed_of_isBasic
    type_boundedString hpos hmax :=
      Ty.everywhere_of_isAtom rfl (Ty.isLength_of_le_maxValue hpos hmax)
    type_array h hpos hmax := Ty.everywhere_array.mpr ⟨Ty.isLength_of_le_maxValue hpos hmax, h⟩
    type_struct h hnames := Ty.everywhere_struct.mpr ⟨hnames, h⟩
    type_aliased _ _ h := Ty.everywhere_aliased.mpr ⟨trivial, h⟩
    type_slot h hslot := Ty.Everywhere.slot? h hslot
    distinct_of_type := Ty.WellFormed.distinct
    excused_of_type _ _ := trivial
    value_runtime _ := trivial
    value_cast _ _ _ _ := trivial
    value_convertTo _ _ _ _ _ := trivial
    aggregate_initial _ _ := trivial }

theorem Invariant.formation_symbol_of_declares {d : Semantic.Decl} {s : Symbol}
    (h : formation.declares d s) : formation.symbol s := by
  obtain ⟨-, type, -, init, -, rfl, htype, -⟩ := h
  exact ⟨htype, trivial, Value.type_storedAs _ _⟩

theorem Invariant.wellFormed_of_symbol {s : Symbol} (h : formation.symbol s) :
    ∀ t ∈ s.types, t.WellFormed := by
  cases s with
  | constant name type value => exact List.forall_mem_singleton.mpr h.1
  | localVariable | parameter | typeAlias => exact List.forall_mem_singleton.mpr h
  | callable c =>
    refine List.forall_mem_cons.mpr ⟨h.2, ?_⟩
    exact List.forall_mem_map.mpr h.1

namespace Analysis

/-- The invariant is kept throughout the analysis of an algorithm. -/
theorem formation_analyze (a : Syntax.Algorithm) :
    Invariant.formation.table (analyze a).scopes ∧
      Invariant.formation.parts (analyze a).tree.parts := by
  have hyields := Invariant.yields_algorithm a fun d _ _ s _ =>
    Invariant.formation_symbol_of_declares (d := d) (s := s)
  exact (hyields fun _ _ _ => trivial).2

theorem wellFormed_of_mem_types {a : Syntax.Algorithm} {t : Ty} (h : t ∈ (analyze a).tree.types) :
    t.WellFormed := by
  obtain ⟨part, hpart, htype⟩ := List.mem_filterMap.mp h
  have hkept := (formation_analyze a).2 part hpart
  cases part with
  | type =>
    cases htype
    exact hkept
  | expr | aggregate => cases htype

/-- A type expression stands for a well-formed type at all times: what it finds in the scopes is
still there in the end. -/
theorem wellFormed_typeExpr {a : Syntax.Algorithm} {table : ScopeTable}
    (h : table.Evolves (analyze a).scopes) (scope : ScopeId) (t : Syntax.TypeExpr) :
    (typeExpr ⟨table, scope⟩ t).result.WellFormed := by
  have henv : Invariant.formation.table (Env.mk table scope).table :=
    h.forall_symbols (fun _ hc => hc) (formation_analyze a).1
  exact (Invariant.yields_typeExpr henv t fun _ _ _ => trivial).2

/-! ### The first component of each name -/

/-- All components that a structure type lists, those with repeated names among them. -/
def declaredComponents (env : Env) (ds : List Syntax.ComponentDecl) : List (String × Ty) :=
  ds.flatMap fun d => d.names.map fun name => (name.text, (typeExpr env d.type).result)

theorem keepsFirst_structComponents (env : Env) {declared kept : List (String × Ty)}
    (h : Check.KeepsFirst declared kept) (ds : List Syntax.ComponentDecl) :
    Check.KeepsFirst (declared ++ declaredComponents env ds)
      (structComponents env kept ds).result := by
  induction ds generalizing declared kept with
  | nil => simpa [declaredComponents, structComponents] using h
  | cons d rest ih =>
    obtain ⟨span, names, type⟩ := d
    rw [declaredComponents, List.flatMap_cons, ← List.append_assoc, structComponents]
    exact ih (h.addComponents (typeExpr env type).result names).1

theorem keepsFirst_struct (env : Env) (span : Span) (ds : List Syntax.ComponentDecl) :
    ∃ kept, (typeExpr env ⟨span, .struct ds⟩).result = .struct kept ∧
      Check.KeepsFirst (declaredComponents env ds) kept := by
  refine ⟨(structComponents env [] ds).result, ?_, ?_⟩
  · rw [typeExpr]
    rfl
  · exact keepsFirst_structComponents env Check.keepsFirst_nil ds

/-! ### What is delivered -/

/-- The finding that a component name is repeated. -/
def repetition (name : Ident) : Finding := ⟨.duplicateComponent name.text, name.span⟩

theorem filter_findings_repeated (overflows : List Span) (es : List Event) :
    (Event.findings overflows es).filter (·.cause.code = .structureDuplicateComponent) =
      (es.filterMap Event.repeated?).map repetition := by
  have hfilter := Event.findings_filter (p := fun cause =>
    cause.code = .structureDuplicateComponent) (fun _ => rfl) overflows es
  refine hfilter.trans ?_
  rw [List.map_filterMap]
  refine congrArg (List.filterMap · es) (funext fun e => ?_)
  cases e with
  | found finding =>
    obtain ⟨cause, span⟩ := finding
    cases cause with
    | unbindable error => cases error <;> rfl
    | _ => rfl
  | notConstant | overflow | typed => rfl

theorem findings_repeated (a : Syntax.Algorithm) :
    (analyze a).findings.filter (·.cause.code = .structureDuplicateComponent) =
      a.repeats.map repetition := by
  have hrepeated : (algorithm a .initial).pick Event.repeated? = a.repeats :=
    repeats_algorithm a .initial
  rw [← hrepeated]
  exact filter_findings_repeated [] _

end Analysis

theorem Config.filter_delivered_repeated (c : Config) (source : Option String)
    (findings : List Finding) :
    (c.deliver source findings).delivered.filter (·.code = .structureDuplicateComponent) =
      if .structureDuplicateComponent ∈ c.suppressed then []
      else (findings.filter (·.cause.code = .structureDuplicateComponent)).map
        (Finding.diagnostic source) :=
  c.filter_delivered_of_code source findings (by decide)

namespace Session

open Analysis (typeExpr declaredComponents repetition)
open Check (KeepsFirst)

/-- **Types are well formed.** At all times of a session, that is in all scopes that evolve into
those it leaves behind, a type expression stands for a well-formed type. In the end the types in the
tree and in the scopes are well formed. A structure type keeps the first component of each name. The
other components are reported, each once and in order, unless such reports are suppressed. -/
theorem evaluated_types_well_formed (config : Config) (source : Option String)
    (a : Syntax.Algorithm) :
    let outcome := run config source a
    (∀ table : ScopeTable, table.Evolves outcome.scopes → ∀ scope t,
      (typeExpr ⟨table, scope⟩ t).result.WellFormed) ∧
    (∀ t ∈ outcome.tree.types, t.WellFormed) ∧
    (∀ id, ∀ s ∈ outcome.scopes.symbols id, ∀ t ∈ s.types, t.WellFormed) ∧
    (∀ env span ds, ∃ kept, (typeExpr env ⟨span, .struct ds⟩).result = .struct kept ∧
      KeepsFirst (declaredComponents env ds) kept) ∧
    outcome.sink.delivered.filter (·.code = .structureDuplicateComponent) =
      if .structureDuplicateComponent ∈ config.suppressed then []
      else a.repeats.map fun name => (repetition name).diagnostic source := by
  intro outcome
  have houtcome : outcome = _ := run_eq config source a
  rw [houtcome]
  refine ⟨?_, ?_, ?_, Analysis.keepsFirst_struct, ?_⟩
  · intro table htable scope t
    exact Analysis.wellFormed_typeExpr htable scope t
  · intro t ht
    exact Analysis.wellFormed_of_mem_types ht
  · intro id s hs
    exact Invariant.wellFormed_of_symbol ((Analysis.formation_analyze a).1 id s hs)
  · rw [Analysis.report, Config.filter_delivered_repeated, Analysis.findings_repeated,
      List.map_map]
    rfl

open Syntax (nowhere ident)

/-- A structure that lists a name twice. -/
def overlapping : Syntax.Algorithm :=
  ⟨nowhere, [],
    [.typeAlias ⟨nowhere, ident "Point", .ofKind (.struct
      [⟨nowhere, [ident "x"], .ofKind .integer⟩,
        ⟨nowhere, [ident "y", ident "x"], .ofKind .real⟩])⟩]⟩

theorem repeated_component_is_reported :
    (run .default none overlapping).sink.delivered.filter
        (·.code = .structureDuplicateComponent) =
      [⟨.structureDuplicateComponent, "duplicate component `x` in structure is ignored", [],
        nowhere⟩] ∧
    (Ty.struct [("x", .integer), ("y", .real)]).WellFormed := by
  obtain ⟨-, htypes, -, -, hdelivered⟩ := evaluated_types_well_formed .default none overlapping
  exact ⟨hdelivered, htypes _ (.head _)⟩

end Session

end Pseudocode
