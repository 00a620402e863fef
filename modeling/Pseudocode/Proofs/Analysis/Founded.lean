import Pseudocode.Proofs.Analysis.Soundness

/-!
# Known values of unknown type

A value is *founded* when nothing in it is known without its type being known. Whatever an
expression does to founded values gives founded values: operators, casts and reads of slots all see
to it. A value loses its foundation only where it is stored. Every value may be stored in a place of
unknown type, and it is then known as before, but of that type.
-/

namespace Pseudocode

namespace Value

/-- Known, though its type is not. -/
def isUnfounded (v : Value) : Bool := v.type.isUnknown && v.isKnown

/-- Nothing in the value is known without its type being known. -/
def Founded (v : Value) : Prop := v.Everywhere fun w => w.isUnfounded = false

theorem founded_of_datum?_eq_none {v : Value} (h : v.datum? = none) : v.Founded :=
  everywhere_of_contents_eq_nil (by simp [isUnfounded, isKnown, h]) (contents_of_datum?_eq_none h)

/-- Only what is inside a value matters if its own type is known. -/
theorem founded_of_type {v : Value} (htype : v.type.isUnknown = false)
    (hinside : ∀ w ∈ v.contents, w.Founded) : v.Founded :=
  .intro (by simp [isUnfounded, htype]) hinside

theorem Founded.of_contents {v w : Value} (h : v.Founded) (hw : w.isUnfounded = false)
    (hcontents : w.contents = v.contents) : w.Founded :=
  .intro hw (hcontents ▸ h.inside)

/-- A value is stored without losing its foundation if it is not known or the place has a type. -/
theorem isUnfounded_storedAs {v : Value} {target : Ty}
    (h : target.isUnknown = true → v.isKnown = false) :
    (v.storedAs target).isUnfounded = false := by
  rw [isUnfounded, type_storedAs, Bool.and_eq_false_imp]
  intro hunknown
  unfold Value.storedAs
  split
  · rw [isKnown_convertTo, h hunknown]
  · rfl

end Value

theorem Ty.isUnknown_of_isBasic {t : Ty} (h : t.isBasic = true) : t.isUnknown = false :=
  (resolved_of_isAtom (isAtom_of_isBasic h)).isUnknown_eq_false

/-- No datum fits an unknown type. -/
theorem Datum.Fits.isUnknown_eq_false {d : Datum} {t : Ty} (h : d.Fits t.unaliased) :
    t.isUnknown = false := by
  rw [Bool.eq_false_iff]
  intro hunknown
  obtain ⟨origin, horigin⟩ := Ty.isUnknown_iff.mp hunknown
  rw [horigin] at h
  cases d <;> exact h

/-! ### What holds with or without errors -/

/-- Nothing is asked of values, and of types only that the names in a structure are distinct. -/
def Invariant.distinct : Invariant where
  excused := True
  type := Ty.Distinct
  value _ := True
  constant _ := True
  aggregate _ := True
  stores _ _ := True
  recorded _ := True
  type_unknown _ _ := Ty.everywhere_unknown.mpr trivial
  type_basic h := Ty.distinct_of_isAtom (Ty.isAtom_of_isBasic h)
  type_boundedString _ _ := Ty.distinct_of_isAtom rfl
  type_array h _ _ := Ty.everywhere_array.mpr ⟨trivial, h⟩
  type_struct h hnames := Ty.everywhere_struct.mpr ⟨hnames, h⟩
  type_aliased _ _ h := Ty.everywhere_aliased.mpr ⟨trivial, h⟩
  type_slot h hslot := Ty.Everywhere.slot? h hslot
  distinct_of_type h := h
  excused_of_type _ _ := trivial
  value_constant _ := trivial
  value_literal _ := trivial
  value_runtime _ := trivial
  value_invalid _ _ := trivial
  value_slot _ _ := trivial
  value_runtime_part _ _ := trivial
  value_binary _ _ _ _ _ _ := trivial
  value_unary _ _ _ _ := trivial
  value_cast _ _ _ _ := trivial
  value_convertTo _ _ _ _ _ := trivial
  excused_of_value _ _ := trivial
  recorded_type _ := trivial
  aggregate_initial _ _ := trivial
  aggregate_invalid _ _ := trivial
  aggregate_set _ _ _ := trivial
  stores_value _ _ := trivial
  stores_aggregate _ := trivial

theorem Invariant.distinct_symbol_of_declares {d : Semantic.Decl} {s : Symbol}
    (h : distinct.declares d s) : distinct.symbol s := by
  obtain ⟨-, type, -, init, -, rfl, htype, -⟩ := h
  exact ⟨htype, trivial, Value.type_storedAs _ _⟩

/-- A constant is bound to a value of the type it was declared with. -/
theorem Analysis.type_eq_of_mem_symbols {a : Syntax.Algorithm} {id : ScopeId} {name : Ident}
    {type : Ty} {value : Value}
    (h : .constant name type value ∈ (analyze a).scopes.symbols id) : value.type = type := by
  have hyields := Invariant.yields_algorithm a fun d _ _ s _ =>
    Invariant.distinct_symbol_of_declares (d := d) (s := s)
  obtain ⟨-, htable, -⟩ := hyields fun _ _ _ => trivial
  exact (htable id _ h).2.2

/-- Values are founded as well, except for what is stored. -/
def Invariant.foundation : Invariant :=
  { Invariant.distinct with
    value := Value.Founded
    constant := Value.Founded
    value_constant h := h
    value_literal literal := by
      have hsound := literal.sound_value
      refine Value.founded_of_type hsound.resolved.isUnknown_eq_false ?_
      cases literal <;> exact fun w hw => absurd hw (List.not_mem_nil)
    value_runtime _ := Value.founded_of_datum?_eq_none rfl
    value_invalid _ _ := Value.founded_of_datum?_eq_none rfl
    value_slot h hslot := h.slot? hslot
    value_runtime_part _ _ := Value.founded_of_datum?_eq_none rfl
    value_binary := by
      intro op l r type a b d _ _ htype _ _ hd
      have hbasic := BinaryOp.isBasic_of_resultType? htype
      refine Value.founded_of_type (Ty.isUnknown_of_isBasic hbasic) ?_
      simp [BinaryOp.contents_of_onData? hd]
    value_unary := by
      intro op v type a d hv htype ha hd
      have hbasic := UnaryOp.isBasic_of_resultType? htype
      refine Value.founded_of_type (Ty.isUnknown_of_isBasic hbasic) ?_
      rw [Value.contents_known, UnaryOp.contents_of_onDatum? hd, ← Value.contents_of_datum? ha]
      exact hv.inside
    value_cast := by
      intro v target a d _ _ _ hd
      refine Value.founded_of_type (Datum.fits_of_cast? hd).isUnknown_eq_false ?_
      simp [Datum.contents_of_cast? hd]
    value_convertTo := by
      intro v target hv _ _ htarget _
      refine hv.of_contents ?_ (Value.contents_convertTo v target)
      simp [Value.isUnfounded, htarget]
    excused_of_value _ _ := trivial
    recorded_type _ := trivial
    stores_value _ _ := trivial }

/-! ### Items -/

theorem Ty.isUnfounded_initial : ∀ t : Ty, t.initial.isUnfounded = false
  | .aliased name target => by
    have htarget := target.isUnfounded_initial
    rw [Value.isUnfounded, type_initial] at htarget ⊢
    rwa [initial]
  | .unknown _ | .void | .boolean | .character | .integer | .real | .file | .string
  | .boundedString _ | .array .. | .struct _ => by
    rw [initial]
    rfl

/-- Initializers make founded values out of founded ones, except for what is stored. -/
theorem Analysis.kept_founded : Kept (fun v => v.isUnfounded = false) (fun _ => True) where
  initial h := Ty.Everywhere.initial (fun t _ => t.isUnfounded_initial) h
  unknown _ := trivial
  invalid _ := by simp [Value.isUnfounded, Value.isKnown, Value.datum?, Value.invalid]
  modifySlot _ _ h := by
    rwa [Value.isUnfounded, Value.type_modifySlot, Value.isKnown_modifySlot]

/-- The items make a founded value if none of them, at any depth, puts a known value into a slot of
unknown type. -/
theorem Invariant.founded_of_filled {v : Value} {items : List Semantic.Item}
    (h : foundation.filled v items)
    (hstores : ∀ s ∈ Semantic.itemStores v.type none items,
      s.1.isUnknown = true → s.2.isKnown = false) : v.Founded := by
  obtain ⟨env, site, init, hinit⟩ := h.analysed
  have hkept := Analysis.kept_founded.everywhere_initializer env h.distinct
    (h.distinct.imp fun _ _ => trivial) init
  rw [hinit] at hkept
  exact hkept h.sources fun s hs _ => Value.isUnfounded_storedAs (hstores s hs)

/-! ### Main result -/

/-- No expression, no constant and nothing inside an aggregate is known while its type is
unknown. -/
def Analysis.Founded (r : Analysis) : Prop :=
  (∀ v ∈ r.tree.values, v.Founded) ∧
    ∀ id name type value, .constant name type value ∈ r.scopes.symbols id → value.Founded

/-- No constant of unknown type is known. -/
def Analysis.FoundedConstants (r : Analysis) : Prop :=
  ∀ id name type value, .constant name type value ∈ r.scopes.symbols id →
    type.isUnknown = true → value.isKnown = false

/-- All is founded if constants are and if braced initializers make founded values, which need be
shown only for what the analysis makes of founded items. -/
theorem Analysis.founded_of_filled {a : Syntax.Algorithm}
    (hconstants : (analyze a).FoundedConstants)
    (haggregates : ∀ v items, .aggregate v items ∈ (analyze a).tree.parts →
      Invariant.foundation.filled v items → v.Founded) : (analyze a).Founded := by
  have hdeclared : ∀ d ∈ (analyze a).tree.decls, ∀ id, ∀ s ∈ (analyze a).scopes.symbols id,
      Invariant.foundation.declares d s → Invariant.foundation.symbol s := by
    intro d hd id s hs hdeclares
    obtain ⟨site, type, name, init, rfl, rfl, htype, hparts, -⟩ := hdeclares
    -- Storing the value changes its type only, so it is enough that it was founded before and
    -- that the constant itself is not known without a type.
    have hinit : init.value.Founded := by
      cases init with
      | expr e => exact Invariant.value_of_parts hparts
      | braced braces v items =>
        refine haggregates v items ?_ (hparts _ List.mem_cons_self)
        refine List.mem_append_right _ (List.mem_flatMap.mpr ⟨_, hd, ?_⟩)
        exact List.mem_cons_of_mem _ List.mem_cons_self
    refine ⟨htype, hinit.storedAs ?_, Value.type_storedAs _ _⟩
    have hconstant := hconstants id name type _ hs
    rw [Value.isUnfounded, Value.type_storedAs, Bool.and_eq_false_imp]
    exact hconstant
  obtain ⟨-, htable, hparts⟩ := Invariant.yields_algorithm a hdeclared fun _ _ _ => trivial
  refine ⟨?_, fun id name type value hmem => (htable id _ hmem).2.1⟩
  intro v hv
  obtain ⟨part, hpart, hvalue⟩ := List.mem_filterMap.mp hv
  cases part with
  | expr e =>
    cases hvalue
    exact hparts _ hpart
  | aggregate w items =>
    cases hvalue
    exact haggregates _ items hpart (hparts _ hpart)
  | type => cases hvalue

/-- **Only stores make a value known without a type.** All values of an analysis, with or without
errors, are founded if and only if no constant of unknown type is known and the braced initializers
make founded values. For the latter it is enough that no item of them, at any depth, puts a known
value into a slot of unknown type. -/
theorem founded_iff (a : Syntax.Algorithm) :
    ((analyze a).Founded ↔ (analyze a).FoundedConstants ∧
      ∀ v items, .aggregate v items ∈ (analyze a).tree.parts → v.Founded) ∧
    ((analyze a).FoundedConstants →
      (∀ v items, .aggregate v items ∈ (analyze a).tree.parts →
        ∀ s ∈ Semantic.itemStores v.type none items, s.1.isUnknown = true → s.2.isKnown = false) →
      (analyze a).Founded) := by
  refine ⟨⟨?_, ?_⟩, ?_⟩
  · rintro ⟨hvalues, hconstants⟩
    refine ⟨?_, fun v items hv => hvalues v (List.mem_filterMap.mpr ⟨_, hv, rfl⟩)⟩
    intro id name type value hmem hunknown
    have hvalue := (hconstants id name type value hmem).here
    rwa [Value.isUnfounded, Analysis.type_eq_of_mem_symbols hmem, hunknown, Bool.true_and] at hvalue
  · rintro ⟨hconstants, haggregates⟩
    exact Analysis.founded_of_filled hconstants fun v items hv _ => haggregates v items hv
  · intro hconstants hstores
    refine Analysis.founded_of_filled hconstants fun v items hv hfilled => ?_
    exact Invariant.founded_of_filled hfilled (hstores v items hv)

open Syntax (nowhere ident)

/-- A constant whose type is not defined anywhere. -/
def undefinedType : Syntax.Algorithm :=
  ⟨nowhere, [],
    [.constant ⟨nowhere, .ofKind (.named (ident "Missing")), ident "ten", .expr (.ofInteger 10)⟩]⟩

/-- A constant of undefined type is known. -/
theorem unfounded_constant : ¬ ∀ a : Syntax.Algorithm, (analyze a).Founded := by
  intro h
  have hten := (h undefinedType).2 ScopeTable.root _ _ _ (.head _)
  cases hten.here

end Pseudocode
