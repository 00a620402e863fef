import Pseudocode.Proofs.Analysis.Invariant
import Pseudocode.Proofs.Folding.Typing

/-!
# Checks keep every invariant

One lemma for each check: on operands that an invariant is kept of, it gives a value that the
invariant is kept of. What a check lets pass without a report is excused by what was wrong with its
operands before.
-/

namespace Pseudocode

namespace Invariant

variable {I : Invariant}

theorem value_pending {t : Ty} {invalid : Bool} (hruntime : I.value (.runtime t))
    (hinvalid : invalid = true → I.excused) : I.value ⟨t, .pending invalid⟩ := by
  cases invalid with
  | false => exact hruntime
  | true => exact I.value_invalid t (hinvalid rfl)

/-! ### Conversions and constants -/

theorem yields_convertible (e : Semantic.Expr) (target : Ty) :
    I.Yields (Check.convertible e target) fun converts => converts = false → I.excused := by
  unfold Check.convertible
  split
  · exact yields_pure (by simp)
  · refine (yields_report _ _).bind fun _ hexcused => yields_pure fun _ => ?_
    exact hexcused rfl

theorem yields_assignable (e : Semantic.Expr) (target : Ty) :
    I.Yields (Check.assignable e target) fun _ =>
      e.type.assignable target = false → I.excused := by
  refine yields_unless (fun h => by simp [h]) fun _ => ?_
  exact (yields_report _ _).imp fun _ hexcused _ => hexcused rfl

theorem yields_notConstant (v : Value) (span : Span) :
    I.Yields (Check.notConstant v span) fun _ => v.isInvalid = false → I.excused := by
  refine yields_unless (fun hinvalid => by simp [hinvalid]) fun _ => ?_
  have hemit : I.Yields (Traced.emit (.notConstant span)) fun _ => True → I.excused :=
    yields_emit trivial
  exact hemit.imp fun _ hexcused _ => hexcused trivial

/-- An expression that is not the constant it has to be is excused: by the report, or by the error
that made it invalid. -/
theorem yields_notConstant_excused {v : Value} (hv : I.value v) (span : Span) :
    I.Yields (Check.notConstant v span) fun _ => I.excused := by
  refine (yields_notConstant v span).imp fun _ hexcused => ?_
  cases hinvalid : v.isInvalid with
  | false => exact hexcused hinvalid
  | true => exact I.excused_of_value hv (.inr hinvalid)

theorem yields_constant (v : Value) (span : Span) :
    I.Yields (Check.constant v span) fun _ =>
      v.isKnown = false → v.isInvalid = false → I.excused := by
  refine yields_unless (fun hknown => by simp [hknown]) fun _ => ?_
  exact (yields_notConstant v span).imp fun _ hexcused _ => hexcused

/-! ### Operators and casts -/

theorem yields_remark {unsupported : Cause} (herror : unsupported.code.isError = true) (span : Span)
    (r : Remark) :
    I.Yields (Check.remark unsupported span r) fun _ => r = .unsupportedOperation → I.excused := by
  cases r with
  | unsupportedOperation =>
    exact (yields_report unsupported span).imp fun _ hexcused _ => hexcused herror
  | integerOverflow =>
    have hemit : I.Yields (Traced.emit (.overflow span)) fun _ => False → I.excused :=
      yields_emit trivial
    exact hemit.imp fun _ _ h => by cases h
  | divisionByZero | floatingPointEquality =>
    exact (yields_report_true _ span).imp fun _ _ h => by cases h

theorem yields_remarks {unsupported : Cause} (herror : unsupported.code.isError = true)
    (span : Span) (rs : List Remark) :
    I.Yields (Check.remarks unsupported span rs) fun _ =>
      .unsupportedOperation ∈ rs → I.excused := by
  induction rs with
  | nil => exact yields_pure (by simp)
  | cons r rest ih =>
    refine (yields_remark herror span r).bind fun _ hr => ih.imp fun _ hrest h => ?_
    obtain rfl | h := List.mem_cons.mp h
    · exact hr rfl
    · exact hrest h

theorem value_of_binary_apply {op : BinaryOp} {l r : Value} {span : Span} (hl : I.value l)
    (hr : I.value r)
    (hunsupported : .unsupportedOperation ∈ (op.apply l r span).remarks → I.excused) :
    I.value (op.apply l r span).value := by
  revert hunsupported
  unfold BinaryOp.apply
  split
  · rename_i hunknown
    exact fun _ => I.value_invalid _ (I.excused_of_value hl (.inl hunknown))
  split
  · rename_i hunknown
    exact fun _ => I.value_invalid _ (I.excused_of_value hr (.inl hunknown))
  dsimp only
  split
  · exact fun hunsupported => I.value_invalid _ (hunsupported List.mem_cons_self)
  rename_i type htype
  have hruntime : I.value (.runtime type) :=
    I.value_runtime (I.type_basic (BinaryOp.isBasic_of_resultType? htype))
  split
  · exact fun _ => hruntime
  split
  · rename_i a b ha hb
    intro _
    cases hd : op.onData? a b with
    | some d => exact I.value_binary hl hr htype ha hb hd
    | none => exact hruntime
  · intro _
    refine value_pending hruntime fun hinvalid => ?_
    obtain hinvalid | hinvalid := Bool.or_eq_true_iff.mp hinvalid
    · exact I.excused_of_value hl (.inr hinvalid)
    · exact I.excused_of_value hr (.inr hinvalid)

theorem yields_binary (op : BinaryOp) {l r : Semantic.Expr} (span : Span) (hl : I.value l.value)
    (hr : I.value r.value) : I.Yields (Check.binary op l r span) I.value := by
  refine (yields_remarks rfl span _).bind fun _ hunsupported => yields_pure ?_
  exact value_of_binary_apply hl hr hunsupported

theorem value_of_unary_apply {op : UnaryOp} {v : Value} {span : Span} (hv : I.value v)
    (hunsupported : .unsupportedOperation ∈ (op.apply v span).remarks → I.excused) :
    I.value (op.apply v span).value := by
  revert hunsupported
  unfold UnaryOp.apply
  split
  · rename_i hunknown
    exact fun _ => I.value_invalid _ (I.excused_of_value hv (.inl hunknown))
  split
  · exact fun hunsupported => I.value_invalid _ (hunsupported List.mem_cons_self)
  rename_i type htype
  have hruntime : I.value (.runtime type) :=
    I.value_runtime (I.type_basic (UnaryOp.isBasic_of_resultType? htype))
  split
  · rename_i a ha
    intro _
    cases hd : op.onDatum? a with
    | some d => exact I.value_unary hv htype ha hd
    | none => exact hruntime
  · exact fun _ => value_pending hruntime fun hinvalid => I.excused_of_value hv (.inr hinvalid)

theorem yields_unary (op : UnaryOp) {e : Semantic.Expr} (span : Span) (he : I.value e.value) :
    I.Yields (Check.unary op e span) I.value := by
  refine (yields_remarks rfl span _).bind fun _ hunsupported => yields_pure ?_
  exact value_of_unary_apply he hunsupported

theorem value_of_cast {v : Value} {target : Ty} (hv : I.value v) (htarget : I.type target)
    (hinvalid : (v.cast target).kind = .invalid → I.excused) : I.value (v.cast target).value := by
  revert hinvalid
  unfold Value.cast
  split
  · rename_i hunknown
    intro _
    refine I.value_invalid _ ?_
    obtain hsource | hunknown := Bool.or_eq_true_iff.mp hunknown
    · exact I.excused_of_value hv (.inl hsource)
    · exact I.excused_of_type htarget hunknown
  rename_i hknown
  obtain ⟨hsource, hknown⟩ := Bool.or_eq_false_iff.mp (Bool.eq_false_iff.mpr hknown)
  split
  · rename_i hconvertible
    exact fun _ => I.value_convertTo hv htarget hsource hknown hconvertible
  split
  · intro _
    split
    · rename_i a ha
      split
      · rename_i d hd
        exact I.value_cast hv htarget ha hd
      · exact I.value_runtime htarget
    · exact value_pending (I.value_runtime htarget) fun h => I.excused_of_value hv (.inr h)
  · exact fun hinvalid => I.value_invalid _ (hinvalid rfl)

theorem yields_cast {e : Semantic.Expr} {target : Ty} (span : Span) (he : I.value e.value)
    (htarget : I.type target) : I.Yields (Check.cast e target span) I.value := by
  refine (yields_report_true _ span).bind fun _ _ => ?_
  dsimp only
  have hcast := value_of_cast he htarget
  split
  · rename_i hkind
    exact yields_pure (hcast (by simp [hkind]))
  · rename_i hkind
    exact (yields_report_true _ span).bind fun _ _ => yields_pure (hcast (by simp [hkind]))
  · rename_i hkind
    refine (yields_report _ span).bind fun _ hexcused => yields_pure (hcast fun _ => ?_)
    exact hexcused rfl

/-! ### Names and calls -/

theorem value_of_lookupValue {t : ScopeTable} (ht : I.table t) {scope : ScopeId} {name : String}
    {v : Value} (h : t.lookupValue scope name = .ok v) : I.value v := by
  obtain ⟨owner, s, hmem, hs⟩ := ScopeTable.exists_of_resolve h
  have hsymbol := ht owner s hmem
  cases s with
  | constant name type value =>
    cases hs
    exact I.value_constant hsymbol.2.1
  | localVariable name type | parameter name type mode =>
    cases hs
    exact I.value_runtime hsymbol
  | typeAlias | callable => cases hs

theorem type_of_lookupAlias {t : ScopeTable} (ht : I.table t) {scope : ScopeId} {name : String}
    {target : Ty} (h : t.lookupAlias scope name = .ok target) : I.type target := by
  obtain ⟨owner, s, hmem, hs⟩ := ScopeTable.exists_of_resolve h
  have hsymbol := ht owner s hmem
  cases s with
  | typeAlias name target =>
    cases hs
    exact hsymbol
  | _ => cases hs

theorem callable_of_lookupCallable {t : ScopeTable} (ht : I.table t) {scope : ScopeId}
    {name : String} {c : Callable} (h : t.lookupCallable scope name = .ok c) : I.callable c := by
  obtain ⟨owner, s, hmem, hs⟩ := ScopeTable.exists_of_resolve h
  have hsymbol := ht owner s hmem
  cases s with
  | callable c =>
    cases hs
    exact hsymbol
  | _ => cases hs

theorem yields_name {env : Env} (henv : I.table env.table) (name : Ident) :
    I.Yields (Check.name env name) I.value := by
  unfold Check.name
  split
  · exact yields_report_invalid rfl _ _
  · rename_i v hlookup
    exact yields_pure (value_of_lookupValue henv hlookup)

theorem yields_call {env : Env} (henv : I.table env.table) (callee : Ident)
    (args : List Semantic.Argument) (span : Span) :
    I.Yields (Check.call env callee args span) I.value := by
  unfold Check.call
  split
  · exact yields_report_invalid rfl _ _
  · rename_i c hlookup
    refine yields_report_unless_bind (yields_pure (I.value_runtime ?_))
    exact (callable_of_lookupCallable henv hlookup).2

/-! ### Subscripts, components and lengths -/

/-- What is in a slot of a value, or else the value that stands for it. -/
theorem value_slot_getD {v w : Value} {step : Step} (hv : I.value v) (hw : I.value w) :
    I.value ((v.slot? step).getD w) := by
  cases hslot : v.slot? step with
  | some u => exact I.value_slot hv hslot
  | none => exact hw

theorem value_runtime_item {v : Value} {item : Ty} {length : Nat} (hv : I.value v)
    (hshape : v.type.unaliased = .array item length) : I.value (.runtime item) :=
  I.value_runtime_part hv (by simp [hshape, Ty.parts])

theorem value_runtime_component {v : Value} {components : List (String × Ty)} {name : String}
    {type : Ty} (hv : I.value v) (hshape : v.type.unaliased = .struct components)
    (hlookup : components.lookup name = some type) : I.value (.runtime type) := by
  refine I.value_runtime_part hv ?_
  rw [hshape]
  exact List.mem_map.mpr ⟨(name, type), mem_of_lookup hlookup, rfl⟩

theorem yields_element {array : Semantic.Expr} {item : Ty} {length : Nat} (n : Int32) (span : Span)
    (harray : I.value array.value) (hshape : array.type.unaliased = .array item length) :
    I.Yields (Check.element array item length n span) I.value := by
  unfold Check.element
  split
  · exact yields_pure (value_slot_getD harray (value_runtime_item harray hshape))
  · exact yields_report_invalid rfl _ _

theorem yields_subscript {array index : Semantic.Expr} (span : Span) (harray : I.value array.value)
    (hindex : I.value index.value) : I.Yields (Check.subscript array index span) I.value := by
  unfold Check.subscript
  refine yields_report_unless_bind ?_
  split
  · rename_i origin hshape
    refine yields_pure (I.value_invalid _ (I.excused_of_value harray (.inl ?_)))
    exact Ty.isUnknown_iff.mpr ⟨origin, hshape⟩
  · rename_i item length hshape
    split
    · exact yields_element _ _ harray hshape
    · refine yields_pure (value_pending (value_runtime_item harray hshape) fun hinvalid => ?_)
      obtain hinvalid | hinvalid := Bool.or_eq_true_iff.mp hinvalid
      · exact I.excused_of_value harray (.inr hinvalid)
      · exact I.excused_of_value hindex (.inr hinvalid)
  · exact yields_report_invalid rfl _ _

theorem yields_component {base : Semantic.Expr} (name : Ident) (span : Span)
    (hbase : I.value base.value) : I.Yields (Check.component base name span) I.value := by
  unfold Check.component
  split
  · rename_i origin hshape
    refine yields_pure (I.value_invalid _ (I.excused_of_value hbase (.inl ?_)))
    exact Ty.isUnknown_iff.mpr ⟨origin, hshape⟩
  · rename_i components hshape
    split
    · rename_i type hlookup
      refine yields_pure (value_slot_getD hbase ?_)
      refine value_pending (value_runtime_component hbase hshape hlookup) fun hinvalid => ?_
      exact I.excused_of_value hbase (.inr hinvalid)
    · exact yields_report_invalid rfl _ _
  · exact yields_report_invalid rfl _ _

/-- A length is positive and no longer than an integer can say; without one, an error accounts for
it. -/
theorem yields_length {e : Semantic.Expr} (he : I.value e.value) :
    I.Yields (Check.length e) fun n? =>
      (n? = none → I.excused) ∧
        ∀ n : Nat, n? = some n → 0 < n ∧ (n : Int) ≤ Int32.maxValue.toInt := by
  unfold Check.length
  refine (yields_convertible e .integer).bind fun converts hconverts => ?_
  split
  · split
    · rename_i n _
      split
      · rename_i hpos
        refine yields_pure ⟨by simp, ?_⟩
        rintro _ ⟨⟩
        have hle := n.toInt_le
        omega
      · refine (yields_report _ _).bind fun _ hexcused => yields_pure ⟨fun _ => ?_, by simp⟩
        exact hexcused rfl
    · refine (yields_notConstant_excused he _).bind fun _ hexcused => ?_
      exact yields_pure ⟨fun _ => hexcused, by simp⟩
  · rename_i hfalse
    exact yields_pure ⟨fun _ => hconverts (Bool.eq_false_iff.mpr hfalse), by simp⟩

/-- What is kept of the components of a structure. -/
def components (I : Invariant) (components : List (String × Ty)) : Prop :=
  (∀ c ∈ components, I.type c.2) ∧ (components.map (·.1)).Nodup

theorem components_append {cs : List (String × Ty)} {name : String} {type : Ty}
    (hcs : I.components cs) (htype : I.type type) (hfree : ¬ cs.any (·.1 == name) = true) :
    I.components (cs ++ [(name, type)]) := by
  refine ⟨?_, ?_⟩
  · intro c hc
    obtain hc | rfl := List.mem_append.mp hc |>.imp_right List.mem_singleton.mp
    · exact hcs.1 c hc
    · exact htype
  · rw [List.map_append, List.nodup_append]
    refine ⟨hcs.2, by simp, ?_⟩
    intro a ha b hb hab
    simp only [List.map_cons, List.map_nil, List.mem_singleton] at hb
    obtain ⟨c, hc, rfl⟩ := List.mem_map.mp ha
    exact hfree (List.any_eq_true.mpr ⟨c, hc, by simpa [hb] using hab⟩)

theorem yields_addComponents {type : Ty} (htype : I.type type) (names : List Ident)
    {cs : List (String × Ty)} (hcs : I.components cs) :
    I.Yields (Check.addComponents type names cs) I.components := by
  induction names generalizing cs with
  | nil => exact yields_pure hcs
  | cons name rest ih =>
    unfold Check.addComponents
    split
    · exact (yields_report_true _ _).bind fun _ _ => ih hcs
    · rename_i hfree
      exact ih (components_append hcs htype hfree)

end Invariant

end Pseudocode
