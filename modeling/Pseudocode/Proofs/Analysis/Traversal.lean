import Pseudocode.Proofs.Analysis.Checks
import Pseudocode.Proofs.Filling.Contents

/-!
# The traversal keeps every invariant

Whatever an invariant asks of the types and values of a program holds throughout the tree that the
analysis makes of it, and of the symbols that it binds.
-/

namespace Pseudocode.Invariant

open Analysis

variable {I : Invariant}

/-! ### Parts -/

def parts (I : Invariant) (ps : List Semantic.Part) : Prop := ∀ p ∈ ps, I.part p

@[simp]
theorem parts_nil : I.parts [] := by simp [parts]

@[simp]
theorem parts_cons {p : Semantic.Part} {ps : List Semantic.Part} :
    I.parts (p :: ps) ↔ I.part p ∧ I.parts ps := by simp [parts]

@[simp]
theorem parts_append {ps qs : List Semantic.Part} :
    I.parts (ps ++ qs) ↔ I.parts ps ∧ I.parts qs := by
  simp [parts, or_imp, forall_and]

theorem value_of_parts {e : Semantic.Expr} (h : I.parts e.parts) : I.value e.value := by
  obtain ⟨site, value, kind⟩ := e
  exact h (.expr ⟨site, value, kind⟩) List.mem_cons_self

/-! ### Expressions and type expressions -/

theorem yields_finish (env : Env) (id : Syntax.NodeId) (span : Span) {v : Value}
    {kind : Semantic.ExprKind} (hv : I.value v) (hkind : I.parts kind.parts) :
    I.Yields (finish env id span v kind) fun e => I.parts e.parts := by
  refine (yields_typed id (I.recorded_type hv)).bind fun _ _ => yields_pure ?_
  exact parts_cons.mpr ⟨hv, hkind⟩

theorem type_arrayOf {item : Ty} (hitem : I.type item) {lengths : List Nat}
    (hlengths : ∀ n ∈ lengths, 0 < n ∧ (n : Int) ≤ Int32.maxValue.toInt) :
    I.type (arrayOf item lengths) := by
  induction lengths with
  | nil => exact hitem
  | cons n rest ih =>
    have hn := hlengths n List.mem_cons_self
    have hrest := ih fun m hm => hlengths m (List.mem_cons_of_mem _ hm)
    exact I.type_array hrest hn.1 hn.2

section Expressions

variable {env : Env}

mutual

theorem yields_expr (henv : I.table env.table) :
    ∀ e : Syntax.Expr, I.Yields (expr env e) fun e => I.parts e.parts
  | ⟨id, span, .literal literal⟩ => by
    rw [expr]
    exact yields_finish env id span (I.value_literal literal) parts_nil
  | ⟨id, span, .paren inner⟩ => by
    rw [expr]
    refine (yields_expr henv inner).bind fun inner hinner => ?_
    exact yields_finish env id span (value_of_parts hinner) hinner
  | ⟨id, span, .binary op left right⟩ => by
    rw [expr]
    refine (yields_expr henv left).bind fun left hleft => ?_
    refine (yields_expr henv right).bind fun right hright => ?_
    refine (yields_binary _ span (value_of_parts hleft) (value_of_parts hright)).bind fun v hv => ?_
    exact yields_finish env id span hv (parts_append.mpr ⟨hleft, hright⟩)
  | ⟨id, span, .unary op operand⟩ => by
    rw [expr]
    refine (yields_expr henv operand).bind fun operand hoperand => ?_
    refine (yields_unary _ span (value_of_parts hoperand)).bind fun v hv => ?_
    exact yields_finish env id span hv hoperand
  | ⟨id, span, .call callee args⟩ => by
    rw [expr]
    refine (yields_arguments henv args).bind fun args hargs => ?_
    refine (yields_call henv callee args span).bind fun v hv => ?_
    exact yields_finish env id span hv hargs
  | ⟨id, span, .endOfFile file⟩ => by
    rw [expr]
    refine (yields_expr henv file).bind fun file hfile => ?_
    refine (yields_convertible file .file).bind fun _ _ => ?_
    exact yields_finish env id span (I.value_runtime (I.type_basic rfl)) hfile
  | ⟨id, span, .cast target value⟩ => by
    rw [expr]
    refine (yields_typeExpr henv target).bind fun target htarget => ?_
    refine (yields_expr henv value).bind fun value hvalue => ?_
    refine (yields_cast span (value_of_parts hvalue) htarget).bind fun v hv => ?_
    exact yields_finish env id span hv (parts_cons.mpr ⟨htarget, hvalue⟩)
  | ⟨id, span, .lvalue value⟩ => by
    rw [expr]
    refine (yields_lvalue henv value).bind fun value hvalue => ?_
    have htype := I.recorded_type (value_of_parts hvalue)
    exact (yields_typed id htype).bind fun _ _ => yields_pure hvalue

theorem yields_lvalue (henv : I.table env.table) :
    ∀ l : Syntax.Lvalue, I.Yields (lvalue env l) fun e => I.parts e.parts
  | ⟨id, span, .name name⟩ => by
    rw [lvalue]
    refine (yields_name henv name).bind fun v hv => ?_
    exact yields_finish env id span hv parts_nil
  | ⟨id, span, .subscript array index⟩ => by
    rw [lvalue]
    refine (yields_expr henv array).bind fun array harray => ?_
    refine (yields_expr henv index).bind fun index hindex => ?_
    have hvalues := yields_subscript span (value_of_parts harray) (value_of_parts hindex)
    refine hvalues.bind fun v hv => ?_
    exact yields_finish env id span hv (parts_append.mpr ⟨harray, hindex⟩)
  | ⟨id, span, .component base name⟩ => by
    rw [lvalue]
    refine (yields_expr henv base).bind fun base hbase => ?_
    refine (yields_component name span (value_of_parts hbase)).bind fun v hv => ?_
    exact yields_finish env id span hv hbase

theorem yields_arguments (henv : I.table env.table) :
    ∀ args : List Syntax.Argument,
      I.Yields (arguments env args) fun args => I.parts (Semantic.argumentParts args)
  | [] => yields_pure parts_nil
  | ⟨span, mode, value⟩ :: rest => by
    rw [arguments]
    refine (yields_expr henv value).bind fun value hvalue => ?_
    refine (yields_arguments henv rest).bind fun rest hrest => yields_pure ?_
    exact parts_append.mpr ⟨hvalue, hrest⟩

theorem yields_typeExpr (henv : I.table env.table) :
    ∀ t : Syntax.TypeExpr, I.Yields (typeExpr env t) I.type
  | ⟨span, .boolean⟩ | ⟨span, .character⟩ | ⟨span, .integer⟩ | ⟨span, .real⟩ | ⟨span, .file⟩
  | ⟨span, .string⟩ => by
    rw [typeExpr]
    exact yields_pure (I.type_basic rfl)
  | ⟨span, .boundedString length⟩ => by
    rw [typeExpr]
    refine (yields_expr henv length).bind fun length hlength => ?_
    refine (yields_length (value_of_parts hlength)).bind fun n? hn => ?_
    cases n? with
    | some n => exact yields_pure (I.type_boundedString (hn.2 n rfl).1 (hn.2 n rfl).2)
    | none => exact yields_pure (I.type_unknown span (hn.1 rfl))
  | ⟨span, .named name⟩ => by
    rw [typeExpr]
    split
    · rename_i target hlookup
      exact yields_pure (I.type_aliased _ (type_of_lookupAlias henv hlookup))
    · refine (yields_report _ _).bind fun _ hexcused => yields_pure (I.type_unknown span ?_)
      exact hexcused rfl
  | ⟨span, .array item lengths⟩ => by
    rw [typeExpr]
    refine (yields_typeExpr henv item).bind fun item hitem => ?_
    refine (yields_arrayLengths henv lengths).bind fun lengths? hlengths => ?_
    cases lengths? with
    | some lengths => exact yields_pure (type_arrayOf hitem (hlengths.2 lengths rfl))
    | none => exact yields_pure (I.type_unknown span (hlengths.1 rfl))
  | ⟨span, .struct components⟩ => by
    rw [typeExpr]
    have hempty : I.components [] := ⟨by simp, List.nodup_nil⟩
    refine (yields_structComponents henv hempty components).bind fun components hcomponents => ?_
    exact yields_pure (I.type_struct hcomponents.1 hcomponents.2)

theorem yields_arrayLengths (henv : I.table env.table) :
    ∀ lengths : List Syntax.Expr, I.Yields (arrayLengths env lengths) fun ns? =>
      (ns? = none → I.excused) ∧
        ∀ ns : List Nat, ns? = some ns → ∀ n ∈ ns, 0 < n ∧ (n : Int) ≤ Int32.maxValue.toInt
  | [] => yields_pure ⟨by simp, by simp⟩
  | e :: rest => by
    rw [arrayLengths]
    refine (yields_expr henv e).bind fun e he => ?_
    refine (yields_length (value_of_parts he)).bind fun n? hn => ?_
    refine (yields_arrayLengths henv rest).bind fun ns? hns => ?_
    cases n? with
    | none => exact yields_pure ⟨fun _ => hn.1 rfl, by simp⟩
    | some n =>
      cases ns? with
      | none => exact yields_pure ⟨fun _ => hns.1 rfl, by simp⟩
      | some ns =>
        refine yields_pure ⟨by simp, ?_⟩
        rintro _ ⟨⟩ m hm
        obtain rfl | hm := List.mem_cons.mp hm
        · exact hn.2 m rfl
        · exact hns.2 ns rfl m hm

theorem yields_structComponents (henv : I.table env.table) {cs : List (String × Ty)}
    (hcs : I.components cs) :
    ∀ decls : List Syntax.ComponentDecl, I.Yields (structComponents env cs decls) I.components
  | [] => yields_pure hcs
  | ⟨span, names, type⟩ :: rest => by
    rw [structComponents]
    refine (yields_typeExpr henv type).bind fun type htype => ?_
    refine (yields_addComponents htype names hcs).bind fun cs hcs => ?_
    exact yields_structComponents henv hcs rest

end

theorem yields_exprs (henv : I.table env.table) (es : List Syntax.Expr) :
    I.Yields (exprs env es) fun es => I.parts (es.flatMap Semantic.Expr.parts) := by
  induction es with
  | nil => exact yields_pure parts_nil
  | cons e rest ih =>
    refine (yields_expr henv e).bind fun e he => ih.bind fun rest hrest => yields_pure ?_
    exact parts_append.mpr ⟨he, hrest⟩

end Expressions

/-! ### Directives -/

section Initializers

variable {env : Env}

theorem yields_assertion (condition : Semantic.Expr) (message : Option Semantic.Expr)
    (span : Span) : I.Yields (assertion condition message span) fun _ => True := by
  unfold assertion
  split
  · exact yields_pure trivial
  · exact yields_report_true _ span
  · exact (yields_notConstant _ _).imp fun _ _ => trivial

theorem yields_assertionMessage (henv : I.table env.table) (message : Option Syntax.Expr) :
    I.Yields (assertionMessage env message) fun m => I.parts (Semantic.optionalParts m) := by
  cases message with
  | none => exact yields_pure parts_nil
  | some message =>
    refine (yields_expr henv message).bind fun message hmessage => ?_
    refine (yields_convertible message .string).bind fun _ _ => yields_pure ?_
    simpa [Semantic.optionalParts] using hmessage

theorem yields_directive (henv : I.table env.table) (d : Syntax.Directive) :
    I.Yields (directive env d) fun d => I.parts d.parts := by
  unfold directive
  refine (yields_report_true _ d.span).bind fun _ _ => ?_
  split
  · rename_i condition message _
    refine (yields_expr henv condition).bind fun condition hcondition => ?_
    refine (yields_convertible condition .boolean).bind fun isBoolean _ => ?_
    refine (yields_assertionMessage henv message).bind fun message hmessage => ?_
    have hparts := parts_append.mpr ⟨hcondition, hmessage⟩
    split
    · exact (yields_assertion condition message d.span).bind fun _ _ => yields_pure hparts
    · exact yields_pure hparts
  · rename_i e _
    refine (yields_expr henv e).bind fun e he => ?_
    exact (yields_report_true _ d.span).bind fun _ _ => yields_pure he
  · rename_i type _
    refine (yields_typeExpr henv type).bind fun type htype => ?_
    refine (yields_report_true _ d.span).bind fun _ _ => yields_pure ?_
    exact parts_cons.mpr ⟨htype, parts_nil⟩

theorem yields_directives (henv : I.table env.table) (ds : List Syntax.Directive) :
    I.Yields (directives env ds) fun ds => I.parts (ds.flatMap Semantic.Directive.parts) := by
  induction ds with
  | nil => exact yields_pure parts_nil
  | cons d rest ih =>
    refine (yields_directive henv d).bind fun d hd => ih.bind fun rest hrest => yields_pure ?_
    exact parts_append.mpr ⟨hd, hrest⟩

/-! ### Designators -/

theorem yields_designator (henv : I.table env.table) (d : Syntax.Designator) :
    I.Yields (designator env d) fun d => I.parts d.parts := by
  unfold designator
  split
  · rename_i e _
    exact (yields_expr henv e).bind fun e he => yields_pure he
  · exact yields_pure parts_nil

theorem yields_designators (henv : I.table env.table) (ds : List Syntax.Designator) :
    I.Yields (designators env ds) fun ds => I.parts (ds.flatMap Semantic.Designator.parts) := by
  induction ds with
  | nil => exact yields_pure parts_nil
  | cons d rest ih =>
    refine (yields_designator henv d).bind fun d hd => ih.bind fun rest hrest => yields_pure ?_
    exact parts_append.mpr ⟨hd, hrest⟩

theorem yields_designatorError (aggregate : Ty) (span : Span) (error : DesignatorError) :
    I.Yields (designatorError aggregate span error) fun _ => I.excused := by
  cases error with
  | indexOutOfBounds => exact (yields_report _ span).imp fun _ hexcused => hexcused rfl
  | noSuchComponent | wrongAggregate =>
    exact (yields_report _ span).imp fun _ hexcused => hexcused rfl

/-- Where a designator selects nothing, an error accounts for it. -/
theorem yields_select {aggregate : Ty} (haggregate : I.type aggregate) {d : Semantic.Designator}
    (hd : I.parts d.parts) :
    I.Yields (select aggregate d) fun slot? => slot? = none → I.excused := by
  cases d with
  | index site e =>
    rw [select]
    split
    · rename_i hunknown
      exact yields_pure fun _ => I.excused_of_type haggregate hunknown
    split
    · refine (yields_report _ _).bind fun _ hexcused => yields_pure fun _ => ?_
      exact hexcused rfl
    split
    · refine (yields_notConstant_excused (value_of_parts hd) _).bind fun _ hexcused => ?_
      exact yields_pure fun _ => hexcused
    split
    · exact yields_pure (by simp)
    · refine (yields_designatorError _ _ _).bind fun _ hexcused => ?_
      exact yields_pure fun _ => hexcused
  | component site name =>
    rw [select]
    split
    · rename_i hunknown
      exact yields_pure fun _ => I.excused_of_type haggregate hunknown
    split
    · exact yields_pure (by simp)
    · refine (yields_report _ _).bind fun _ hexcused => yields_pure fun _ => ?_
      exact hexcused rfl
    · refine (yields_designatorError _ _ _).bind fun _ hexcused => ?_
      exact yields_pure fun _ => hexcused

theorem type_reach {t u : Ty} {steps : List Step} (ht : I.type t)
    (hreach : t.reach? steps = some u) : I.type u := by
  induction steps generalizing t with
  | nil =>
    cases hreach
    exact ht
  | cons step rest ih =>
    rw [Ty.reach?, Option.bind_eq_some_iff] at hreach
    obtain ⟨inner, hslot, hrest⟩ := hreach
    exact ih (I.type_slot ht hslot) hrest

/-- Where designators lead to no place, an error accounts for it. -/
theorem yields_follow (henv : I.table env.table) (ds : List Syntax.Designator)
    {place : Option (List Step × Ty)} (hnone : place = none → I.excused)
    (htype : ∀ start, place = some start → I.type start.2) :
    I.Yields (follow env place ds) fun r =>
      I.parts (r.1.flatMap Semantic.Designator.parts) ∧ (r.2 = none → I.excused) := by
  induction ds generalizing place with
  | nil =>
    rw [follow]
    exact yields_pure ⟨parts_nil, hnone⟩
  | cons d rest ih =>
    cases place with
    | none =>
      rw [follow_none]
      refine (yields_designators henv _).bind fun nodes hnodes => yields_pure ⟨hnodes, hnone⟩
    | some place =>
      obtain ⟨steps, type⟩ := place
      have htype := htype (steps, type) rfl
      rw [follow]
      refine (yields_designator henv d).bind fun node hnode => ?_
      refine (yields_select htype hnode).bind_result fun hslot => ?_
      refine (ih (fun h => hslot (Option.map_eq_none_iff.mp h)) ?_).bind fun r hr => yields_pure ?_
      · intro next hsome
        obtain ⟨slot, hselect, rfl⟩ := Option.map_eq_some_iff.mp hsome
        exact I.type_slot htype (slot?_of_select hselect)
      · exact ⟨parts_append.mpr ⟨hnode, hr.1⟩, hr.2⟩

/-- The position is one in `target`; without one, an error accounts for it. -/
def locates (I : Invariant) (target : Ty) (position : Option Path) : Prop :=
  (position = none → I.excused) ∧ ∀ path, position = some path → path.ValidIn target

/-- Where an item has no position, an error accounts for it. -/
theorem yields_position_excused (henv : I.table env.table) {target : Ty} (htarget : I.type target)
    (cursor : Option Path) (span : Span) (ds : List Syntax.Designator) :
    I.Yields (position env target cursor span ds) fun r =>
      I.parts (r.1.flatMap Semantic.Designator.parts) ∧ (r.2 = none → I.excused) := by
  cases ds with
  | nil =>
    rw [position_nil]
    dsimp only
    split
    · refine (yields_report _ span).bind fun _ hexcused => yields_pure ⟨parts_nil, fun _ => ?_⟩
      exact hexcused rfl
    · rename_i hsome
      refine yields_pure ⟨parts_nil, fun hnone => ?_⟩
      exact absurd (Option.isNone_iff_eq_none.mpr hnone) hsome
  | cons d rest =>
    have hfollow : I.Yields (follow env (some ([], target)) (d :: rest)) _ :=
      yields_follow henv (d :: rest) nofun fun start hstart => Option.some.inj hstart ▸ htarget
    refine hfollow.bind_result fun hr => yields_pure ⟨hr.1, fun hnone => ?_⟩
    cases hplace : (follow env (some ([], target)) (d :: rest)).result.2 with
    | none => exact hr.2 hplace
    | some place =>
      have hsteps := steps_follow_ne_nil env hplace
      rw [hplace, Option.bind_some] at hnone
      obtain ⟨steps, leaf⟩ := place
      cases steps with
      | nil => exact absurd rfl hsteps
      | cons first others => cases hnone

theorem yields_position (henv : I.table env.table) {target : Ty} (htarget : I.type target)
    (cursor : Option Path) (span : Span) (ds : List Syntax.Designator) :
    I.Yields (position env target cursor span ds) fun r =>
      I.parts (r.1.flatMap Semantic.Designator.parts) ∧ I.locates target r.2 := by
  intro herrors
  obtain ⟨hevents, hparts, hnone⟩ := yields_position_excused henv htarget cursor span ds herrors
  refine ⟨hevents, hparts, hnone, fun path hpath => ?_⟩
  rw [position_eq_position?] at hpath
  exact validIn_of_position? (I.distinct_of_type htarget) hpath

/-! ### Initializers -/

theorem type_itemType {target : Ty} (htarget : I.type target) {position : Option Path} (span : Span)
    (hposition : I.locates target position) : I.type (itemType position span) := by
  cases position with
  | none => exact I.type_unknown span (hposition.1 rfl)
  | some path => exact type_reach htarget (hposition.2 path rfl)

/-- What is kept of an aggregate of type `target` while items are written into it. -/
def filling (I : Invariant) (target : Ty) (v : Value) : Prop := I.aggregate v ∧ v.type = target

theorem filling_place {target : Ty} {v item : Value} {position : Option Path} (span : Span)
    (hv : I.filling target v) (hposition : I.locates target position)
    (hitem : I.stores item (itemType position span)) :
    I.filling target (place v position item) := by
  cases position with
  | none => exact hv
  | some path =>
    obtain ⟨haggregate, rfl⟩ := hv
    refine ⟨I.aggregate_set haggregate (hposition.2 path rfl) hitem, ?_⟩
    simp [place, Path.set, Path.steps, Value.set]

/-- Of the value that an initializer makes, the invariant is kept together with the items. -/
theorem filled_of_initializer {target : Ty} (htarget : I.type target) {init : Syntax.Initializer}
    {site : Semantic.Site} {v : Value} {items : List Semantic.Item} (htype : v.type = target)
    (hv : I.aggregate v) (hitems : I.parts (Semantic.itemParts items))
    (hinit : (initializer env target init).result = .braced site v items) : I.filled v items := by
  subst htype
  refine ⟨hv, fun e he => ?_, I.distinct_of_type htarget, env, site, init, hinit⟩
  exact hitems _ (Semantic.mem_itemParts_of_mem_itemSources items he)

mutual

theorem yields_initializer (henv : I.table env.table) {target : Ty} (htarget : I.type target) :
    ∀ init : Syntax.Initializer, I.Yields (initializer env target init) fun init =>
      I.parts init.parts ∧ I.stores init.value target
  | .expr e => by
    rw [initializer]
    refine (yields_expr henv e).bind fun e he => ?_
    refine (yields_assignable e target).bind fun _ hassignable => yields_pure ⟨he, ?_⟩
    exact I.stores_value (value_of_parts he) hassignable
  | .braced ⟨span, items⟩ => by
    rw [initializer]
    split
    · rename_i haggregate
      have hinitial : I.filling target target.initial :=
        ⟨I.aggregate_initial htarget haggregate, Ty.type_initial target⟩
      refine (yields_placedItems henv htarget hinitial none items).bind_result fun hr => ?_
      obtain ⟨⟨hvalue, htype⟩, hitems⟩ := hr
      have hfilled := filled_of_initializer htarget htype hvalue hitems
        (result_initializer_aggregate env haggregate span items)
      have hstores := I.stores_aggregate hvalue
      rw [htype] at hstores
      exact yields_pure ⟨parts_cons.mpr ⟨hfilled, hitems⟩, hstores⟩
    · rename_i haggregate
      refine yields_unless_bind (fun hunknown => I.excused_of_type htarget hunknown)
        (fun _ => (yields_report _ span).imp fun _ hexcused => hexcused rfl) fun _ hexcused => ?_
      refine (yields_freeItems henv hexcused items).bind_result fun hitems => ?_
      have hinvalid : I.aggregate (.invalid target) := I.aggregate_invalid target hexcused
      have hfilled := filled_of_initializer htarget rfl hinvalid hitems
        (result_initializer_free env haggregate span items)
      exact yields_pure ⟨parts_cons.mpr ⟨hfilled, hitems⟩, I.stores_aggregate hinvalid⟩

theorem yields_placedItems (henv : I.table env.table) {target : Ty} (htarget : I.type target)
    {v : Value} (hv : I.filling target v) (cursor : Option Path) :
    ∀ items : List Syntax.Item, I.Yields (placedItems env target v cursor items) fun r =>
      I.filling target r.1 ∧ I.parts (Semantic.itemParts r.2)
  | [] => yields_pure ⟨hv, parts_nil⟩
  | .directive d :: rest => by
    rw [placedItems]
    refine (yields_directive henv d).bind fun d hd => ?_
    refine (yields_placedItems henv htarget hv cursor rest).bind fun r hr => yields_pure ?_
    exact ⟨hr.1, parts_append.mpr ⟨hd, hr.2⟩⟩
  | .value ⟨span, designators, value⟩ :: rest => by
    rw [placedItems]
    refine (yields_position henv htarget cursor span designators).bind fun p hp => ?_
    have hitem : I.type (itemType p.2 span) := type_itemType htarget span hp.2
    refine (yields_initializer henv hitem value).bind fun value hvalue => ?_
    have hplaced := filling_place span hv hp.2 hvalue.2
    refine (yields_placedItems henv htarget hplaced _ rest).bind fun r hr => yields_pure ?_
    exact ⟨hr.1, parts_append.mpr ⟨parts_append.mpr ⟨hp.1, hvalue.1⟩, hr.2⟩⟩

theorem yields_freeItems (henv : I.table env.table) (hexcused : I.excused) :
    ∀ items : List Syntax.Item,
      I.Yields (freeItems env items) fun items => I.parts (Semantic.itemParts items)
  | [] => yields_pure parts_nil
  | .directive d :: rest => by
    rw [freeItems]
    refine (yields_directive henv d).bind fun d hd => ?_
    refine (yields_freeItems henv hexcused rest).bind fun rest hrest => yields_pure ?_
    exact parts_append.mpr ⟨hd, hrest⟩
  | .value ⟨span, designators, value⟩ :: rest => by
    rw [freeItems]
    refine (yields_designators henv designators).bind fun ds hds => ?_
    have hunknown := I.type_unknown span hexcused
    refine (yields_initializer henv hunknown value).bind fun value hvalue => ?_
    refine (yields_freeItems henv hexcused rest).bind fun rest hrest => yields_pure ?_
    exact parts_append.mpr ⟨parts_append.mpr ⟨hds, hvalue.1⟩, hrest⟩

end

end Initializers

end Pseudocode.Invariant
