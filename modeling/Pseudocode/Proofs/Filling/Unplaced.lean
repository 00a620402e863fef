import Pseudocode.Proofs.Analysis.Undefined
import Pseudocode.Proofs.Directive.Observers
import Pseudocode.Proofs.Filling.Positional

/-!
# Items without a place

An item is without a place if one of its designators selects nothing, or if it has none and the
aggregate is used up. It is analysed for an unknown type, writes nothing and leaves the cursor where
it was, so the items after it are treated as if it were not there. The only trace of it in what is
reported of them is the advice about overflows.
-/

namespace Pseudocode

/-! ### Diagnostics -/

namespace Event

/-- The diagnostics of events, which overflows came before. -/
def diagnostics (source : Option String) (overflows : List Span) (es : List Event) :
    List Diagnostic :=
  (findings overflows es).map (Finding.diagnostic source)

theorem diagnostics_append (source : Option String) (overflows : List Span)
    (es others : List Event) :
    diagnostics source overflows (es ++ others) =
      diagnostics source overflows es ++
        diagnostics source (overflowsAfter overflows es) others := by
  rw [diagnostics, findings_append, List.map_append]
  rfl

/-- What overflowed before shows in the advice only. -/
theorem plain_diagnostics (source : Option String) (overflows overflows' : List Span)
    (es : List Event) :
    (diagnostics source overflows es).map Diagnostic.plain =
      (diagnostics source overflows' es).map Diagnostic.plain := by
  have hle (before after : List Span) :
      ((diagnostics source before es).map Diagnostic.plain).Sublist
        ((diagnostics source after es).map Diagnostic.plain) := by
    rw [diagnostics, diagnostics, List.map_map, List.map_map]
    exact plain_findings_sublist source (List.Sublist.refl es) before after
  exact (hle overflows overflows').antisymm (hle overflows' overflows)

/-- The events `many` are the events `few` with at most one more among them. -/
def OneMoreAtMost (few many : List Event) : Prop :=
  ∃ front extra back, few = front ++ back ∧ many = front ++ extra ++ back ∧ extra.length ≤ 1

end Event

namespace Analysis

open Event (OneMoreAtMost diagnostics)

/-- Where the cursor stands after the items. -/
def cursorAfter (env : Env) (target : Ty) (cursor : Option Path) : List Syntax.Item → Option Path
  | [] => cursor
  | .directive _ :: rest => cursorAfter env target cursor rest
  | .value item :: rest =>
    cursorAfter env target
      ((position env target cursor item.span item.designators).result.2.or cursor) rest

/-- There is no place for the item. -/
inductive Unplaced (env : Env) (target : Ty) (cursor : Option Path) (item : Syntax.ItemValue) : Prop
  /-- One of the designators selects nothing in the type that those before it lead to. -/
  | misdirected (before : List Syntax.Designator) (d : Syntax.Designator)
      (after : List Syntax.Designator) (steps : List Step) (type : Ty)
      (hdesignators : item.designators = before ++ d :: after)
      (hbefore : (follow env (some ([], target)) before).result.2 = some (steps, type))
      (hnone : (select type (designator env d).result).result = none)
  /-- There are no designators, and no position after the cursor. -/
  | excess (hdesignators : item.designators = [])
      (hnext : cursor.elim (Path.start? target) (·.advance? target) = none)

variable {env : Env}

/-! ### Designators -/

/-- A designator is reported at most once, and not at all if it selects something. -/
theorem events_select (t : Ty) (node : Semantic.Designator) :
    (select t node).events.length ≤ 1 ∧
      ∀ slot, (select t node).result = some slot → (select t node).events = [] := by
  cases node with
  | index site e =>
    rw [select]
    split
    · simp
    · split
      · simp
      · split
        · simp only [Check.notConstant]
          split <;> simp
        · split
          · simp
          · rename_i error _
            cases error <;> simp [designatorError]
  | component site name =>
    rw [select]
    split
    · simp
    · split
      · simp
      · simp
      · rename_i error _ _
        cases error <;> simp [designatorError]

/-- Once a designator selects nothing, the others are analysed and that is all. -/
theorem follow_misdirected {place : List Step × Ty} {before : List Syntax.Designator}
    {d : Syntax.Designator} (after : List Syntax.Designator) {steps : List Step} {type : Ty}
    (hbefore : (follow env (some place) before).result.2 = some (steps, type))
    (hnone : (select type (designator env d).result).result = none) :
    (follow env (some place) (before ++ d :: after)).result.2 = none ∧
    (follow env (some place) (before ++ d :: after)).events =
      (designators env before).events ++ (designator env d).events ++
        (select type (designator env d).result).events ++ (designators env after).events := by
  induction before generalizing place with
  | nil =>
    rw [follow] at hbefore
    cases hbefore
    rw [List.nil_append, follow]
    simp [hnone, follow_none, designators]
  | cons x before ih =>
    obtain ⟨steps', type'⟩ := place
    rw [follow] at hbefore
    simp only [Traced.result_bind, Traced.result_pure] at hbefore
    cases hslot : (select type' (designator env x).result).result with
    | none =>
      rw [hslot, Option.map_none, follow_none] at hbefore
      cases hbefore
    | some slot =>
      -- A designator that selects something has no report between its own events and the rest.
      have hsilent := (events_select type' (designator env x).result).2 slot hslot
      rw [hslot, Option.map_some] at hbefore
      obtain ⟨hresult, hevents⟩ := ih hbefore
      rw [List.cons_append, follow]
      simp only [Traced.result_bind, Traced.events_bind, Traced.result_pure, Traced.events_pure,
        hslot, Option.map_some, hsilent]
      refine ⟨hresult, ?_⟩
      rw [hevents]
      simp [designators]

theorem events_designators_cons (d : Syntax.Designator) (ds : List Syntax.Designator) :
    (designators env (d :: ds)).events =
      (designator env d).events ++ (designators env ds).events := by
  simp [designators]

variable {target : Ty} {cursor : Option Path} {item : Syntax.ItemValue}

theorem position_designated (target : Ty) (cursor : Option Path) (h : item.designators ≠ []) :
    (position env target cursor item.span item.designators).result.2 =
      (follow env (some ([], target)) item.designators).result.2.bind
        (fun place => Path.ofSteps? place.1 place.2) ∧
    (position env target cursor item.span item.designators).events =
      (follow env (some ([], target)) item.designators).events := by
  have hsome : item.designators.isEmpty = false := by simpa using h
  simp [position, hsome]

/-- An item without a place is for no position. At most one report is made on this account. -/
theorem Unplaced.position (h : Unplaced env target cursor item) :
    (position env target cursor item.span item.designators).result.2 = none ∧
      OneMoreAtMost (designators env item.designators).events
        (position env target cursor item.span item.designators).events := by
  cases h with
  | misdirected before d after steps type hdesignators hbefore hnone =>
    have hsome : item.designators ≠ [] := by simp [hdesignators]
    obtain ⟨hresult, hevents⟩ := position_designated target cursor hsome
    obtain ⟨hfollow, htrace⟩ := follow_misdirected after hbefore hnone
    rw [hresult, hevents, hdesignators, hfollow, htrace, events_designators_append,
      events_designators_cons, ← List.append_assoc]
    refine ⟨rfl, ?_⟩
    exact ⟨_, _, _, rfl, rfl, (events_select type (designator env d).result).1⟩
  | excess hdesignators hnext =>
    rw [hdesignators, position_nil, hnext]
    exact ⟨rfl, [], [.found ⟨.excessItem, item.span⟩], [], rfl, rfl, Nat.le_refl 1⟩

/-! ### Items -/

/-- Items after others go on from where those have led. -/
theorem placedItems_append (env : Env) (target : Ty) (aggregate : Value) (cursor : Option Path)
    (items others : List Syntax.Item) :
    let early := placedItems env target aggregate cursor items
    let late := placedItems env target early.result.1 (cursorAfter env target cursor items) others
    (placedItems env target aggregate cursor (items ++ others)).result =
      (late.result.1, early.result.2 ++ late.result.2) ∧
    (placedItems env target aggregate cursor (items ++ others)).events =
      early.events ++ late.events := by
  induction items generalizing aggregate cursor with
  | nil => exact ⟨rfl, rfl⟩
  | cons head rest ih =>
    cases head with
    | directive d =>
      obtain ⟨hresult, hevents⟩ := ih aggregate cursor
      rw [List.cons_append, placedItems, placedItems, cursorAfter]
      simp only [Traced.result_bind, Traced.events_bind, Traced.result_pure, Traced.events_pure,
        hresult, hevents]
      simp
    | value item =>
      obtain ⟨span, ds, value⟩ := item
      obtain ⟨hresult, hevents⟩ := ih
        (place aggregate (position env target cursor span ds).result.2
          (initializer env (itemType (position env target cursor span ds).result.2 span)
            value).result.value)
        ((position env target cursor span ds).result.2.or cursor)
      rw [List.cons_append, placedItems, placedItems, cursorAfter]
      simp only [Traced.result_bind, Traced.events_bind, Traced.result_pure, Traced.events_pure,
        hresult, hevents]
      simp

/-- The items after one without a place find the aggregate and the cursor as it found them. -/
theorem placedItems_unplaced (h : Unplaced env target cursor item) (aggregate : Value)
    (rest : List Syntax.Item) :
    let own := Analysis.position env target cursor item.span item.designators
    let value := initializer env (.unknown item.span) item.value
    let late := placedItems env target aggregate cursor rest
    (placedItems env target aggregate cursor (.value item :: rest)).result =
      (late.result.1, .value ⟨env.site item.span, own.result.1, value.result⟩ :: late.result.2) ∧
    (placedItems env target aggregate cursor (.value item :: rest)).events =
      own.events ++ value.events ++ late.events := by
  have hnone := h.position.1
  obtain ⟨span, ds, value⟩ := item
  rw [placedItems]
  simp only [Traced.result_bind, Traced.events_bind, Traced.result_pure, Traced.events_pure, hnone,
    itemType, place, Option.none_or, List.append_nil, List.append_assoc, and_self]

/-- **An item without a place is passed over.** With it or without it, the aggregate and the nodes
of the other items are the same, and so are the events of the other items. Of the items before it
the same is reported, and of the items after it the same up to advice. For the item itself, at most
one event is added to those of its designators and of its value. -/
theorem unplaced_item_is_passed_over (env : Env) {target : Ty}
    (haggregate : target.isAggregate = true) (span : Span) (before after : List Syntax.Item)
    {item : Syntax.ItemValue}
    (hitem : Unplaced env target (cursorAfter env target none before) item) :
    let early := placedItems env target target.initial none before
    let late := placedItems env target early.result.1 (cursorAfter env target none before) after
    let own := position env target (cursorAfter env target none before) item.span item.designators
    let value := initializer env (.unknown item.span) item.value
    let bare := initializer env target (.braced ⟨span, before ++ after⟩)
    let full := initializer env target (.braced ⟨span, before ++ .value item :: after⟩)
    bare.result = .braced (env.site span) late.result.1 (early.result.2 ++ late.result.2) ∧
    full.result = .braced (env.site span) late.result.1
      (early.result.2 ++
        .value ⟨env.site item.span, own.result.1, value.result⟩ :: late.result.2) ∧
    bare.events = early.events ++ late.events ∧
    full.events = early.events ++ (own.events ++ value.events) ++ late.events ∧
    OneMoreAtMost (designators env item.designators).events own.events ∧
    ∀ source overflows, ∃ met met',
      diagnostics source overflows bare.events =
        diagnostics source overflows early.events ++ diagnostics source met late.events ∧
      diagnostics source overflows full.events =
        diagnostics source overflows early.events ++
          diagnostics source met (own.events ++ value.events) ++
          diagnostics source met' late.events ∧
      (diagnostics source met' late.events).map Diagnostic.plain =
        (diagnostics source met late.events).map Diagnostic.plain := by
  intro early late own value bare full
  have hbare : bare = _ := initializer_braced haggregate span (before ++ after)
  have hfull : full = _ := initializer_braced haggregate span (before ++ .value item :: after)
  obtain ⟨hresult, hevents⟩ := placedItems_append env target target.initial none before after
  obtain ⟨hresult', hevents'⟩ :=
    placedItems_append env target target.initial none before (.value item :: after)
  obtain ⟨hrest, htrace⟩ := placedItems_unplaced hitem early.result.1 after
  rw [hrest] at hresult'
  rw [htrace, ← List.append_assoc] at hevents'
  have hbareEvents : bare.events = early.events ++ late.events := by
    rw [hbare, Traced.events_map, hevents]
  have hfullEvents : full.events =
      early.events ++ (own.events ++ value.events) ++ late.events := by
    rw [hfull, Traced.events_map, hevents']
  refine ⟨?_, ?_, hbareEvents, hfullEvents, hitem.position.2, fun source overflows => ?_⟩
  · rw [hbare, Traced.result_map, hresult]
  · rw [hfull, Traced.result_map, hresult']
  · rw [hbareEvents, hfullEvents, Event.diagnostics_append, Event.diagnostics_append,
      Event.diagnostics_append]
    exact ⟨_, _, rfl, rfl, Event.plain_diagnostics source _ _ late.events⟩

/-- An item for the third element of an array. -/
def thirdElement : Syntax.ItemValue :=
  ⟨⟨3, 8⟩, [⟨⟨3, 3⟩, .index ⟨⟨4⟩, ⟨4, 1⟩, .literal (.integer 3)⟩⟩],
    .expr ⟨⟨10⟩, ⟨10, 1⟩, .literal (.integer 9)⟩⟩

/-- Among the items for two integers, one for a third integer is reported and makes no difference
to the array. -/
theorem third_element_is_passed_over :
    let env : Env := ⟨.initial, ScopeTable.root⟩
    let couple : Ty := .array .integer 2
    let bare := initializer env couple (.braced ⟨⟨0, 14⟩, [numberItem 1 4, numberItem 12 5]⟩)
    let full := initializer env couple
      (.braced ⟨⟨0, 14⟩, [numberItem 1 4, .value thirdElement, numberItem 12 5]⟩)
    couple.isAggregate = true ∧
    Unplaced env couple (cursorAfter env couple none [numberItem 1 4]) thirdElement ∧
    full.result.value = bare.result.value ∧
    bare.result.value.slot? (.index 1) = some (.integer 5) ∧
    Event.findings [] bare.events = [] ∧
    Event.findings [] full.events = [⟨.indexOutOfBounds 3 2, ⟨3, 3⟩⟩] := by
  intro env couple bare full
  have hitem : Unplaced env couple (cursorAfter env couple none [numberItem 1 4]) thirdElement :=
    .misdirected [] _ [] [] couple rfl rfl rfl
  have haggregate : couple.isAggregate = true := rfl
  obtain ⟨hbare, hfull, hbareEvents, hfullEvents, -, -⟩ := unplaced_item_is_passed_over env
    haggregate ⟨0, 14⟩ [numberItem 1 4] [numberItem 12 5] hitem
  refine ⟨haggregate, hitem, ?_, rfl, ?_, ?_⟩
  · exact (congrArg Semantic.Initializer.value hfull).trans
      (congrArg Semantic.Initializer.value hbare).symm
  · exact (congrArg (Event.findings []) hbareEvents).trans rfl
  · exact (congrArg (Event.findings []) hfullEvents).trans rfl

end Analysis

end Pseudocode
