import Pseudocode.Proofs.Analysis.Access
import Pseudocode.Proofs.Analysis.Soundness

/-!
# Reading back what an initializer wrote

An initializer writes to the parts of an aggregate by designators, a program reads them by lvalues.
Both go by the same chains of indices and component names, the one along the type of the aggregate
and the other along its value. Main statement: the two agree on which chains lead anywhere and on
where they lead, so what was last written by designators is what the lvalue reads.
-/

namespace Pseudocode

/-- Neither place is around or inside the other. -/
def Path.Apart (p q : Path) : Prop := ¬ p.steps <+: q.steps ∧ ¬ q.steps <+: p.steps

/-- The selector that a designator spells out. -/
def Syntax.Designator.selector? : Designator → Option Selector
  | ⟨_, .index ⟨_, _, .literal (.integer n)⟩⟩ => some (.index n)
  | ⟨_, .component name⟩ => some (.component name.text)
  | _ => none

namespace Analysis

open Syntax (Access)

/-! ### Designators -/

section Designators

variable {t inner leaf : Ty} {steps : List Step} {ds : List Syntax.Designator}
  {chain : List Selector}

theorem select_literal (site site' : Semantic.Site) {n : Int32} (ht : t.isUnknown = false) :
    select t (.index site ⟨site', .integer n, .literal (.integer n)⟩) =
      match t.indexStep n with
      | .ok slot => pure (some slot)
      | .error error => do
        designatorError t site.span error
        return none := by
  rw [select, if_neg (by simp [ht])]
  rfl

theorem result_select (env : Env) {d : Syntax.Designator} {s : Selector} {slot : Step × Ty}
    (hd : d.selector? = some s) (ht : t.Resolved) (hselect : t.select s = .ok slot) :
    (select t (designator env d).result).result = some slot := by
  unfold Syntax.Designator.selector? at hd
  split at hd
  · rename_i span id span' n
    cases hd
    rw [Ty.select] at hselect
    have hnode : (designator env ⟨span, .index ⟨id, span', .literal (.integer n)⟩⟩).result =
        .index (env.site span) ⟨env.site span', .integer n, .literal (.integer n)⟩ := by
      rw [designator, Traced.result_bind, expr]
      rfl
    rw [hnode, select_literal _ _ ht.isUnknown_eq_false, hselect]
    rfl
  · rename_i span name
    cases hd
    rw [Ty.select] at hselect
    simp only [designator, select, Traced.result_pure, ht.isUnknown_eq_false, hselect]
    rfl
  · cases hd

/-- Designators lead where their selectors lead in the type. -/
theorem result_follow (env : Env) (before : List Step)
    (hds : ds.map Syntax.Designator.selector? = chain.map some) (ht : t.Resolved)
    (hresolve : t.resolve chain = .ok (steps, leaf)) :
    (follow env (some (before, t)) ds).result.2 = some (before ++ steps, leaf) := by
  induction chain generalizing ds t before steps with
  | nil =>
    rw [List.map_nil, List.map_eq_nil_iff] at hds
    subst hds
    cases hresolve
    rw [follow, List.append_nil]
    rfl
  | cons s rest ih =>
    rw [List.map_cons, List.map_eq_cons_iff] at hds
    obtain ⟨d, ds', rfl, hd, hds'⟩ := hds
    obtain ⟨step, inner, steps', hselect, hrest, rfl⟩ := Ty.resolve_cons_eq_ok hresolve
    have hinner := ht.slot? (Ty.slot?_of_select hselect)
    have hstep := result_select env hd ht hselect
    rw [follow]
    simp only [Traced.result_bind, hstep, Option.map_some, Traced.result_pure]
    rw [ih _ hds' hinner hrest, List.append_assoc]
    rfl

theorem result_position (env : Env) (cursor : Option Path) (span : Span) {p : Path}
    (hds : ds.map Syntax.Designator.selector? = chain.map some) (ht : t.Resolved)
    (hresolve : t.resolve chain = .ok (steps, leaf)) (hp : Path.ofSteps? steps leaf = some p) :
    (position env t cursor span ds).result.2 = some p := by
  have hfollow := result_follow env [] hds ht hresolve
  cases ds with
  | nil =>
    rw [follow] at hfollow
    cases hfollow
    cases hp
  | cons d ds' =>
    unfold position
    simp only [List.isEmpty_cons, Bool.false_eq_true, if_false, Traced.result_bind, hfollow]
    exact hp

end Designators

/-! ### Items -/

/-- The places that the items are put at, in order. -/
def writes (env : Env) (target : Ty) (cursor : Option Path) : List Syntax.Item → List Path
  | [] => []
  | .directive _ :: rest => writes env target cursor rest
  | .value item :: rest =>
    let place := (position env target cursor item.span item.designators).result.2
    place.toList ++ writes env target (place.or cursor) rest

theorem result_placedItems_directive (env : Env) (target : Ty) (aggregate : Value)
    (cursor : Option Path) (d : Syntax.Directive) (rest : List Syntax.Item) :
    (placedItems env target aggregate cursor (.directive d :: rest)).result.1 =
      (placedItems env target aggregate cursor rest).result.1 := by
  rw [placedItems]
  rfl

theorem result_placedItems_value (env : Env) (target : Ty) (aggregate : Value)
    (cursor : Option Path) (item : Syntax.ItemValue) (rest : List Syntax.Item) {at? : Option Path}
    (h : (position env target cursor item.span item.designators).result.2 = at?) :
    (placedItems env target aggregate cursor (.value item :: rest)).result.1 =
      (placedItems env target
        (place aggregate at? (initializer env (itemType at? item.span) item.value).result.value)
        (at?.or cursor) rest).result.1 := by
  subst h
  obtain ⟨span, designators, value⟩ := item
  rw [placedItems]
  rfl

/-- What comes before an item has filled the aggregate and moved the cursor. -/
theorem result_placedItems_append (env : Env) (target : Ty) (aggregate : Value)
    (cursor : Option Path) (before rest : List Syntax.Item) :
    ∃ aggregate' cursor', (placedItems env target aggregate cursor (before ++ rest)).result.1 =
      (placedItems env target aggregate' cursor' rest).result.1 := by
  induction before generalizing aggregate cursor with
  | nil => exact ⟨aggregate, cursor, rfl⟩
  | cons head before ih =>
    rw [List.cons_append]
    cases head with
    | directive d =>
      rw [result_placedItems_directive]
      exact ih aggregate cursor
    | value item =>
      rw [result_placedItems_value env target aggregate cursor item _ rfl]
      exact ih _ _

/-- Items that are put elsewhere are not seen. -/
theorem get?_placedItems (env : Env) (target : Ty) (aggregate : Value) (cursor : Option Path)
    {items : List Syntax.Item} {p : Path} (h : ∀ q ∈ writes env target cursor items, q.Apart p) :
    p.get? (placedItems env target aggregate cursor items).result.1 = p.get? aggregate := by
  induction items generalizing aggregate cursor with
  | nil =>
    rw [placedItems]
    rfl
  | cons head rest ih =>
    cases head with
    | directive d =>
      rw [result_placedItems_directive]
      exact ih aggregate cursor h
    | value item =>
      rw [writes] at h
      rw [result_placedItems_value env target aggregate cursor item rest rfl,
        ih _ _ fun q hq => h q (List.mem_append_right _ hq)]
      cases hplace : (position env target cursor item.span item.designators).result.2 with
      | none => rfl
      | some q =>
        have hapart := h q (List.mem_append_left _ (by simp [hplace]))
        exact Value.get?_set_of_apart _ _ hapart.1 hapart.2

theorem get?_of_storedAs {v w : Value} {target : Ty} {p : Path}
    (h : p.get? (v.storedAs target) = some w) : p.get? v = some w := by
  rw [Path.get?, Path.steps, Value.get?] at h ⊢
  unfold Value.storedAs at h
  split at h
  · rwa [Value.slot?_convertTo] at h
  · cases h

/-- An item that is the last one at its place is what is there in the end, if anything is. -/
theorem get?_initializer {env : Env} {t : Ty} {span : Span} {before after : List Syntax.Item}
    {item : Syntax.ItemValue} {p : Path} {w : Value}
    (hitem : ∀ cursor, (position env t cursor item.span item.designators).result.2 = some p)
    (hafter : ∀ q ∈ writes env t (some p) after, q.Apart p)
    (h : p.get? (initializer env t (.braced ⟨span, before ++ .value item :: after⟩)).result.value =
      some w) :
    w = (initializer env p.type item.value).result.value.storedAs p.type := by
  rw [initializer] at h
  split at h
  · obtain ⟨aggregate, cursor, heq⟩ := result_placedItems_append env t t.initial none before
      (.value item :: after)
    rw [result_placedItems_value env t aggregate cursor item after (hitem cursor)] at heq
    change p.get? (placedItems env t t.initial none
      (before ++ .value item :: after)).result.1 = some w at h
    rw [heq, Option.some_or, get?_placedItems env t _ _ hafter, place, Path.get?, Path.set,
      Value.get?_set_self, Option.map_eq_some_iff] at h
    obtain ⟨_, -, hw⟩ := h
    exact hw.symm
  · dsimp only at h
    rw [Traced.result_unless_bind] at h
    cases h

/-! ### Constants -/

/-- One item of the constant's initializer has the selectors as its designators and the value
`item`. The items after it are put at places apart from `p`. -/
def LastWritten (env : Env) (c : Syntax.ConstantDecl) (selectors : List Selector) (p : Path)
    (item : Syntax.Initializer) : Prop :=
  ∃ span before itemSpan designators after,
    c.value = .braced ⟨span, before ++ .value ⟨itemSpan, designators, item⟩ :: after⟩ ∧
    designators.map Syntax.Designator.selector? = selectors.map some ∧
    ∀ q ∈ writes env (constantValue env c).result.1 (some p) after, q.Apart p

theorem eq_of_lastWritten {env : Env} {c : Syntax.ConstantDecl} {selectors : List Selector}
    {steps : List Step} {leaf : Ty} {p : Path} {item : Syntax.Initializer} {w : Value}
    (h : LastWritten env c selectors p item) (ht : (constantValue env c).result.1.Resolved)
    (hresolve : (constantValue env c).result.1.resolve selectors = .ok (steps, leaf))
    (hp : Path.ofSteps? steps leaf = some p)
    (hw : p.get? (constantValue env c).result.2.value = some w) :
    w = (initializer env p.type item).result.value.storedAs p.type := by
  obtain ⟨span, before, itemSpan, ds, after, hvalue, hds, hafter⟩ := h
  obtain ⟨cspan, type, name, value⟩ := c
  subst hvalue
  exact get?_initializer (fun cursor => result_position env cursor itemSpan hds ht hresolve hp)
    hafter hw

section Constant

variable {env : Env} {name k : Ident} {t : Ty} {v : Value}

theorem name_of_constant (h : env.table.lookup env.scope name.text = some (.constant k t v)) :
    Check.name env name = pure v := by
  have hresolve : env.table.lookupValue env.scope name.text = .ok v := by
    rw [ScopeTable.lookupValue, ScopeTable.resolve, h]
    rfl
  rw [Check.name, hresolve]

theorem value_constant (h : env.table.lookup env.scope name.text = some (.constant k t v))
    (node : Syntax.Node) : (lvalue env (node.lvalue (.name name))).result.value = v := by
  rw [Syntax.Node.lvalue, lvalue, name_of_constant h]
  rfl

theorem leads_constant (h : env.table.lookup env.scope name.text = some (.constant k t v))
    (hsame : v.type.same t = true) (hv : v.Typed) (node : Syntax.Node) :
    Leads env (node.lvalue (.name name)) t where
  silent := by
    rw [Syntax.Node.lvalue, lvalue, name_of_constant h]
    rfl
  typed := by rwa [value_constant h]
  same := by rwa [value_constant h]

/-- **Designators and lvalues agree.** Let a constant be of a type `t` without unknown types, and
let its value be well typed for `t`. A chain of selectors breaks off in `t` where the lvalue is
rejected, and for the same reason. If the chain leads to a place `p` of `t`, then nothing is
reported of the lvalue. What is at `p` in the value is then the value of the lvalue, and if the
constant was declared with an item for the same chain, the last one to be put there, it is what the
item's value is stored as. -/
theorem lvalue_reads_what_designators_write
    (hlookup : env.table.lookup env.scope name.text = some (.constant k t v)) (ht : t.Resolved)
    (hsame : v.type.same t = true) (hwell : v.WellTyped)
    (hresolved : v.Everywhere fun w => w.type.Resolved) (node : Syntax.Node) (chain : List Access) :
    (∀ i error, t.FailsAt (chain.map Access.selector) i error ↔
      RejectsAt env (node.lvalue (.name name)) chain i error) ∧
    ∀ steps leaf p, t.resolve (chain.map Access.selector) = .ok (steps, leaf) →
      Path.ofSteps? steps leaf = some p →
      reported env ((node.lvalue (.name name)).accesses chain) = [] ∧
      ∀ w, p.get? v = some w →
        (lvalue env ((node.lvalue (.name name)).accesses chain)).result.value = w ∧
        ∀ env' c item, (constantValue env' c).result.1 = t →
          (constantValue env' c).result.2.value.storedAs t = v →
          LastWritten env' c (chain.map Access.selector) p item →
          w = (initializer env' p.type item).result.value.storedAs p.type := by
  have hleads := leads_constant hlookup hsame (hresolved.and hwell) node
  refine ⟨fun i error => hleads.failsAt_iff ht, ?_⟩
  intro steps leaf p hresolve hp
  obtain ⟨hend, hget⟩ := hleads.accesses ht hresolve
  refine ⟨hend.reported_eq_nil, fun w hw => ⟨?_, ?_⟩⟩
  · apply hget
    rw [value_constant hlookup, ← (Path.steps_of_ofSteps? hp).1]
    exact hw
  · rintro env' c item rfl rfl hlast
    exact eq_of_lastWritten hlast ht hresolve hp (get?_of_storedAs hw)

end Constant

open Syntax (nowhere ident)

/-- The scope that the pairs are declared in. -/
def pairsEnv : Env := ⟨(analyze pairs).scopes, ScopeTable.root⟩

/-- The integer of one of the pairs. -/
def number (n : Int32) : List Access :=
  [.index ⟨⟨0⟩, nowhere⟩ ⟨⟨0⟩, nowhere⟩ ⟨⟨0⟩, nowhere⟩ n,
    .component ⟨⟨0⟩, nowhere⟩ ⟨⟨0⟩, nowhere⟩ (ident "n")]

/-- The second integer is what a designator put there, and there is no third one. -/
theorem lvalue_reads_second_number :
    ∃ t v, pairsEnv.table.lookup pairsEnv.scope (ident "pairs").text =
        some (.constant (ident "pairs") t v) ∧
      t.Resolved ∧ v.type.same t = true ∧ v.WellTyped ∧
      v.Everywhere (fun w => w.type.Resolved) ∧
      (∃ c, .constant c ∈ pairs.decls ∧ (constantValue pairsEnv c).result.1 = t ∧
        LastWritten pairsEnv c ((number 2).map Access.selector)
          ⟨.index 1, [.component "n"], .integer⟩ (.expr (.ofInteger 4))) ∧
      (lvalue pairsEnv ((Syntax.Node.lvalue ⟨⟨0⟩, nowhere⟩ (.name (ident "pairs"))).accesses
        (number 2))).result.value = .integer 4 ∧
      RejectsAt pairsEnv (Syntax.Node.lvalue ⟨⟨0⟩, nowhere⟩ (.name (ident "pairs"))) (number 3) 0
        (.indexOutOfBounds 3 2) := by
  obtain ⟨t, v, c, hlookup, hc, htype, hvalue, hlast, hresolve, hget, hfails⟩ : ∃ t v c,
      pairsEnv.table.lookup pairsEnv.scope (ident "pairs").text =
        some (.constant (ident "pairs") t v) ∧
      .constant c ∈ pairs.decls ∧ (constantValue pairsEnv c).result.1 = t ∧
      (constantValue pairsEnv c).result.2.value.storedAs t = v ∧
      LastWritten pairsEnv c ((number 2).map Access.selector)
        ⟨.index 1, [.component "n"], .integer⟩ (.expr (.ofInteger 4)) ∧
      t.resolve ((number 2).map Access.selector) =
        .ok ([.index 1, .component "n"], .integer) ∧
      (∃ w, Path.get? ⟨.index 1, [.component "n"], .integer⟩ v = some w) ∧
      t.select (.index 3) = .error (.indexOutOfBounds 3 2) :=
    ⟨_, _, _, rfl, .tail _ (.head _), rfl, rfl,
      ⟨nowhere, [_], nowhere, _, [], rfl, rfl, by simp [writes]⟩, rfl, ⟨_, rfl⟩, rfl⟩
  obtain ⟨w, hw⟩ := hget
  have hclean : ∀ d ∈ ((analyze pairs).report .default none).delivered, d.severity ≠ .error := by
    decide
  obtain ⟨owner, hmem⟩ := ScopeTable.mem_symbols_of_lookup hlookup
  obtain ⟨⟨ht, -⟩, hsound, hv⟩ := (soundness_of_no_errors hclean).2.1 owner _ hmem
  have hsame : v.type.same t = true := hv ▸ Ty.same_refl _
  have hresolved := hsound.imp fun _ hu => hu.1
  have hread := lvalue_reads_what_designators_write hlookup ht hsame hsound.wellTyped hresolved
    ⟨⟨0⟩, nowhere⟩
  obtain ⟨hvalue', hwritten⟩ := ((hread (number 2)).2 _ _ _ hresolve rfl).2 w hw
  have hfour : w = .integer 4 := hwritten pairsEnv c _ htype hvalue hlast
  refine ⟨t, v, hlookup, ht, hsame, hsound.wellTyped, hresolved, ⟨c, hc, htype, hlast⟩,
    hvalue'.trans hfour, ?_⟩
  exact ((hread (number 3)).1 0 _).mp ⟨[], t, .index 3, rfl, rfl, hfails⟩

end Analysis

end Pseudocode
