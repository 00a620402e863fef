import Mathlib.Data.List.Forall2
import Pseudocode.Proofs.Analysis.Emission
import Pseudocode.Proofs.Outline.Semantic

/-!
# What analysis makes of expressions

The analysis of an expression gives a copy of it: the outlines are the same, all nodes stand in the
scope of the analysis, and the types that are recorded on the way are those of the expression's
terms, one after the other. `Copies` says this of the analysis of any piece of syntax that has no
blocks.
-/

namespace Pseudocode

/-! ### Recorded types -/

namespace Event

/-- The node and its type, if the event records one. -/
def typed? : Event → Option (Syntax.NodeId × Ty)
  | .typed id type => some (id, type)
  | _ => none

/-- Only the end of a node's analysis records a type; no check does. -/
theorem ignores_typed? {topic : Topic} (h : topic ≠ .typing) : Ignores typed? topic where
  eq_none e he := by
    cases e with
    | found | notConstant | overflow => rfl
    | typed => exact absurd he.symm h

instance (n : Nat) : Ignores typed? (.finding n) := ignores_typed? nofun

instance : Ignores typed? .repetition := ignores_typed? nofun

instance : Ignores typed? .constancy := ignores_typed? nofun

end Event

@[simp]
theorem Traced.typed_report (cause : Cause) (span : Span) :
    (report cause span).pick Event.typed? = [] := rfl

open Event (typed?)
open Traced

namespace Analysis

open Outline

/-! ### Copies -/

/-- The analysis of a term. -/
def term (env : Env) : Syntax.Term → Traced Semantic.Expr
  | .expr e => expr env e
  | .lvalue l => lvalue env l

/-- The term was analysed in `env`: its type is on record, and it has become what it is in the
analysed tree. -/
structure Recorded (env : Env) (c : Counterpart) (entry : Syntax.NodeId × Ty) : Prop where
  scope_eq : c.scope = env.scope
  entry_eq : entry = (c.term.id, (term env c.term).result.type)
  expr_eq : ∀ e ∈ c.expr?, e = (term env c.term).result

theorem Recorded.self (env : Env) (t : Syntax.Term) :
    Recorded env ⟨t, env.scope, some (term env t).result⟩ (t.id, (term env t).result.type) where
  scope_eq := rfl
  entry_eq := rfl
  expr_eq _ he := (Option.mem_some.mp he).symm

/-- In `env` the outlines `xs` became `ys`, and `entries` were recorded. -/
structure Copies (env : Env) (xs : List (Outline Syntax.Mark)) (ys : List (Outline Semantic.Mark))
    (entries : List (Syntax.NodeId × Ty)) : Prop where
  flat : blockCountAll xs = 0
  outline : ys.map (map Semantic.Mark.scope) = xs.map (map fun _ => env.scope)
  entries : List.Forall₂ (Recorded env) (counterpartsAll xs ys) entries

/-- The terms in a type were analysed in `env`. -/
def Typed (env : Env) (terms : List Syntax.Term) (entries : List (Syntax.NodeId × Ty)) : Prop :=
  List.Forall₂ (Recorded env) (terms.map (⟨·, env.scope, none⟩)) entries

theorem typed_nil {env : Env} : Typed env [] [] := .nil

theorem Typed.append {env : Env} {ts ts' : List Syntax.Term}
    {entries entries' : List (Syntax.NodeId × Ty)} (h : Typed env ts entries)
    (h' : Typed env ts' entries') : Typed env (ts ++ ts') (entries ++ entries') := by
  rw [Typed, List.map_append]
  exact List.rel_append h h'

section Rules

variable {env : Env} {xs xs' : List (Outline Syntax.Mark)} {ys ys' : List (Outline Semantic.Mark)}
  {entries entries' : List (Syntax.NodeId × Ty)}

theorem copies_nil (env : Env) : Copies env [] [] [] where
  flat := rfl
  outline := rfl
  entries := .nil

theorem Copies.length_eq (h : Copies env xs ys entries) : xs.length = ys.length := by
  have hlength := congrArg List.length h.outline
  rw [List.length_map, List.length_map] at hlength
  exact hlength.symm

theorem Copies.append (h : Copies env xs ys entries) (h' : Copies env xs' ys' entries') :
    Copies env (xs ++ xs') (ys ++ ys') (entries ++ entries') where
  flat := by rw [blockCountAll_append, h.flat, h'.flat]
  outline := by rw [List.map_append, List.map_append, h.outline, h'.outline]
  entries := by
    rw [counterpartsAll_append h.length_eq]
    exact List.rel_append h.entries h'.entries

theorem Copies.node (h : Copies env xs ys entries) (label : Label) (span : Span)
    {before after : List Syntax.Term} {e? : Option Semantic.Expr}
    {first last : List (Syntax.NodeId × Ty)} (hbefore : Typed env before first)
    (hafter : List.Forall₂ (Recorded env) (after.map (⟨·, env.scope, e?⟩)) last)
    (hlabel : label.isBlock = false := by rfl) :
    Copies env [.node label span ⟨before, after⟩ xs] [.node label span ⟨env.scope, e?⟩ ys]
      (first ++ (entries ++ last)) where
  flat := by simp [blockCountAll, blockCount, hlabel, h.flat]
  outline := by simp [map, h.outline]
  entries := by
    simp only [counterpartsAll, counterparts, List.append_nil]
    exact List.rel_append hbefore (List.rel_append h.entries hafter)

/-- The rule for a node that is itself no term. -/
theorem Copies.plain (h : Copies env xs ys entries) (label : Label) (span : Span)
    {before : List Syntax.Term} {first : List (Syntax.NodeId × Ty)}
    (hbefore : Typed env before first) (hlabel : label.isBlock = false := by rfl) :
    Copies env [.node label span ⟨before, []⟩ xs] [.node label span ⟨env.scope, none⟩ ys]
      (first ++ entries) := by
  have hafter : List.Forall₂ (Recorded env) ([].map (⟨·, env.scope, none⟩)) [] := .nil
  have hnode := h.node label span hbefore hafter hlabel
  rwa [List.append_nil] at hnode

/-- The rule for a node that is one term or more, all of which have become `e`. -/
theorem Copies.terms (h : Copies env xs ys entries) (label : Label) (span : Span)
    {before ts : List Syntax.Term} {first : List (Syntax.NodeId × Ty)} {e : Semantic.Expr}
    (hbefore : Typed env before first) (hts : ∀ t ∈ ts, (term env t).result = e)
    (hlabel : label.isBlock = false := by rfl) :
    Copies env [.node label span ⟨before, ts⟩ xs] [.node label span ⟨env.scope, some e⟩ ys]
      (first ++ (entries ++ ts.map fun t => (t.id, e.type))) := by
  refine h.node label span hbefore ?_ hlabel
  rw [List.forall₂_map_left_iff, List.forall₂_map_right_iff, List.forall₂_same]
  intro t ht
  obtain rfl := hts t ht
  exact .self env t

/-- Seen from a type, the terms of an expression have become nothing. -/
theorem Copies.typed {x : Outline Syntax.Mark} {y : Outline Semantic.Mark}
    (h : Copies env [x] [y] entries) : Typed env x.terms entries := by
  have herase : x.erase = y.erase := by
    have houtline := congrArg (List.map erase) h.outline
    simpa using houtline.symm
  have hentries : List.Forall₂ (Recorded env) (counterparts x y) entries := by
    simpa [counterpartsAll] using h.entries
  rw [Typed, ← term_counterparts x y herase, List.map_map, List.forall₂_map_left_iff]
  refine hentries.imp fun c entry hc => ?_
  exact ⟨rfl, hc.entry_eq, fun e he => by cases he⟩

end Rules

/-! ### Expressions and types -/

theorem forall_mem_self (env : Env) (t : Syntax.Term) :
    ∀ u ∈ [t], (term env u).result = (term env t).result := by
  intro u hu
  rw [List.mem_singleton.mp hu]

mutual

theorem copies_expr (env : Env) : ∀ e : Syntax.Expr,
    Copies env [e.outline] [(expr env e).result.outline] ((expr env e).pick typed?)
  | ⟨id, span, .literal literal⟩ => by
    have hself := (copies_nil env).terms (.literal literal) span typed_nil
      (forall_mem_self env (.expr ⟨id, span, .literal literal⟩))
    rw [expr]
    exact hself
  | ⟨id, span, .paren inner⟩ => by
    have hself := (copies_expr env inner).terms .paren span typed_nil
      (forall_mem_self env (.expr ⟨id, span, .paren inner⟩))
    simp only [expr, pick_bind]
    exact hself
  | ⟨id, span, .binary op left right⟩ => by
    have hoperands := (copies_expr env left).append (copies_expr env right)
    have hself := hoperands.terms (.binary op) span typed_nil
      (forall_mem_self env (.expr ⟨id, span, .binary op left right⟩))
    simp only [expr, pick_bind, Check.silent_binary, List.nil_append, List.append_assoc] at hself ⊢
    exact hself
  | ⟨id, span, .unary op operand⟩ => by
    have hself := (copies_expr env operand).terms (.unary op) span typed_nil
      (forall_mem_self env (.expr ⟨id, span, .unary op operand⟩))
    simp only [expr, pick_bind, Check.silent_unary, List.nil_append]
    exact hself
  | ⟨id, span, .call callee args⟩ => by
    have hself := (copies_arguments env args).terms (.call callee) span typed_nil
      (forall_mem_self env (.expr ⟨id, span, .call callee args⟩))
    simp only [expr, pick_bind, Check.silent_call, List.nil_append]
    exact hself
  | ⟨id, span, .endOfFile file⟩ => by
    have hself := (copies_expr env file).terms .endOfFile span typed_nil
      (forall_mem_self env (.expr ⟨id, span, .endOfFile file⟩))
    simp only [expr, pick_bind, Check.silent_convertible, List.nil_append]
    exact hself
  | ⟨id, span, .cast target value⟩ => by
    have hself := (copies_expr env value).terms .cast span (typed_typeExpr env target)
      (forall_mem_self env (.expr ⟨id, span, .cast target value⟩))
    simp only [expr, pick_bind, Check.silent_cast, List.nil_append]
    exact hself
  | ⟨id, span, .lvalue value⟩ => by
    have hvalue := copies_lvalue env value
      (forall_mem_self env (.expr ⟨id, span, .lvalue value⟩))
    simp only [expr, pick_bind]
    exact hvalue

/-- An lvalue that is used as an expression has become the same as that expression. -/
theorem copies_lvalue (env : Env) : ∀ (l : Syntax.Lvalue) {uses : List Syntax.Term},
    (∀ t ∈ uses, (term env t).result = (lvalue env l).result) →
      Copies env [l.outline uses] [(lvalue env l).result.outline]
        ((lvalue env l).pick typed? ++ uses.map fun t => (t.id, (lvalue env l).result.type))
  | ⟨id, span, .name name⟩, uses, huses => by
    have hself := forall_mem_self env (.lvalue ⟨id, span, .name name⟩)
    have hnode := (copies_nil env).terms (.name name) span typed_nil
      (List.forall_mem_append.mpr ⟨hself, huses⟩)
    simp only [lvalue, pick_bind, Check.silent_name, List.nil_append] at hnode ⊢
    exact hnode
  | ⟨id, span, .subscript array index⟩, uses, huses => by
    have hself := forall_mem_self env (.lvalue ⟨id, span, .subscript array index⟩)
    have hparts := (copies_expr env array).append (copies_expr env index)
    have hnode := hparts.terms .subscript span typed_nil (List.forall_mem_append.mpr ⟨hself, huses⟩)
    simp only [lvalue, pick_bind, Check.silent_subscript, List.nil_append, List.append_assoc]
      at hnode ⊢
    exact hnode
  | ⟨id, span, .component base name⟩, uses, huses => by
    have hself := forall_mem_self env (.lvalue ⟨id, span, .component base name⟩)
    have hnode := (copies_expr env base).terms (.component name) span typed_nil
      (List.forall_mem_append.mpr ⟨hself, huses⟩)
    simp only [lvalue, pick_bind, Check.silent_component, List.nil_append, List.append_assoc]
      at hnode ⊢
    exact hnode

theorem copies_arguments (env : Env) : ∀ args : List Syntax.Argument,
    Copies env (Syntax.argumentOutlines args)
      (Semantic.argumentOutlines (arguments env args).result) ((arguments env args).pick typed?)
  | [] => copies_nil env
  | ⟨span, mode, value⟩ :: rest => by
    have hargument := (copies_expr env value).plain (.argument mode) span typed_nil
    simp only [arguments, pick_bind, pick_pure, List.append_nil]
    exact hargument.append (copies_arguments env rest)

theorem typed_typeExpr (env : Env) : ∀ type : Syntax.TypeExpr,
    Typed env type.terms ((typeExpr env type).pick typed?)
  | ⟨_, .boolean⟩ | ⟨_, .character⟩ | ⟨_, .integer⟩ | ⟨_, .real⟩ | ⟨_, .file⟩ | ⟨_, .string⟩ => by
    rw [typeExpr]
    exact typed_nil
  | ⟨span, .boundedString length⟩ => by
    have htypes : (typeExpr env ⟨span, .boundedString length⟩).pick typed? =
        (expr env length).pick typed? := by
      rw [typeExpr, pick_bind, pick_bind]
      split <;> simp
    rw [htypes]
    exact (copies_expr env length).typed
  | ⟨_, .named name⟩ => by
    rw [typeExpr]
    split
    · exact typed_nil
    · exact typed_nil
  | ⟨span, .array item lengths⟩ => by
    have htypes : (typeExpr env ⟨span, .array item lengths⟩).pick typed? =
        (typeExpr env item).pick typed? ++ (arrayLengths env lengths).pick typed? := by
      rw [typeExpr, pick_bind, pick_bind]
      split <;> simp
    rw [htypes]
    exact (typed_typeExpr env item).append (typed_arrayLengths env lengths)
  | ⟨_, .struct components⟩ => by
    simp only [typeExpr, pick_bind, pick_pure, List.append_nil]
    exact typed_structComponents env [] components

theorem typed_arrayLengths (env : Env) : ∀ lengths : List Syntax.Expr,
    Typed env (Syntax.lengthTerms lengths) ((arrayLengths env lengths).pick typed?)
  | [] => typed_nil
  | e :: rest => by
    have htypes : (arrayLengths env (e :: rest)).pick typed? =
        (expr env e).pick typed? ++ (arrayLengths env rest).pick typed? := by
      rw [arrayLengths, pick_bind, pick_bind, pick_bind]
      split <;> simp
    rw [htypes]
    exact (copies_expr env e).typed.append (typed_arrayLengths env rest)

theorem typed_structComponents (env : Env) (components : List (String × Ty)) :
    ∀ ds : List Syntax.ComponentDecl,
      Typed env (Syntax.componentTerms ds) ((structComponents env components ds).pick typed?)
  | [] => typed_nil
  | ⟨_, names, type⟩ :: rest => by
    simp only [structComponents, pick_bind, Check.silent_addComponents, List.nil_append]
    exact (typed_typeExpr env type).append (typed_structComponents env _ rest)

end

theorem copies_exprs (env : Env) (es : List Syntax.Expr) :
    Copies env (es.map Syntax.Expr.outline) ((exprs env es).result.map Semantic.Expr.outline)
      ((exprs env es).pick typed?) := by
  induction es with
  | nil => exact copies_nil env
  | cons e rest ih =>
    simp only [exprs, pick_bind, pick_pure, List.append_nil]
    exact (copies_expr env e).append ih

/-! ### Directives -/

theorem copies_assertionMessage (env : Env) (message : Option Syntax.Expr) :
    Copies env (Syntax.optionalOutline message)
      (Semantic.optionalOutline (assertionMessage env message).result)
      ((assertionMessage env message).pick typed?) := by
  cases message with
  | none => exact copies_nil env
  | some message =>
    simp only [assertionMessage, pick_bind, Check.silent_convertible, pick_pure, List.append_nil]
    exact copies_expr env message

theorem copies_directive (env : Env) (d : Syntax.Directive) :
    Copies env [d.outline] [(directive env d).result.outline] ((directive env d).pick typed?) := by
  obtain ⟨span, kind⟩ := d
  cases kind with
  | assertion condition message =>
    have hparts := (copies_expr env condition).append (copies_assertionMessage env message)
    have hnode := hparts.plain .assertion span typed_nil
    have hresult : (directive env ⟨span, .assertion condition message⟩).result =
        .assertion (env.site span) (expr env condition).result
          (assertionMessage env message).result := by
      simp only [directive, result_bind]
      split <;> rfl
    have htypes : (directive env ⟨span, .assertion condition message⟩).pick typed? =
        (expr env condition).pick typed? ++ (assertionMessage env message).pick typed? := by
      simp only [directive, pick_bind, typed_report, Check.silent_convertible, List.nil_append]
      split <;> simp [silent_assertion]
    rw [hresult, htypes]
    exact hnode
  | showValue e =>
    have hnode := (copies_expr env e).plain .showValue span typed_nil
    simp only [directive, pick_bind, typed_report, pick_pure, List.nil_append, List.append_nil]
    exact hnode
  | showType type =>
    have hnode := (copies_nil env).plain .showType span (typed_typeExpr env type)
    simp only [directive, pick_bind, typed_report, pick_pure, List.nil_append]
    exact hnode

theorem copies_directives (env : Env) (ds : List Syntax.Directive) :
    Copies env (ds.map Syntax.Directive.outline)
      ((directives env ds).result.map Semantic.Directive.outline)
      ((directives env ds).pick typed?) := by
  induction ds with
  | nil => exact copies_nil env
  | cons d rest ih =>
    simp only [directives, pick_bind, pick_pure, List.append_nil]
    exact (copies_directive env d).append ih

/-! ### Initializers -/

theorem copies_designator (env : Env) (d : Syntax.Designator) :
    Copies env [d.outline] [(designator env d).result.outline]
      ((designator env d).pick typed?) := by
  obtain ⟨span, kind⟩ := d
  cases kind with
  | index e =>
    have hnode := (copies_expr env e).plain .indexDesignator span typed_nil
    simp only [designator, pick_bind, pick_pure, List.append_nil]
    exact hnode
  | component name => exact (copies_nil env).plain (.componentDesignator name) span typed_nil

theorem copies_designators (env : Env) (ds : List Syntax.Designator) :
    Copies env (ds.map Syntax.Designator.outline)
      ((designators env ds).result.map Semantic.Designator.outline)
      ((designators env ds).pick typed?) := by
  induction ds with
  | nil => exact copies_nil env
  | cons d rest ih =>
    simp only [designators, pick_bind, pick_pure, List.append_nil]
    exact (copies_designator env d).append ih

/-- Designators are copied whether or not they lead anywhere. -/
theorem copies_follow (env : Env) (place : Option (List Step × Ty))
    (ds : List Syntax.Designator) :
    Copies env (ds.map Syntax.Designator.outline)
      ((follow env place ds).result.1.map Semantic.Designator.outline)
      ((follow env place ds).pick typed?) := by
  fun_induction follow env place ds with
  | case1 place => exact copies_nil env
  | case2 ds hds =>
    simp only [pick_bind, pick_pure, List.append_nil]
    exact copies_designators env ds
  | case3 steps type d rest ih =>
    simp only [pick_bind, silent_select, pick_pure, List.nil_append, List.append_nil]
    exact (copies_designator env d).append (ih _)

theorem copies_position (env : Env) (target : Ty) (cursor : Option Path) (span : Span)
    (ds : List Syntax.Designator) :
    Copies env (ds.map Syntax.Designator.outline)
      ((position env target cursor span ds).result.1.map Semantic.Designator.outline)
      ((position env target cursor span ds).pick typed?) := by
  unfold position
  split
  · rename_i hempty
    obtain rfl := List.isEmpty_iff.mp hempty
    dsimp only
    -- The position after the cursor, whichever it is, is there or not.
    split
    all_goals
      split
      · exact copies_nil env
      · exact copies_nil env
  · simp only [pick_bind, pick_pure, List.append_nil]
    exact copies_follow env (some ([], target)) ds

mutual

theorem copies_initializer (env : Env) (target : Ty) : ∀ init : Syntax.Initializer,
    Copies env [init.outline] [(initializer env target init).result.outline]
      ((initializer env target init).pick typed?)
  | .expr e => by
    simp only [initializer, pick_bind, Check.silent_assignable, pick_pure, List.append_nil]
    exact copies_expr env e
  | .braced ⟨span, items⟩ => by
    rw [initializer]
    split
    · have hnode := (copies_placedItems env target target.initial none items).plain .braced span
        typed_nil
      simp only [pick_bind, pick_pure, List.append_nil]
      exact hnode
    · have hnode := (copies_freeItems env items).plain .braced span typed_nil
      dsimp only
      rw [result_unless_bind, pick_unless_bind rfl]
      simp only [pick_bind, pick_pure, List.append_nil]
      exact hnode

theorem copies_placedItems (env : Env) (target : Ty) (aggregate : Value) (cursor : Option Path) :
    ∀ items : List Syntax.Item,
      Copies env (Syntax.itemOutlines items)
        (Semantic.itemOutlines (placedItems env target aggregate cursor items).result.2)
        ((placedItems env target aggregate cursor items).pick typed?)
  | [] => copies_nil env
  | .directive d :: rest => by
    simp only [placedItems, pick_bind, pick_pure, List.append_nil]
    exact (copies_directive env d).append (copies_placedItems env target aggregate cursor rest)
  | .value ⟨span, designators, value⟩ :: rest => by
    have hdesignators := copies_position env target cursor span designators
    have hvalue := copies_initializer env
      (itemType (position env target cursor span designators).result.2 span) value
    have hitem := (hdesignators.append hvalue).plain .item span typed_nil
    simp only [placedItems, pick_bind, pick_pure, List.append_nil]
    rw [← List.append_assoc]
    exact hitem.append (copies_placedItems env target _ _ rest)

theorem copies_freeItems (env : Env) : ∀ items : List Syntax.Item,
    Copies env (Syntax.itemOutlines items) (Semantic.itemOutlines (freeItems env items).result)
      ((freeItems env items).pick typed?)
  | [] => copies_nil env
  | .directive d :: rest => by
    simp only [freeItems, pick_bind, pick_pure, List.append_nil]
    exact (copies_directive env d).append (copies_freeItems env rest)
  | .value ⟨span, designators, value⟩ :: rest => by
    have hparts := (copies_designators env designators).append
      (copies_initializer env (.unknown span) value)
    have hitem := hparts.plain .item span typed_nil
    simp only [freeItems, pick_bind, pick_pure, List.append_nil]
    rw [← List.append_assoc]
    exact hitem.append (copies_freeItems env rest)

end

end Analysis

end Pseudocode
