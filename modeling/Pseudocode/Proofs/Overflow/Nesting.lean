import Pseudocode.Proofs.Outline.Syntax

/-!
# Terms inside terms

A term is listed together with all terms inside it, inner ones first. An algorithm is *tidy* if the
extents of its terms are nested as the terms are: a term covers the terms inside it, and two terms
of which neither is inside the other have no byte in common.
-/

namespace Pseudocode

namespace Span

/-- No byte is in both. -/
def Apart (a b : Span) : Prop := a.stop ≤ b.offset ∨ b.stop ≤ a.offset

instance (a b : Span) : Decidable (a.Apart b) := inferInstanceAs (Decidable (_ ∨ _))

theorem Apart.symm {a b : Span} (h : a.Apart b) : b.Apart a := Or.symm h

/-- What encloses a byte is not apart from it. -/
theorem not_apart_of_encloses {outer inner : Span} (h : outer.encloses inner = true)
    (hinner : 0 < inner.length) : ¬ outer.Apart inner := by
  rw [encloses_iff] at h
  simp only [Apart, stop] at h ⊢
  omega

end Span

namespace Outline

open Syntax (Term Mark)

@[simp]
theorem termsAll_nil : termsAll [] = [] := rfl

@[simp]
theorem termsAll_cons (o : Outline Mark) (os : List (Outline Mark)) :
    termsAll (o :: os) = o.terms ++ termsAll os := rfl

@[simp]
theorem termsAll_append (os os' : List (Outline Mark)) :
    termsAll (os ++ os') = termsAll os ++ termsAll os' := by
  induction os with
  | nil => rfl
  | cons o os ih => rw [List.cons_append, termsAll_cons, ih, termsAll_cons, List.append_assoc]

@[simp]
theorem terms_node (label : Label) (span : Span) (before after : List Term)
    (children : List (Outline Mark)) :
    (node label span ⟨before, after⟩ children).terms = before ++ (termsAll children ++ after) := rfl

@[simp]
theorem terms_plain (label : Label) (span : Span) (children : List (Outline Mark)) :
    (node label span .plain children).terms = termsAll children := List.append_nil _

end Outline

namespace Syntax

namespace Term

def span : Term → Span
  | .expr e => e.span
  | .lvalue l => l.span

/-- The term and all terms inside it. -/
def terms : Term → List Term
  | .expr e => e.outline.terms
  | .lvalue l => (l.outline []).terms

end Term

/-- The terms inside an expression of the kind. -/
def ExprKind.inner : ExprKind → List Term
  | .literal _ => []
  | .paren inner => inner.outline.terms
  | .binary _ left right => left.outline.terms ++ right.outline.terms
  | .unary _ operand => operand.outline.terms
  | .call _ args => Outline.termsAll (argumentOutlines args)
  | .endOfFile file => file.outline.terms
  | .cast target value => target.terms ++ value.outline.terms
  | .lvalue value => (value.outline []).terms

/-- The terms inside an lvalue of the kind. -/
def LvalueKind.inner : LvalueKind → List Term
  | .name _ => []
  | .subscript array index => array.outline.terms ++ index.outline.terms
  | .component base _ => base.outline.terms

/-- The terms inside the term. -/
def Term.inner : Term → List Term
  | .expr e => e.kind.inner
  | .lvalue l => l.kind.inner

theorem terms_outline_uses (l : Lvalue) (uses : List Term) :
    (l.outline uses).terms = (l.outline []).terms ++ uses := by
  obtain ⟨id, span, kind⟩ := l
  cases kind <;> simp [Lvalue.outline, LvalueKind.outline]

theorem Term.terms_eq (t : Term) : t.terms = t.inner ++ [t] := by
  cases t with
  | expr e =>
    obtain ⟨id, span, kind⟩ := e
    cases kind with
    | lvalue l =>
      rw [terms, Expr.outline, ExprKind.outline, terms_outline_uses]
      rfl
    | _ => simp [terms, inner, ExprKind.inner, Expr.outline, ExprKind.outline]
  | lvalue l =>
    obtain ⟨id, span, kind⟩ := l
    cases kind <;> simp [terms, inner, LvalueKind.inner, Lvalue.outline, LvalueKind.outline]

theorem Term.mem_terms (t : Term) : t ∈ t.terms := by
  simp [t.terms_eq]

theorem Term.inner_subset (t : Term) : t.inner ⊆ t.terms := by
  rw [t.terms_eq]
  exact List.subset_append_left _ _

/-! ### Lists in postorder -/

/-- Each term is listed right behind the terms inside it. -/
def Postorder (ts : List Term) : Prop := ∀ t ∈ ts, t.terms <:+: ts

theorem postorder_nil : Postorder [] := by
  intro t ht
  cases ht

theorem Postorder.append {ts us : List Term} (ht : Postorder ts) (hu : Postorder us) :
    Postorder (ts ++ us) := by
  intro t hmem
  obtain hmem | hmem := List.mem_append.mp hmem
  · exact (ht t hmem).trans (List.prefix_append ts us).isInfix
  · exact (hu t hmem).trans (List.suffix_append ts us).isInfix

theorem Postorder.self {t : Term} (h : Postorder t.inner) : Postorder t.terms := by
  intro u hu
  rw [t.terms_eq] at hu
  obtain hu | hu := List.mem_append.mp hu
  · rw [t.terms_eq]
    exact (h u hu).trans (List.prefix_append _ _).isInfix
  · obtain rfl := List.mem_singleton.mp hu
    exact List.infix_rfl

mutual

theorem postorder_expr : ∀ e : Expr, Postorder (Term.expr e).inner
  | ⟨_, _, .literal _⟩ => postorder_nil
  | ⟨_, _, .paren inner⟩ => (postorder_expr inner).self
  | ⟨_, _, .binary _ left right⟩ => (postorder_expr left).self.append (postorder_expr right).self
  | ⟨_, _, .unary _ operand⟩ => (postorder_expr operand).self
  | ⟨_, _, .call _ args⟩ => postorder_arguments args
  | ⟨_, _, .endOfFile file⟩ => (postorder_expr file).self
  | ⟨_, _, .cast target value⟩ => (postorder_typeExpr target).append (postorder_expr value).self
  | ⟨_, _, .lvalue value⟩ => (postorder_lvalue value).self

theorem postorder_lvalue : ∀ l : Lvalue, Postorder (Term.lvalue l).inner
  | ⟨_, _, .name _⟩ => postorder_nil
  | ⟨_, _, .subscript array index⟩ => (postorder_expr array).self.append (postorder_expr index).self
  | ⟨_, _, .component base _⟩ => (postorder_expr base).self

theorem postorder_arguments :
    ∀ args : List Argument, Postorder (Outline.termsAll (argumentOutlines args))
  | [] => postorder_nil
  | ⟨_, _, value⟩ :: rest => by
    have hrest := (postorder_expr value).self.append (postorder_arguments rest)
    simpa [argumentOutlines, Term.terms] using hrest

theorem postorder_typeExpr : ∀ t : TypeExpr, Postorder t.terms
  | ⟨_, .boolean⟩ | ⟨_, .character⟩ | ⟨_, .integer⟩ | ⟨_, .real⟩ | ⟨_, .file⟩ | ⟨_, .string⟩
  | ⟨_, .named _⟩ => postorder_nil
  | ⟨_, .boundedString length⟩ => (postorder_expr length).self
  | ⟨_, .array item lengths⟩ => (postorder_typeExpr item).append (postorder_lengths lengths)
  | ⟨_, .struct components⟩ => postorder_components components

theorem postorder_lengths : ∀ es : List Expr, Postorder (lengthTerms es)
  | [] => postorder_nil
  | e :: rest => (postorder_expr e).self.append (postorder_lengths rest)

theorem postorder_components : ∀ ds : List ComponentDecl, Postorder (componentTerms ds)
  | [] => postorder_nil
  | ⟨_, _, type⟩ :: rest => (postorder_typeExpr type).append (postorder_components rest)

end

theorem postorder_exprs (es : List Expr) : Postorder (Outline.termsAll (es.map Expr.outline)) := by
  induction es with
  | nil => exact postorder_nil
  | cons e rest ih => exact (postorder_expr e).self.append ih

theorem Term.postorder_inner (t : Term) : Postorder t.inner := by
  cases t with
  | expr e => exact postorder_expr e
  | lvalue l => exact postorder_lvalue l

/-- No term is inside itself. -/
theorem Term.not_mem_inner (t : Term) : t ∉ t.inner := by
  intro h
  have hlength := (t.postorder_inner t h).length_le
  rw [t.terms_eq, List.length_append, List.length_singleton] at hlength
  omega

/-! ### Tidy algorithms -/

/-- The extents of the terms are nested as the terms are. Inner terms are listed first, so that of
two terms only the second can be around the first. -/
structure Tidy (ts : List Term) : Prop where
  nonempty : ∀ t ∈ ts, 0 < t.span.length
  encloses : ∀ t ∈ ts, ∀ u ∈ t.inner, t.span.encloses u.span = true
  apart : ts.Pairwise fun t u => t ∉ u.inner → t.span.Apart u.span

namespace Tidy

variable {ts us : List Term}

theorem append (ht : Tidy ts) (hu : Tidy us) (h : ∀ t ∈ ts, ∀ u ∈ us, t.span.Apart u.span) :
    Tidy (ts ++ us) where
  nonempty t hmem := (List.mem_append.mp hmem).elim (ht.nonempty t) (hu.nonempty t)
  encloses t hmem := (List.mem_append.mp hmem).elim (ht.encloses t) (hu.encloses t)
  apart := List.pairwise_append.mpr ⟨ht.apart, hu.apart, fun t hmem u hmem' _ => h t hmem u hmem'⟩

theorem self {t : Term} (h : Tidy t.inner) (hnonempty : 0 < t.span.length)
    (hencloses : ∀ u ∈ t.inner, t.span.encloses u.span = true) : Tidy t.terms := by
  rw [t.terms_eq]
  refine ⟨?_, ?_, ?_⟩
  · intro u hu
    obtain hu | hu := List.mem_append.mp hu
    · exact h.nonempty u hu
    · exact List.mem_singleton.mp hu ▸ hnonempty
  · intro u hu
    obtain hu | hu := List.mem_append.mp hu
    · exact h.encloses u hu
    · exact List.mem_singleton.mp hu ▸ hencloses
  · refine List.pairwise_append.mpr ⟨h.apart, List.pairwise_singleton _ _, ?_⟩
    intro u hu v hv hnot
    exact absurd (List.mem_singleton.mp hv ▸ hu) hnot

/-- Two terms at different places differ. -/
theorem nodup (h : Tidy ts) : ts.Nodup := by
  refine h.apart.imp_of_mem ?_
  rintro t u ht - hapart rfl
  exact Span.not_apart_of_encloses (Span.encloses_refl _) (h.nonempty t ht)
    (hapart t.not_mem_inner)

/-- Terms are apart if all terms inside the later one come after the earlier one. -/
theorem apart_of_mem (h : Tidy (ts ++ us)) {t u : Term} (ht : t ∈ ts) (hu : u ∈ us)
    (hinner : u.inner ⊆ us) : t.span.Apart u.span := by
  refine (List.pairwise_append.mp h.apart).2.2 t ht u hu ?_
  intro hmem
  exact (List.nodup_append.mp h.nodup).2.2 t ht t (hinner hmem) rfl

end Tidy

end Syntax

end Pseudocode
