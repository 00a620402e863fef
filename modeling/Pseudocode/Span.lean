/-!
# Source extents

Every node of a program remembers the bytes of the source text it was read from.
-/

namespace Pseudocode

/-- The `length` bytes of the source text that start at byte `offset`. -/
structure Span where
  offset : Nat
  length : Nat
deriving DecidableEq, Inhabited

namespace Span

/-- The first byte after the span. -/
def stop (s : Span) : Nat := s.offset + s.length

/-- The bytes from `start` up to `stop`. -/
def between (start stop : Nat) : Span := ⟨start, stop - start⟩

/-- The smallest span that covers both `a` and `b`. -/
def join (a b : Span) : Span := between (min a.offset b.offset) (max a.stop b.stop)

/-- `inner` lies inside `outer`. -/
def encloses (outer inner : Span) : Bool :=
  outer.offset ≤ inner.offset && inner.stop ≤ outer.stop

theorem stop_between {start stop : Nat} (h : start ≤ stop) : (between start stop).stop = stop := by
  simp only [Span.stop, between]
  omega

theorem encloses_iff {outer inner : Span} :
    outer.encloses inner = true ↔ outer.offset ≤ inner.offset ∧ inner.stop ≤ outer.stop := by
  simp [encloses]

theorem encloses_refl (s : Span) : s.encloses s = true := by simp [encloses]

theorem encloses_join_left (a b : Span) : (a.join b).encloses a = true := by
  simp only [encloses_iff, join, between, stop]
  omega

theorem encloses_join_right (a b : Span) : (a.join b).encloses b = true := by
  simp only [encloses_iff, join, between, stop]
  omega

end Span

/-- Something together with the extent it was read from. -/
structure Located (α : Type) where
  span : Span
  item : α
deriving DecidableEq

/-- Changes what is located, and leaves it in place. -/
def Located.map {α β : Type} (f : α → β) (x : Located α) : Located β := ⟨x.span, f x.item⟩

/-- A name as it stands in the program. -/
structure Ident where
  text : String
  span : Span
deriving DecidableEq, Inhabited

end Pseudocode
