import Pseudocode.Scope.Table
import Pseudocode.Syntax.Expr

/-!
# Outlines

The outline of a program is what its syntax tree and its analysed tree have in common: which nodes
there are, in which order and inside of which others, and what is written at each of them. The two
trees differ in what they have to say about a node, and this is the mark that each node carries.

The blocks of an outline can be numbered in the order in which they open. `numbered` marks each
block with its number, and each other node with the number of the block around it.
-/

namespace Pseudocode

/-- The kind of a node, together with the names, operators, literals and modes written there. -/
inductive Label where
  /-- The first `leading` nodes inside are the directives in front of the declarations. -/
  | algorithm (leading : Nat)
  | constant (name : Ident)
  | typeAlias (name : Ident)
  | main
  | forward
  | definition
  | signature (kind : CallableKind) (name : Ident)
  | parameter (mode : Mode) (name : Ident)
  | block
  | nop
  | alternative
  | clause
  | assignment
  | routine (routine : Routine)
  | loop (kind : LoopKind)
  | forLoop
  | locals (names : List Ident)
  | returns
  | switch
  | case
  | assertion
  | showValue
  | showType
  | braced
  | item
  | indexDesignator
  | componentDesignator (name : Ident)
  | literal (value : Syntax.Literal)
  | paren
  | binary (op : Located BinaryOp)
  | unary (op : Located UnaryOp)
  | call (callee : Ident)
  | argument (mode : Mode)
  | endOfFile
  | cast
  | name (name : Ident)
  | subscript
  | component (name : Ident)

/-- Statements with a scope of their own. -/
def Label.isBlock : Label → Bool
  | .block => true
  | _ => false

inductive Outline (α : Type) where
  | node (label : Label) (span : Span) (mark : α) (children : List (Outline α))

namespace Outline

variable {α β γ : Type}

mutual

def map (f : α → β) : Outline α → Outline β
  | .node label span mark children => .node label span (f mark) (mapAll f children)

def mapAll (f : α → β) : List (Outline α) → List (Outline β)
  | [] => []
  | o :: os => o.map f :: mapAll f os

end

/-- The outline without its marks. -/
def erase (o : Outline α) : Outline Unit := o.map fun _ => ()

mutual

/-- How many blocks there are. -/
def blockCount : Outline α → Nat
  | .node label _ _ children => (if label.isBlock then 1 else 0) + blockCountAll children

def blockCountAll : List (Outline α) → Nat
  | [] => 0
  | o :: os => o.blockCount + blockCountAll os

end

mutual

/-- Numbers the blocks from `next` on, each before those inside it. A node that is not a block gets
the number of the nearest block around it, and `outer` outside of all blocks. -/
def numbered (outer : ScopeId) (next : Nat) : Outline α → Outline ScopeId
  | .node label span _ children =>
    if label.isBlock then .node label span next (numberedAll next (next + 1) children)
    else .node label span outer (numberedAll outer next children)

def numberedAll (outer : ScopeId) (next : Nat) : List (Outline α) → List (Outline ScopeId)
  | [] => []
  | o :: os => o.numbered outer next :: numberedAll outer (next + o.blockCount) os

end

/-- Where a node stands. -/
structure Placement where
  /-- The scope of the nearest block around the node. -/
  enclosing : ScopeId
  /-- The scope that the node is marked with. -/
  scope : ScopeId
  isBlock : Bool

mutual

/-- The placements of all nodes, each before those inside it, in an outline that stands in
`outer`. -/
def placements (outer : ScopeId) : Outline ScopeId → List Placement
  | .node label _ scope children =>
    ⟨outer, scope, label.isBlock⟩ ::
      placementsAll (if label.isBlock then scope else outer) children

def placementsAll (outer : ScopeId) : List (Outline ScopeId) → List Placement
  | [] => []
  | o :: os => o.placements outer ++ placementsAll outer os

end

/-! ### Relabelling -/

@[simp]
theorem mapAll_eq_map (f : α → β) (os : List (Outline α)) : mapAll f os = os.map (map f) := by
  induction os with
  | nil => rfl
  | cons o os ih => rw [mapAll, ih, List.map_cons]

mutual

theorem map_map (f : α → β) (g : β → γ) : ∀ o : Outline α, (o.map f).map g = o.map (g ∘ f)
  | .node label span mark children => by
    simp only [map, mapAll_eq_map, List.map_map]
    exact congrArg (node label span _) (mapAll_map f g children)

theorem mapAll_map (f : α → β) (g : β → γ) :
    ∀ os : List (Outline α), os.map (map g ∘ map f) = os.map (map (g ∘ f))
  | [] => rfl
  | o :: os => by rw [List.map_cons, List.map_cons, Function.comp, map_map, mapAll_map]

end

@[simp]
theorem erase_map (f : α → β) (o : Outline α) : (o.map f).erase = o.erase := map_map f _ o

/-! ### Numbering -/

@[simp]
theorem blockCountAll_append (xs ys : List (Outline α)) :
    blockCountAll (xs ++ ys) = blockCountAll xs + blockCountAll ys := by
  induction xs with
  | nil => simp [blockCountAll]
  | cons x xs ih => simp only [List.cons_append, blockCountAll, ih, Nat.add_assoc]

theorem numberedAll_append (outer : ScopeId) (next : Nat) (xs ys : List (Outline α)) :
    numberedAll outer next (xs ++ ys) =
      numberedAll outer next xs ++ numberedAll outer (next + blockCountAll xs) ys := by
  induction xs generalizing next with
  | nil => rfl
  | cons x xs ih =>
    simp only [List.cons_append, numberedAll, blockCountAll, ih, Nat.add_assoc]

theorem placementsAll_append (outer : ScopeId) (xs ys : List (Outline ScopeId)) :
    placementsAll outer (xs ++ ys) = placementsAll outer xs ++ placementsAll outer ys := by
  induction xs with
  | nil => rfl
  | cons x xs ih => rw [List.cons_append, placementsAll, placementsAll, ih, List.append_assoc]

mutual

theorem erase_numbered (outer : ScopeId) (next : Nat) :
    ∀ o : Outline α, (o.numbered outer next).erase = o.erase
  | .node label span _ children => by
    rw [numbered]
    split
    · simp only [erase, map, mapAll_eq_map]
      exact congrArg (node label span ()) (erase_numberedAll next (next + 1) children)
    · simp only [erase, map, mapAll_eq_map]
      exact congrArg (node label span ()) (erase_numberedAll outer next children)

theorem erase_numberedAll (outer : ScopeId) (next : Nat) : ∀ os : List (Outline α),
    (numberedAll outer next os).map erase = os.map erase
  | [] => rfl
  | o :: os => by
    rw [numberedAll, List.map_cons, List.map_cons, erase_numbered, erase_numberedAll]

end

mutual

/-- Where there are no blocks, every node gets the same number. -/
theorem numbered_of_blockCount (outer : ScopeId) (next : Nat) :
    ∀ o : Outline α, o.blockCount = 0 → o.numbered outer next = o.map fun _ => outer
  | .node label span mark children, h => by
    obtain ⟨hlabel, hchildren⟩ := Nat.add_eq_zero_iff.mp h
    have hblock : ¬ label.isBlock = true := by
      intro hblock
      simp [hblock] at hlabel
    rw [numbered, if_neg hblock, map, mapAll_eq_map,
      numberedAll_of_blockCountAll outer next children hchildren]

theorem numberedAll_of_blockCountAll (outer : ScopeId) (next : Nat) : ∀ os : List (Outline α),
    blockCountAll os = 0 → numberedAll outer next os = os.map (map fun _ => outer)
  | [], _ => rfl
  | o :: os, h => by
    obtain ⟨ho, hos⟩ := Nat.add_eq_zero_iff.mp h
    rw [numberedAll, numbered_of_blockCount outer next o ho,
      numberedAll_of_blockCountAll outer _ os hos, List.map_cons]

end

/-! ### Blocks -/

/-- The placements of the blocks, once they are numbered from `next` on. -/
def blocks (outer : ScopeId) (next : Nat) (os : List (Outline α)) : List Placement :=
  (placementsAll outer (numberedAll outer next os)).filter (·.isBlock)

@[simp]
theorem blocks_nil (outer : ScopeId) (next : Nat) :
    blocks outer next ([] : List (Outline α)) = [] := rfl

theorem blocks_append (outer : ScopeId) (next : Nat) (xs ys : List (Outline α)) :
    blocks outer next (xs ++ ys) =
      blocks outer next xs ++ blocks outer (next + blockCountAll xs) ys := by
  rw [blocks, numberedAll_append, placementsAll_append, List.filter_append, blocks, blocks]

theorem blocks_node (outer : ScopeId) (next : Nat) {label : Label} (h : label.isBlock = false)
    (span : Span) (mark : α) (children : List (Outline α)) :
    blocks outer next [.node label span mark children] = blocks outer next children := by
  simp [blocks, numberedAll, numbered, placementsAll, placements, h]

theorem blocks_block (outer : ScopeId) (next : Nat) {label : Label} (h : label.isBlock = true)
    (span : Span) (mark : α) (children : List (Outline α)) :
    blocks outer next [.node label span mark children] =
      ⟨outer, next, true⟩ :: blocks next (next + 1) children := by
  simp [blocks, numberedAll, numbered, placementsAll, placements, h]

mutual

theorem scope_blocks_singleton (outer : ScopeId) (next : Nat) : ∀ o : Outline α,
    (blocks outer next [o]).map (·.scope) = List.range' next o.blockCount
  | .node label span mark children => by
    rw [blockCount]
    by_cases h : label.isBlock = true
    · rw [blocks_block outer next h, if_pos h, List.map_cons, scope_blocks next, Nat.add_comm 1,
        List.range'_succ]
    · rw [blocks_node outer next (Bool.eq_false_iff.mpr h), if_neg h, scope_blocks, Nat.zero_add]

/-- The numbers of the blocks are consecutive. -/
theorem scope_blocks (outer : ScopeId) (next : Nat) : ∀ os : List (Outline α),
    (blocks outer next os).map (·.scope) = List.range' next (blockCountAll os)
  | [] => rfl
  | o :: os => by
    have hone : blockCountAll [o] = o.blockCount := Nat.add_zero _
    rw [← List.singleton_append, blocks_append, List.map_append, scope_blocks_singleton,
      scope_blocks, blockCountAll_append, hone]
    simp

end

theorem length_blocks (outer : ScopeId) (next : Nat) (os : List (Outline α)) :
    (blocks outer next os).length = blockCountAll os := by
  have hlength := congrArg List.length (scope_blocks outer next os)
  rwa [List.length_map, List.length_range'] at hlength

/-- What the placement of a node has to be if the blocks from `next` on, `count` of them, stand in
`outer`. -/
structure Placement.Fits (outer : ScopeId) (next count : Nat) (p : Placement) : Prop where
  scope_eq : p.isBlock = false → p.scope = p.enclosing
  enclosing_eq : p.enclosing = outer ∨ p.enclosing ∈ List.range' next count

theorem Placement.Fits.mono {outer : ScopeId} {next next' count count' : Nat} {p : Placement}
    (h : p.Fits outer next count) (hnext : next' ≤ next)
    (hlast : next + count ≤ next' + count') : p.Fits outer next' count' where
  scope_eq := h.scope_eq
  enclosing_eq := by
    refine h.enclosing_eq.imp_right fun hmem => ?_
    rw [List.mem_range'_1] at hmem ⊢
    omega

/-- A block takes a number for itself. -/
theorem Placement.Fits.block {outer : ScopeId} {next count : Nat} {p : Placement}
    (h : p.Fits next (next + 1) count) : p.Fits outer next (1 + count) where
  scope_eq := h.scope_eq
  enclosing_eq := by
    right
    rw [Nat.add_comm, List.range'_succ]
    exact List.mem_cons.mpr h.enclosing_eq

mutual

theorem fits_of_mem_placements (outer : ScopeId) (next : Nat) : ∀ (o : Outline α),
    ∀ p ∈ (o.numbered outer next).placements outer, p.Fits outer next o.blockCount
  | .node label span mark children, p, hp => by
    rw [numbered] at hp
    rw [blockCount]
    by_cases h : label.isBlock = true
    · rw [if_pos h, placements, if_pos h] at hp
      rw [if_pos h]
      obtain rfl | hchild := List.mem_cons.mp hp
      · exact ⟨fun hblock => absurd h (Bool.eq_false_iff.mp hblock), Or.inl rfl⟩
      · exact (fits_of_mem_placementsAll next (next + 1) children p hchild).block
    · rw [if_neg h, placements, if_neg h] at hp
      rw [if_neg h, Nat.zero_add]
      obtain rfl | hchild := List.mem_cons.mp hp
      · exact ⟨fun _ => rfl, Or.inl rfl⟩
      · exact fits_of_mem_placementsAll outer next children p hchild

theorem fits_of_mem_placementsAll (outer : ScopeId) (next : Nat) : ∀ (os : List (Outline α)),
    ∀ p ∈ placementsAll outer (numberedAll outer next os), p.Fits outer next (blockCountAll os)
  | [], p, hp => by cases hp
  | o :: os, p, hp => by
    rw [numberedAll, placementsAll, List.mem_append] at hp
    rw [blockCountAll]
    obtain hfirst | hrest := hp
    · exact (fits_of_mem_placements outer next o p hfirst).mono (Nat.le_refl _) (by omega)
    · exact (fits_of_mem_placementsAll outer _ os p hrest).mono (by omega) (by omega)

end

end Outline

end Pseudocode
