import Pseudocode.Proofs.Analysis.Layout

/-!
# Analysed programs are faithful

Whatever a program is like, valid or not, its analysed tree has all that it has and nothing else.
The main statements: the two trees have the same outline, the scopes are laid out like the blocks,
and the types on record are those of the terms of the program, one for each identity.
-/

namespace Pseudocode

/-! ### Types on record -/

namespace Analysis

variable {t t' : ScopeTable} {cs : List Counterpart} {entries : List (Syntax.NodeId × Ty)}

theorem RecordedBetween.id_eq {c : Counterpart} {entry : Syntax.NodeId × Ty}
    (h : RecordedBetween t t' c entry) : entry.1 = c.term.id := by
  obtain ⟨env, -, -, hrecorded⟩ := h
  rw [hrecorded.entry_eq]

theorem ids_of_recorded (h : List.Forall₂ (RecordedBetween t t') cs entries) :
    entries.map (·.1) = cs.map (·.term.id) := by
  induction h with
  | nil => rfl
  | cons hfirst hrest ih => rw [List.map_cons, List.map_cons, hfirst.id_eq, ih]

/-- A term that is the first of its identity finds its own entry. -/
theorem lookup_of_recorded {before after : List Counterpart} {c : Counterpart}
    (h : List.Forall₂ (RecordedBetween t t') (before ++ c :: after) entries)
    (hfirst : ∀ b ∈ before, b.term.id ≠ c.term.id) :
    ∃ entry, RecordedBetween t t' c entry ∧ entries.lookup c.term.id = some entry.2 := by
  induction before generalizing entries with
  | nil =>
    obtain ⟨⟨id, type⟩, rest, hc, -, rfl⟩ := List.forall₂_cons_left_iff.mp h
    obtain rfl : id = c.term.id := hc.id_eq
    exact ⟨(c.term.id, type), hc, List.lookup_cons_self⟩
  | cons b before ih =>
    obtain ⟨⟨id, type⟩, rest, hb, hrest, rfl⟩ := List.forall₂_cons_left_iff.mp h
    obtain rfl : id = b.term.id := hb.id_eq
    have hne : (c.term.id == b.term.id) = false := by
      rw [beq_eq_false_iff_ne]
      exact (hfirst b List.mem_cons_self).symm
    rw [List.lookup_cons, hne]
    exact ih hrest fun b hb => hfirst b (List.mem_cons_of_mem _ hb)

end Analysis

namespace Session

theorem mirrors_run (config : Config) (source : Option String) (a : Syntax.Algorithm) :
    Analysis.Mirrors ScopeTable.root .initial (run config source a).scopes [a.outline]
      [(run config source a).tree.outline] (run config source a).types.records := by
  rw [run_eq]
  exact Analysis.mirrors_algorithm a .initial

theorem scopes_outline_run (config : Config) (source : Option String) (a : Syntax.Algorithm) :
    (run config source a).tree.outline.map Semantic.Mark.scope =
      a.outline.numbered ScopeTable.root 1 :=
  List.head_eq_of_cons_eq (mirrors_run config source a).outline

/-- **Nothing of a program is dropped.** Without values, types and scopes, the analysed tree is the
syntax tree without its types. -/
theorem outline_preserved (config : Config) (source : Option String) (a : Syntax.Algorithm) :
    (run config source a).tree.outline.erase = a.outline.erase := by
  have herase := (mirrors_run config source a).map_erase
  exact (List.head_eq_of_cons_eq herase).symm

/-! ### Scopes -/

theorem placements_run (config : Config) (source : Option String) (a : Syntax.Algorithm) :
    (run config source a).tree.placements =
      Outline.placementsAll ScopeTable.root
        (Outline.numberedAll ScopeTable.root 1 [a.outline]) := by
  rw [Semantic.Algorithm.placements, scopes_outline_run, Outline.numberedAll, Outline.placementsAll,
    Outline.numberedAll, Outline.placementsAll, List.append_nil]

/-- **The scopes mirror the nesting of the blocks.** In the order in which they open, the blocks
have the scopes `1`, `2` and so on, which are all scopes besides the root. The scope of a block lies
in that of the nearest block around it, and any other node is in the scope of the nearest block
around it. Outside of all blocks this is the root. -/
theorem scopes_mirror_blocks (config : Config) (source : Option String) (a : Syntax.Algorithm) :
    let outcome := run config source a
    let blocks := outcome.tree.placements.filter (·.isBlock)
    blocks.map (·.scope) = List.range' 1 blocks.length ∧
    blocks.length + 1 = outcome.scopes.size ∧
    (∀ b ∈ blocks, outcome.scopes.parent? b.scope = some b.enclosing) ∧
    (∀ p ∈ outcome.tree.placements, p.isBlock = false → p.scope = p.enclosing) ∧
    ∀ p ∈ outcome.tree.placements, p.scope < outcome.scopes.size := by
  intro outcome blocks
  have hmirrors : Analysis.Mirrors _ _ outcome.scopes _ _ _ := mirrors_run config source a
  have hblocks : blocks = Outline.blocks ScopeTable.root 1 [a.outline] := by
    simp only [blocks, outcome, placements_run, Outline.blocks]
  have hscopes : blocks.map (·.scope) = List.range' 1 blocks.length := by
    rw [hblocks, Outline.scope_blocks, Outline.length_blocks]
  have hsize : blocks.length + 1 = outcome.scopes.size := by
    rw [hmirrors.size_eq, hblocks, Outline.length_blocks, Nat.add_comm]
    rfl
  have hparents : ∀ b ∈ blocks, outcome.scopes.parent? b.scope = some b.enclosing := by
    intro b hb
    obtain ⟨i, hi, rfl⟩ := List.mem_iff_getElem.mp hb
    have hscope : blocks[i].scope = 1 + i := by
      have hat := congrArg (·[i]?) hscopes
      simpa [hi] using hat
    have hparents : outcome.scopes.parents = none :: blocks.map (some ·.enclosing) := by
      rw [hblocks]
      exact hmirrors.parents
    rw [ScopeTable.parent?_eq_some_iff, hparents, hscope, Nat.add_comm, List.getElem?_cons_succ,
      List.getElem?_map, List.getElem?_eq_getElem hi]
    rfl
  have hfits : ∀ p ∈ outcome.tree.placements, p.Fits ScopeTable.root 1 blocks.length := by
    intro p hp
    simp only [outcome, placements_run] at hp
    rw [hblocks, Outline.length_blocks]
    exact Outline.fits_of_mem_placementsAll _ _ _ p hp
  refine ⟨hscopes, hsize, hparents, fun p hp => (hfits p hp).scope_eq, ?_⟩
  intro p hp
  -- A block has a number of its own, any other node that of a block or of the root.
  have hscope : p.scope = ScopeTable.root ∨ p.scope ∈ List.range' 1 blocks.length := by
    by_cases hblock : p.isBlock = true
    · right
      rw [← hscopes]
      exact List.mem_map_of_mem (List.mem_filter.mpr ⟨hp, hblock⟩)
    · rw [(hfits p hp).scope_eq (Bool.eq_false_iff.mpr hblock)]
      exact (hfits p hp).enclosing_eq
  obtain hroot | hnumber := hscope
  · rw [hroot, ← hsize]
    exact Nat.succ_pos _
  · have hlt := (List.mem_range'_1.mp hnumber).2
    rwa [← hsize, Nat.add_comm]

/-! ### Types -/

theorem recorded_run (config : Config) (source : Option String) (a : Syntax.Algorithm) :
    List.Forall₂ (Analysis.RecordedBetween .initial (run config source a).scopes)
      (a.outline.counterparts (run config source a).tree.outline)
      (run config source a).types.records := by
  have hentries := (mirrors_run config source a).entries
  simpa [Outline.counterpartsAll] using hentries

/-- The identity of a term has the type on record that this very term was given: by its analysis, at
some time of the session and in the scope it stands in, and so also in the analysed tree. -/
structure Outcome.Keeps (outcome : Outcome) (c : Counterpart) : Prop where
  analysed : ∃ env : Env, ScopeTable.initial.Evolves env.table ∧
    env.table.Evolves outcome.scopes ∧ env.scope = c.scope ∧
    outcome.types.get? c.term.id = some (Analysis.term env c.term).result.type
  expr : ∀ e ∈ c.expr?, outcome.types.get? c.term.id = some e.type

theorem keeps_of_first {config : Config} {source : Option String} {a : Syntax.Algorithm}
    {before after : List Counterpart} {c : Counterpart}
    (hfound : a.outline.counterparts (run config source a).tree.outline = before ++ c :: after)
    (hfirst : ∀ b ∈ before, b.term.id ≠ c.term.id) : (run config source a).Keeps c := by
  have hrecorded := recorded_run config source a
  rw [hfound] at hrecorded
  obtain ⟨entry, ⟨env, hstart, hend, hc⟩, hget⟩ := Analysis.lookup_of_recorded hrecorded hfirst
  rw [hc.entry_eq] at hget
  constructor
  · exact ⟨env, hstart, hend, hc.scope_eq.symm, hget⟩
  · intro e he
    rw [hc.expr_eq e he]
    exact hget

/-- **The types on record are exactly those of the terms.** Every term of the program is analysed;
the identities on record are those of the terms, and each one keeps the type of the first term it
belongs to. So if all identities are different, every term has its own type on record. -/
theorem inferred_types_exact (config : Config) (source : Option String) (a : Syntax.Algorithm) :
    let outcome := run config source a
    let found := a.outline.counterparts outcome.tree.outline
    found.map (·.term) = a.terms ∧
    (∀ id, id ∈ outcome.types.nodes ↔ ∃ t ∈ a.terms, t.id = id) ∧
    (∀ before c after, found = before ++ c :: after → (∀ b ∈ before, b.term.id ≠ c.term.id) →
      outcome.Keeps c) ∧
    ((a.terms.map (·.id)).Nodup → ∀ c ∈ found, outcome.Keeps c) := by
  intro outcome found
  have hterms : found.map (·.term) = a.terms := by
    have herase := (mirrors_run config source a).map_erase
    exact Outline.term_counterparts _ _ (List.head_eq_of_cons_eq herase)
  refine ⟨hterms, ?_, fun before c after => keeps_of_first, ?_⟩
  · intro id
    have hids := Analysis.ids_of_recorded (recorded_run config source a)
    rw [InferredTypes.nodes, List.mem_eraseDups, hids, ← hterms]
    simp [found, outcome]
  · intro hnodup c hc
    obtain ⟨before, after, hfound⟩ := List.append_of_mem hc
    apply keeps_of_first hfound
    intro b hb
    rw [← hterms, List.map_map, hfound, List.map_append, List.map_cons] at hnodup
    have hapart := (List.nodup_append.mp hnodup).2.2
    exact hapart b.term.id (List.mem_map_of_mem hb) c.term.id List.mem_cons_self

end Session

end Pseudocode
