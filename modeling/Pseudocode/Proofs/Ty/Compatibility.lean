import Pseudocode.Proofs.Ty.Erasure

/-!
# Sameness is compatibility

An unknown type stands for a type that was not made out. A type becomes *vaguer* when parts of it
are replaced by unknown types, and its *completions* are the types that it may turn out to be once
aliases are erased. Two types are the same exactly if they have a completion in common. Sameness is
not transitive, but this is why it is kept when types become vaguer.
-/

namespace Pseudocode.Ty

mutual

/-- `a` is `b` with any of its parts, at any depth, replaced by unknown types. The other way round,
`b` is `a` with each unknown type in it replaced by a type of its own. -/
inductive Vaguer : Ty → Ty → Prop
  | unknown (origin : Span) (t : Ty) : Vaguer (.unknown origin) t
  | atom {t : Ty} (h : t.isAtom = true) : Vaguer t t
  | array {a b : Ty} (length : Nat) (item : Vaguer a b) :
    Vaguer (.array a length) (.array b length)
  | struct {as bs : List (String × Ty)} (components : VaguerComponents as bs) :
    Vaguer (.struct as) (.struct bs)
  | aliased (name : String) {a b : Ty} (target : Vaguer a b) :
    Vaguer (.aliased name a) (.aliased name b)

inductive VaguerComponents : List (String × Ty) → List (String × Ty) → Prop
  | nil : VaguerComponents [] []
  | cons (name : String) {a b : Ty} {as bs : List (String × Ty)} (first : Vaguer a b)
    (rest : VaguerComponents as bs) : VaguerComponents ((name, a) :: as) ((name, b) :: bs)

end

/-- No alias occurs in the type, at any depth. -/
def AliasFree (t : Ty) : Prop := t.Everywhere fun u => ∀ name target, u ≠ .aliased name target

/-- Without its aliases, and with each unknown type in it replaced by some type, `t` is `c`, in
which no unknown type and no alias occurs. -/
structure Completion (t c : Ty) : Prop where
  resolved : c.Resolved
  aliasFree : c.AliasFree
  vaguer : t.erased.Vaguer c

/-! ### Vaguer types -/

mutual

theorem Vaguer.trans : ∀ {a b c : Ty}, a.Vaguer b → b.Vaguer c → a.Vaguer c
  | _, _, _, .unknown origin _, _ => .unknown origin _
  | _, _, _, .atom _, hbc => hbc
  | _, _, _, .array length item, .array _ item' => .array length (item.trans item')
  | _, _, _, .struct components, .struct components' => .struct (components.trans components')
  | _, _, _, .aliased name target, .aliased _ target' => .aliased name (target.trans target')

theorem VaguerComponents.trans : ∀ {as bs cs : List (String × Ty)},
    VaguerComponents as bs → VaguerComponents bs cs → VaguerComponents as cs
  | _, _, _, .nil, .nil => .nil
  | _, _, _, .cons name first rest, .cons _ first' rest' =>
    .cons name (first.trans first') (rest.trans rest')

end

mutual

/-- Erasing aliases commutes with replacing parts. -/
theorem Vaguer.erased : ∀ {a b : Ty}, a.Vaguer b → a.erased.Vaguer b.erased
  | _, _, .unknown origin _ => by
    simp only [Ty.erased]
    exact .unknown origin _
  | _, _, .atom h => by
    rw [erased_of_isAtom h]
    exact .atom h
  | _, _, .array length item => by
    rw [Ty.erased, Ty.erased]
    exact .array length item.erased
  | _, _, .struct components => by
    rw [Ty.erased, Ty.erased]
    exact .struct components.erased
  | _, _, .aliased name target => by
    rw [Ty.erased, Ty.erased]
    exact target.erased

theorem VaguerComponents.erased : ∀ {as bs : List (String × Ty)}, VaguerComponents as bs →
    VaguerComponents (erasedComponents as) (erasedComponents bs)
  | _, _, .nil => .nil
  | _, _, .cons name first rest => .cons name first.erased rest.erased

end

mutual

theorem Vaguer.same : ∀ {a b : Ty}, a.Vaguer b → a.same b = true
  | _, _, .unknown _ _ => same_of_isUnknown_left rfl
  | _, _, .atom _ => same_refl _
  | _, _, .array _ item => array_same_iff.mpr (.inr ⟨_, rfl, item.same⟩)
  | _, _, .struct components => struct_same_iff.mpr (.inr ⟨_, rfl, components.same⟩)
  | _, _, .aliased _ target => by
    rw [Ty.same, ← same_unaliased_right, unaliased_aliased, same_unaliased_right]
    exact target.same

theorem VaguerComponents.same : ∀ {as bs : List (String × Ty)}, VaguerComponents as bs →
    sameComponents as bs = true
  | _, _, .nil => by simp [sameComponents]
  | _, _, .cons _ first rest => by simp [sameComponents, first.same, rest.same]

end

/-- What is vaguer than an atom is the atom or unknown. -/
theorem Vaguer.unaliased_of_isAtom : ∀ {a b : Ty}, a.Vaguer b → b.unaliased.isAtom = true →
    a.isUnknown = true ∨ a.unaliased = b.unaliased
  | _, _, .unknown _ _, _ => .inl rfl
  | _, _, .atom _, _ => .inr rfl
  | _, _, .aliased _ target, hatom => target.unaliased_of_isAtom hatom
  | _, _, .array _ _, hatom | _, _, .struct _, hatom => by cases hatom

/-! ### Completions -/

theorem aliasFree_of_isAtom {t : Ty} (h : t.isAtom = true) : t.AliasFree := by
  refine everywhere_of_isAtom h ?_
  rintro name target rfl
  cases h

/-- A completion of several components: of one name each, and in the same order. -/
structure CompletionComponents (as cs : List (String × Ty)) : Prop where
  resolved : ∀ c ∈ cs, c.2.Resolved
  aliasFree : ∀ c ∈ cs, c.2.AliasFree
  vaguer : VaguerComponents (erasedComponents as) cs

section Completion

variable {t u c : Ty}

theorem completion_congr (h : t.erased = u.erased) : t.Completion c ↔ u.Completion c := by
  constructor
  · rintro ⟨hresolved, haliasFree, hvaguer⟩
    exact ⟨hresolved, haliasFree, h ▸ hvaguer⟩
  · rintro ⟨hresolved, haliasFree, hvaguer⟩
    exact ⟨hresolved, haliasFree, h ▸ hvaguer⟩

theorem completion_unaliased : t.unaliased.Completion c ↔ t.Completion c :=
  completion_congr (erased_unaliased t)

theorem completion_aliased {name : String} : (aliased name t).Completion c ↔ t.Completion c :=
  completion_congr (by rw [erased])

theorem completion_of_isAtom (h : t.isAtom = true) : t.Completion t where
  resolved := resolved_of_isAtom h
  aliasFree := aliasFree_of_isAtom h
  vaguer := by
    rw [erased_of_isAtom h]
    exact .atom h

theorem Completion.array (h : t.Completion c) (length : Nat) :
    (Ty.array t length).Completion (.array c length) where
  resolved := resolved_array.mpr h.resolved
  aliasFree := everywhere_array.mpr ⟨by simp, h.aliasFree⟩
  vaguer := by
    rw [Ty.erased]
    exact .array length h.vaguer

theorem CompletionComponents.struct {as cs : List (String × Ty)} (h : CompletionComponents as cs) :
    (Ty.struct as).Completion (.struct cs) where
  resolved := resolved_struct.mpr h.resolved
  aliasFree := everywhere_struct.mpr ⟨by simp, h.aliasFree⟩
  vaguer := by
    rw [Ty.erased]
    exact .struct h.vaguer

theorem completionComponents_nil : CompletionComponents [] [] := ⟨by simp, by simp, .nil⟩

theorem CompletionComponents.cons {as cs : List (String × Ty)} (name : String) (h : t.Completion c)
    (hrest : CompletionComponents as cs) :
    CompletionComponents ((name, t) :: as) ((name, c) :: cs) where
  resolved := List.forall_mem_cons.mpr ⟨h.resolved, hrest.resolved⟩
  aliasFree := List.forall_mem_cons.mpr ⟨h.aliasFree, hrest.aliasFree⟩
  vaguer := .cons name h.vaguer hrest.vaguer

/-- What completes a type completes every vaguer one. -/
theorem Completion.vague (h : t.Completion c) (hvaguer : u.Vaguer t) : u.Completion c where
  resolved := h.resolved
  aliasFree := h.aliasFree
  vaguer := hvaguer.erased.trans h.vaguer

/-- An unknown type may turn out to be whatever another type may. -/
theorem Completion.of_isUnknown (h : t.Completion c) (hunknown : u.isUnknown = true) :
    u.Completion c := by
  obtain ⟨origin, horigin⟩ := isUnknown_iff.mp hunknown
  rw [← completion_unaliased, horigin]
  exact h.vague (.unknown origin t)

end Completion

mutual

theorem exists_completion : ∀ t : Ty, ∃ c, t.Completion c
  | .aliased name target => by
    obtain ⟨c, hc⟩ := exists_completion target
    exact ⟨c, completion_aliased.mpr hc⟩
  | .array item length => by
    obtain ⟨c, hc⟩ := exists_completion item
    exact ⟨_, hc.array length⟩
  | .struct components => by
    obtain ⟨cs, hcs⟩ := exists_completionComponents components
    exact ⟨_, hcs.struct⟩
  | .unknown origin => ⟨.void, (completion_of_isAtom rfl).of_isUnknown rfl⟩
  | .void | .boolean | .character | .integer | .real | .file | .string | .boundedString _ =>
    ⟨_, completion_of_isAtom rfl⟩

theorem exists_completionComponents : ∀ as : List (String × Ty), ∃ cs, CompletionComponents as cs
  | [] => ⟨[], completionComponents_nil⟩
  | (name, t) :: rest => by
    obtain ⟨c, hc⟩ := exists_completion t
    obtain ⟨cs, hcs⟩ := exists_completionComponents rest
    exact ⟨_, hcs.cons name hc⟩

end

/-- If one of two types is unknown, then every completion of the other one completes both. -/
theorem exists_common_of_isUnknown {a b : Ty} (h : a.isUnknown = true ∨ b.isUnknown = true) :
    ∃ c, a.Completion c ∧ b.Completion c := by
  obtain ha | hb := h
  · obtain ⟨c, hc⟩ := exists_completion b
    exact ⟨c, hc.of_isUnknown ha, hc⟩
  · obtain ⟨c, hc⟩ := exists_completion a
    exact ⟨c, hc, hc.of_isUnknown hb⟩

mutual

theorem exists_common_of_same : ∀ {a b : Ty}, a.same b = true → ∃ c, a.Completion c ∧ b.Completion c
  | .aliased name target, b, h => by
    rw [Ty.same] at h
    obtain ⟨c, ha, hb⟩ := exists_common_of_same h
    exact ⟨c, completion_aliased.mpr ha, hb⟩
  | .array item length, b, h => by
    obtain hunknown | ⟨item', hb', hitem⟩ := array_same_iff.mp h
    · exact exists_common_of_isUnknown (.inr hunknown)
    obtain ⟨c, ha, hb⟩ := exists_common_of_same hitem
    refine ⟨.array c length, ha.array length, ?_⟩
    rw [← completion_unaliased, hb']
    exact hb.array length
  | .struct components, b, h => by
    obtain hunknown | ⟨components', hb', hcomponents⟩ := struct_same_iff.mp h
    · exact exists_common_of_isUnknown (.inr hunknown)
    obtain ⟨cs, ha, hb⟩ := exists_common_of_sameComponents hcomponents
    refine ⟨.struct cs, ha.struct, ?_⟩
    rw [← completion_unaliased, hb']
    exact hb.struct
  | .unknown origin, b, _ => exists_common_of_isUnknown (.inl rfl)
  | .void, b, h | .boolean, b, h | .character, b, h | .integer, b, h | .real, b, h | .file, b, h
  | .string, b, h | .boundedString _, b, h => by
    obtain hunknown | hb := (atom_same_iff rfl).mp h
    · exact exists_common_of_isUnknown (.inr hunknown)
    · refine ⟨_, completion_of_isAtom rfl, ?_⟩
      rw [← completion_unaliased, hb]
      exact completion_of_isAtom rfl

theorem exists_common_of_sameComponents : ∀ {as bs : List (String × Ty)},
    sameComponents as bs = true → ∃ cs, CompletionComponents as cs ∧ CompletionComponents bs cs
  | [], [], _ => ⟨[], completionComponents_nil, completionComponents_nil⟩
  | (n, a) :: as, (m, b) :: bs, h => by
    simp only [sameComponents, Bool.and_eq_true, beq_iff_eq] at h
    obtain ⟨⟨rfl, hsame⟩, hrest⟩ := h
    obtain ⟨c, ha, hb⟩ := exists_common_of_same hsame
    obtain ⟨cs, has, hbs⟩ := exists_common_of_sameComponents hrest
    exact ⟨_, has.cons n ha, hbs.cons n hb⟩
  | [], _ :: _, h | _ :: _, [], h => by simp [sameComponents] at h

end

/-- Sameness chains through the completion, which is resolved. -/
theorem same_of_common {a b c : Ty} (ha : a.Completion c) (hb : b.Completion c) :
    a.same b = true := by
  have hleft : a.same c = true := by
    rw [← same_erased_left]
    exact ha.vaguer.same
  have hright : c.same b = true := by
    rw [same_comm, ← same_erased_left]
    exact hb.vaguer.same
  exact same_trans ha.resolved hleft hright

/-! ### Relations between vaguer types -/

section Vaguer

variable {a a' b b' : Ty} (ha : a'.Vaguer a) (hb : b'.Vaguer b)

include ha hb

theorem same_of_vaguer (h : a.same b = true) : a'.same b' = true := by
  obtain ⟨c, hac, hbc⟩ := exists_common_of_same h
  exact same_of_common (hac.vague ha) (hbc.vague hb)

/-- Two atoms stay what they are, unless one of them becomes unknown. -/
theorem same_or_unaliased_eq (hatom : a.unaliased.isAtom = true)
    (hatom' : b.unaliased.isAtom = true) :
    a'.same b' = true ∨ a'.unaliased = a.unaliased ∧ b'.unaliased = b.unaliased := by
  obtain hunknown | ha' := ha.unaliased_of_isAtom hatom
  · exact .inl (same_of_isUnknown_left hunknown)
  obtain hunknown | hb' := hb.unaliased_of_isAtom hatom'
  · exact .inl (same_of_isUnknown_right hunknown)
  exact .inr ⟨ha', hb'⟩

theorem convertible_of_vaguer (h : a.convertible b = true) : a'.convertible b' = true := by
  rw [convertible_iff] at h ⊢
  obtain hsame | ⟨hinteger, hreal⟩ | ⟨n, hbounded, hstring⟩ := h
  · exact .inl (same_of_vaguer ha hb hsame)
  · refine (same_or_unaliased_eq ha hb (by rw [hinteger]; rfl) (by rw [hreal]; rfl)).imp_right ?_
    rintro ⟨ha', hb'⟩
    exact .inl ⟨ha'.trans hinteger, hb'.trans hreal⟩
  · refine (same_or_unaliased_eq ha hb (by rw [hbounded]; rfl) (by rw [hstring]; rfl)).imp_right ?_
    rintro ⟨ha', hb'⟩
    exact .inr ⟨n, ha'.trans hbounded, hb'.trans hstring⟩

theorem assignable_of_vaguer (h : a.assignable b = true) : a'.assignable b' = true := by
  rw [assignable_iff] at h ⊢
  obtain hconvertible | ⟨n, m, hn, hm, hle⟩ := h
  · exact .inl (convertible_of_vaguer ha hb hconvertible)
  · have hatoms := same_or_unaliased_eq ha hb (by rw [hn]; rfl) (by rw [hm]; rfl)
    refine hatoms.imp convertible_of_same ?_
    rintro ⟨ha', hb'⟩
    exact ⟨n, m, ha'.trans hn, hb'.trans hm, hle⟩

end Vaguer

/-! ### Main result -/

/-- **Sameness is compatibility.** Two types are the same if and only if some type completes both of
them. So whatever parts of two types become unknown, they stay the same, convertible or assignable
if they were before: an unknown type is never at fault. -/
theorem same_iff_exists_common (a b : Ty) :
    (a.same b = true ↔ ∃ c, a.Completion c ∧ b.Completion c) ∧
      ∀ a' b' : Ty, a'.Vaguer a → b'.Vaguer b →
        (a.same b = true → a'.same b' = true) ∧
        (a.convertible b = true → a'.convertible b' = true) ∧
        (a.assignable b = true → a'.assignable b' = true) := by
  refine ⟨⟨exists_common_of_same, ?_⟩, ?_⟩
  · rintro ⟨c, ha, hb⟩
    exact same_of_common ha hb
  · intro a' b' ha hb
    exact ⟨same_of_vaguer ha hb, convertible_of_vaguer ha hb, assignable_of_vaguer ha hb⟩

/-- A bounded string fits into a longer one. It still does if the type of the place is not made
out. -/
theorem assignable_to_unknown_length :
    Vaguer (.aliased "Line" (.unknown ⟨0, 4⟩)) (.aliased "Line" (.boundedString 80)) ∧
      (boundedString 8).assignable (.aliased "Line" (.boundedString 80)) = true ∧
      (boundedString 8).assignable (.aliased "Line" (.unknown ⟨0, 4⟩)) = true := by
  have hword : (boundedString 8).Vaguer (.boundedString 8) := .atom rfl
  have hline : Vaguer (.aliased "Line" (.unknown ⟨0, 4⟩)) (.aliased "Line" (.boundedString 80)) :=
    .aliased "Line" (.unknown ⟨0, 4⟩ _)
  have hfits : (boundedString 8).assignable (.aliased "Line" (.boundedString 80)) = true := by
    decide
  have hrelations := (same_iff_exists_common _ _).2 _ _ hword hline
  exact ⟨hline, hfits, hrelations.2.2 hfits⟩

end Pseudocode.Ty
