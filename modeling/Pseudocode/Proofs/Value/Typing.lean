import Pseudocode.Proofs.Path.Reach
import Pseudocode.Proofs.Ty.Same
import Pseudocode.Proofs.Value.Everywhere

/-!
# Typing of values

A value is *well typed* when each datum in it, at any depth, is one that the type beside it demands:
a scalar of the right sort, an array of the right length whose elements are of the item type, a
structure with the components of its type in their order. It is *unpoisoned* when no type in it is
unknown and nothing in it is invalid. A *sound* value is both. Conversions, reads and writes of
sound values give sound values.
-/

namespace Pseudocode

/-- The names and types of the components of a structure. -/
def componentTypes (components : List (String × Value)) : List (String × Ty) :=
  components.map fun c => (c.1, c.2.type)

/-- The datum is one that a type, which is no alias, demands. Elements and components only have to
be of the right type. -/
def Datum.Fits : Datum → Ty → Prop
  | .boolean _, .boolean
  | .character _, .character
  | .integer _, .integer
  | .real _, .real
  | .string _, .string => True
  | .string s, .boundedString capacity => s.length ≤ capacity
  | .array elements, .array item length =>
    elements.length = length ∧ ∀ w ∈ elements.contents, w.type.same item = true
  | .struct components, .struct fields =>
    Ty.sameComponents (componentTypes components) fields = true
  | _, _ => False

namespace Value

/-- If the value is known, its datum is one that its type demands. -/
def Fits (v : Value) : Prop := ∀ datum, v.status = .known datum → datum.Fits v.type.unaliased

def WellTyped (v : Value) : Prop := v.Everywhere Fits

/-- No type in the value is unknown and nothing in it is invalid. -/
def Unpoisoned (v : Value) : Prop :=
  v.Everywhere fun w => w.type.Resolved ∧ w.isInvalid = false

def Sound (v : Value) : Prop :=
  v.Everywhere fun w => w.type.Resolved ∧ w.isInvalid = false ∧ w.Fits

theorem Sound.unpoisoned {v : Value} (h : v.Sound) : v.Unpoisoned :=
  h.imp fun _ hw => ⟨hw.1, hw.2.1⟩

theorem Sound.wellTyped {v : Value} (h : v.Sound) : v.WellTyped := h.imp fun _ hw => hw.2.2

theorem Sound.resolved {v : Value} (h : v.Sound) : v.type.Resolved := h.here.1

theorem Sound.isInvalid_eq_false {v : Value} (h : v.Sound) : v.isInvalid = false := h.here.2.1

theorem Sound.fits {v : Value} (h : v.Sound) : v.Fits := h.here.2.2

theorem sound_runtime {type : Ty} (h : type.Resolved) : (runtime type).Sound :=
  everywhere_of_contents_eq_nil ⟨h, rfl, by simp [Fits, runtime]⟩ rfl

theorem sound_known {type : Ty} {datum : Datum} (htype : type.Resolved)
    (hfits : datum.Fits type.unaliased) (hcontents : ∀ w ∈ datum.contents, w.Sound) :
    (known type datum).Sound := by
  refine .intro ⟨htype, rfl, ?_⟩ hcontents
  rintro d hd
  cases hd
  exact hfits

end Value

/-! ### Conversions -/

theorem Datum.Fits.of_same {datum : Datum} {a b : Ty} (h : datum.Fits a.unaliased) (ha : a.Resolved)
    (hb : b.Resolved) (hsame : a.same b = true) : datum.Fits b.unaliased := by
  cases hshape : a.unaliased with
  | unknown | aliased => simp [hshape, Fits] at h
  | array item length =>
    have hitem : item.Resolved := by simpa [hshape] using ha.unaliased
    obtain ⟨item', hb', hitems⟩ := Ty.same_array_of_resolved hb hsame hshape
    rw [hshape] at h
    rw [hb']
    cases datum with
    | array elements =>
      refine ⟨h.1, fun w hw => ?_⟩
      exact Ty.same_trans hitem (h.2 w hw) hitems
    | _ => exact h
  | struct fields =>
    have hfields : (Ty.struct fields).Resolved := hshape ▸ ha.unaliased
    obtain ⟨fields', hb', hcomponents⟩ := Ty.same_struct_of_resolved hb hsame hshape
    rw [hshape] at h
    rw [hb']
    cases datum with
    | struct components =>
      exact Ty.sameComponents_trans (Ty.resolved_struct.mp hfields) h hcomponents
    | _ => exact h
  | _ =>
    rw [Ty.same_atom_of_resolved hb hsame (by rw [hshape]; rfl)]
    exact h

/-- A status that already fits the new type is left alone. -/
theorem Status.convertTo_of_fits {datum : Datum} {target : Ty} (h : datum.Fits target.unaliased) :
    (Status.known datum).convertTo target = .known datum := by
  cases datum with
  | integer n =>
    cases hshape : target.unaliased with
    | integer => simp [Status.convertTo, hshape]
    | _ => simp [hshape, Datum.Fits] at h
  | _ => rfl

theorem Datum.Fits.convertTo {datum : Datum} {a target : Ty} (h : datum.Fits a.unaliased)
    (ha : a.Resolved) (htarget : target.Resolved) (hassignable : a.assignable target = true) :
    ∃ datum', (Status.known datum).convertTo target = .known datum' ∧
      datum'.Fits target.unaliased := by
  rw [Ty.assignable_iff, Ty.convertible_iff] at hassignable
  obtain (hsame | ⟨hsource, hreal⟩ | ⟨n, hsource, hstring⟩) | ⟨n, m, hsource, hbounded, hle⟩ :=
    hassignable
  · have hfits := h.of_same ha htarget hsame
    exact ⟨datum, Status.convertTo_of_fits hfits, hfits⟩
  · rw [hsource] at h
    cases datum with
    | integer n =>
      refine ⟨.real (Real.ofInteger n), ?_, by simp [hreal, Datum.Fits]⟩
      simp [Status.convertTo, hreal]
    | _ => cases h
  · rw [hsource] at h
    cases datum with
    | string s => exact ⟨_, rfl, by simp [hstring, Datum.Fits]⟩
    | _ => cases h
  · rw [hsource] at h
    cases datum with
    | string s => exact ⟨_, rfl, by rw [hbounded]; exact Nat.le_trans h hle⟩
    | _ => cases h

namespace Value

@[simp]
theorem isInvalid_convertTo (v : Value) (target : Ty) :
    (v.convertTo target).isInvalid = v.isInvalid := by
  obtain ⟨type, status⟩ := v
  cases status with
  | known datum =>
    cases datum with
    | integer n =>
      simp only [convertTo, Status.convertTo]
      split <;> rfl
    | _ => rfl
  | _ => rfl

theorem Fits.convertTo {v : Value} {target : Ty} (h : v.Fits) (hv : v.type.Resolved)
    (htarget : target.Resolved) (hassignable : v.type.assignable target = true) :
    (v.convertTo target).Fits := by
  intro datum hdatum
  cases hstatus : v.status with
  | known source =>
    obtain ⟨datum', hconvert, hfits⟩ := (h source hstatus).convertTo hv htarget hassignable
    rw [Value.convertTo, hstatus, hconvert] at hdatum
    cases hdatum
    exact hfits
  | _ =>
    rw [Value.convertTo, hstatus] at hdatum
    cases hdatum

/-- **Conversion keeps values sound.** Retyping goes one level deep, and the levels below are of
types that are the same as the new ones. -/
theorem Sound.convertTo {v : Value} {target : Ty} (h : v.Sound) (htarget : target.Resolved)
    (hassignable : v.type.assignable target = true) : (v.convertTo target).Sound := by
  refine .intro ⟨htarget, ?_, h.fits.convertTo h.resolved htarget hassignable⟩ ?_
  · rw [isInvalid_convertTo]
    exact h.isInvalid_eq_false
  · rw [contents_convertTo]
    exact h.inside

theorem Sound.storedAs {v : Value} {target : Ty} (h : v.Sound) (htarget : target.Resolved)
    (hassignable : v.type.assignable target = true) : (v.storedAs target).Sound := by
  rw [Value.storedAs, if_pos hassignable]
  exact h.convertTo htarget hassignable

end Value

/-! ### Reads and writes -/

theorem lookup_componentTypes (components : List (String × Value)) (name : String) :
    (componentTypes components).lookup name = (components.lookup name).map (·.type) := by
  induction components with
  | nil => rfl
  | cons head rest ih =>
    obtain ⟨n, v⟩ := head
    simp only [componentTypes, List.map_cons, List.lookup_cons] at ih ⊢
    split
    · rfl
    · exact ih

theorem Ty.same_of_lookup {as bs : List (String × Ty)} (h : sameComponents as bs = true)
    {name : String} {a b : Ty} (ha : as.lookup name = some a) (hb : bs.lookup name = some b) :
    a.same b = true := by
  induction as generalizing bs with
  | nil => cases ha
  | cons head as ih =>
    cases bs with
    | nil => cases hb
    | cons head' bs =>
      obtain ⟨n, t⟩ := head
      obtain ⟨m, t'⟩ := head'
      simp only [sameComponents, Bool.and_eq_true, beq_iff_eq] at h
      obtain ⟨⟨rfl, hsame⟩, hrest⟩ := h
      simp only [List.lookup_cons] at ha hb
      split at ha
      · rename_i hn
        rw [hn] at hb
        cases ha
        cases hb
        exact hsame
      · rename_i hn
        rw [hn] at hb
        exact ih hrest ha hb

/-- A change that keeps the type of a component the same keeps the structure of its type. -/
theorem sameComponents_modifyComponent {name : String} {f : Value → Value}
    {components : List (String × Value)}
    (hf : ∀ u, components.lookup name = some u → (f u).type.same u.type = true) :
    Ty.sameComponents (componentTypes (Value.modifyComponent name f components))
      (componentTypes components) = true := by
  induction components with
  | nil => simp [Value.modifyComponent, componentTypes, Ty.sameComponents]
  | cons head rest ih =>
    obtain ⟨n, v⟩ := head
    rw [Value.modifyComponent]
    split
    · rename_i hn
      subst hn
      simp only [componentTypes, List.map_cons, Ty.sameComponents, beq_self_eq_true, Bool.true_and,
        Bool.and_eq_true]
      exact ⟨hf v (by simp), Ty.sameComponents_refl _⟩
    · rename_i hn
      have hne : (name == n) = false := by simpa using Ne.symm hn
      simp only [componentTypes, List.map_cons, Ty.sameComponents, beq_self_eq_true, Bool.true_and,
        Ty.same_refl]
      exact ih fun u hu => hf u (by simp [List.lookup_cons, hne, hu])

theorem Datum.Fits.modify {elements : SparseArray Value} {t : Ty} {i : Nat} {f : Value → Value}
    (h : (Datum.array elements).Fits t) (hresolved : ∀ w ∈ elements.contents, w.type.Resolved)
    (hf : ∀ u, elements.get? i = some u → (f u).type.same u.type = true) :
    (Datum.array (elements.modify i f)).Fits t := by
  cases t with
  | array item length =>
    refine ⟨by simpa using h.1, fun w hw => ?_⟩
    obtain hold | ⟨u, hu, rfl⟩ := SparseArray.mem_contents_modify hw
    · exact h.2 w hold
    · have hmem := SparseArray.mem_contents_of_get? hu
      exact Ty.same_trans (hresolved u hmem) (hf u hu) (h.2 u hmem)
  | _ => exact h

theorem Datum.Fits.modifyComponent {components : List (String × Value)} {t : Ty} {name : String}
    {f : Value → Value} (h : (Datum.struct components).Fits t)
    (hresolved : ∀ c ∈ components, c.2.type.Resolved)
    (hf : ∀ u, components.lookup name = some u → (f u).type.same u.type = true) :
    (Datum.struct (Value.modifyComponent name f components)).Fits t := by
  cases t with
  | struct fields =>
    refine Ty.sameComponents_trans ?_ (sameComponents_modifyComponent hf) h
    intro c hc
    obtain ⟨c', hc', rfl⟩ := List.mem_map.mp hc
    exact hresolved c' hc'
  | _ => exact h

namespace Value

/-- What a slot of a value that fits its type holds is of the type that the slot has in every type
that the value's type is the same as. -/
theorem Fits.same_slot? {v u : Value} {t inner : Ty} {step : Step} (h : v.Fits)
    (hv : v.type.Resolved) (ht : t.Resolved) (hsame : v.type.same t = true)
    (hslot : v.slot? step = some u) (hinner : t.slot? step = some inner) :
    u.type.same inner = true := by
  unfold Value.slot? at hslot
  split at hslot
  · rename_i elements i hstatus
    have hdatum := (h _ hstatus).of_same hv ht hsame
    unfold Ty.slot? at hinner
    split at hinner
    · rename_i item length j heq hstep
      cases hstep
      rw [heq] at hdatum
      split at hinner
      · cases hinner
        exact hdatum.2 u (SparseArray.mem_contents_of_get? hslot)
      · cases hinner
    · rename_i hstep
      cases hstep
    · cases hinner
  · rename_i components name hstatus
    have hdatum := (h _ hstatus).of_same hv ht hsame
    unfold Ty.slot? at hinner
    split at hinner
    · rename_i hstep
      cases hstep
    · rename_i fields name' heq hstep
      cases hstep
      rw [heq] at hdatum
      exact Ty.same_of_lookup hdatum (by rw [lookup_componentTypes, hslot]; rfl) hinner
    · cases hinner
  · cases hslot

theorem Sound.modifySlot {v : Value} {step : Step} {f : Value → Value} (h : v.Sound)
    (hf : ∀ u, v.slot? step = some u → (f u).Sound ∧ (f u).type.same u.type = true) :
    (v.modifySlot step f).Sound := by
  refine .intro ⟨by simpa using h.resolved, ?_, ?_⟩ ?_
  · unfold Value.modifySlot
    split
    · rfl
    · rfl
    · exact h.isInvalid_eq_false
  · have hfits := h.fits
    have hcontents : ∀ w ∈ v.contents, w.type.Resolved := fun w hw => Sound.resolved (h.inside w hw)
    unfold Value.modifySlot
    split
    · rename_i elements i hstatus
      simp only [Value.slot?, hstatus] at hf
      simp only [contents, hstatus, Datum.contents] at hcontents
      rintro datum ⟨⟩
      exact (hfits _ hstatus).modify hcontents fun u hu => (hf u hu).2
    · rename_i components name hstatus
      simp only [Value.slot?, hstatus] at hf
      simp only [contents, hstatus, Datum.contents] at hcontents
      rintro datum ⟨⟩
      exact (hfits _ hstatus).modifyComponent
        (fun c hc => hcontents c.2 (List.mem_map.mpr ⟨c, hc, rfl⟩)) fun u hu => (hf u hu).2
    · exact hfits
  · intro w hw
    obtain hold | ⟨u, hu, rfl⟩ := mem_contents_modifySlot hw
    · exact h.inside w hold
    · exact (hf u hu).1

/-- **Writes keep values sound.** A sound value written at the end of steps that a type allows
leaves a value of that type sound. -/
theorem Sound.set {v new : Value} {t leaf : Ty} {steps : List Step} (h : v.Sound) (ht : t.Resolved)
    (hsame : v.type.same t = true) (hreach : t.reach? steps = some leaf) (hnew : new.Sound)
    (hleaf : new.type.same leaf = true) :
    (v.set steps new).Sound ∧ (v.set steps new).type.same t = true := by
  induction steps generalizing v t with
  | nil =>
    cases hreach
    exact ⟨hnew, hleaf⟩
  | cons step rest ih =>
    rw [Ty.reach?, Option.bind_eq_some_iff] at hreach
    obtain ⟨inner, hinner, hrest⟩ := hreach
    have hresolved : inner.Resolved := ht.slot? hinner
    refine ⟨h.modifySlot fun u hu => ?_, by simpa [Value.set] using hsame⟩
    -- The slot's contents need not be of its very type, only of the same one, and this is what the
    -- write below has to keep.
    have hu_sound : u.Sound := h.slot? hu
    have hu_same := h.fits.same_slot? h.resolved ht hsame hu hinner
    obtain ⟨hset, hset_same⟩ := ih hu_sound hresolved hu_same hrest
    exact ⟨hset, Ty.same_trans hresolved hset_same (Ty.same_symm hu_same)⟩

end Value

/-! ### Initial contents -/

theorem componentTypes_initialComponents (components : List (String × Ty)) :
    componentTypes (Ty.initialComponents components) = components := by
  induction components with
  | nil => rfl
  | cons head rest ih =>
    simp only [Ty.initialComponents, componentTypes, List.map_cons, Ty.type_initial] at ih ⊢
    rw [ih]

theorem Ty.fits_initial (t : Ty) : t.initial.Fits := by
  induction t using Ty.unaliased.induct with
  | case1 name target ih =>
    intro datum hdatum
    simpa using ih datum (by simpa [Ty.initial] using hdatum)
  | case2 t hnot =>
    intro datum hdatum
    cases t with
    | aliased name target => exact absurd rfl (hnot name target)
    | array item length =>
      cases hdatum
      simp [Datum.Fits, Ty.unaliased, SparseArray.filled, SparseArray.contents, Ty.same_refl]
    | struct components =>
      cases hdatum
      simp [Datum.Fits, Ty.unaliased, componentTypes_initialComponents, Ty.sameComponents_refl]
    | boolean | character | integer | real =>
      cases hdatum
      simp [Datum.Fits, Ty.unaliased]
    | _ => cases hdatum

theorem Ty.isInvalid_initial {t : Ty} (h : t.Resolved) : t.initial.isInvalid = false := by
  induction t using Ty.unaliased.induct with
  | case1 name target ih => simpa [Ty.initial, Value.isInvalid] using ih (resolved_aliased.mp h)
  | case2 t hnot =>
    cases t with
    | aliased name target => exact absurd rfl (hnot name target)
    | unknown origin => exact absurd h (not_resolved_unknown origin)
    | _ => rfl

/-- A place of a resolved type starts out sound. -/
theorem Ty.Resolved.initial_sound {t : Ty} (h : t.Resolved) : t.initial.Sound := by
  refine Ty.Everywhere.initial (fun u hu => ?_) (Ty.Everywhere.everywhere h)
  exact ⟨by rwa [Ty.type_initial], isInvalid_initial hu, fits_initial u⟩

end Pseudocode
