import Pseudocode.Proofs.Ty.Resolved

/-!
# What holds throughout a value

A known aggregate holds other values: an array its stored elements and its fill, a structure its
components. `Everywhere p` says that `p` holds of a value and of all that it holds, at any depth.
Reading a slot stays inside the value, and a write changes the contents by what is written only.
-/

namespace Pseudocode

/-! ### Arrays -/

namespace SparseArray

variable {α : Type}

/-- All that the array can be read as: the fill and the stored elements. -/
def contents (a : SparseArray α) : List α := a.fill :: a.written.map (·.2)

theorem read_mem_contents (a : SparseArray α) (i : Nat) : a.read i ∈ a.contents := by
  unfold read contents
  cases h : a.written.lookup i with
  | none => simp
  | some x =>
    refine List.mem_cons_of_mem _ (List.mem_map.mpr ⟨(i, x), mem_of_lookup h, ?_⟩)
    simp

theorem mem_store {i : Nat} {x : α} {written : List (Nat × α)} {entry : Nat × α}
    (h : entry ∈ store i x written) : entry = (i, x) ∨ entry ∈ written := by
  induction written with
  | nil => exact .inl (by simpa [store] using h)
  | cons head rest ih =>
    obtain ⟨j, y⟩ := head
    by_cases hij : i = j
    · rw [store, if_pos hij] at h
      obtain rfl | hrest := List.mem_cons.mp h
      · exact .inl rfl
      · exact .inr (List.mem_cons_of_mem _ hrest)
    · rw [store, if_neg hij] at h
      obtain rfl | hrest := List.mem_cons.mp h
      · exact .inr List.mem_cons_self
      · exact (ih hrest).imp_right (List.mem_cons_of_mem _)

/-- Fetching an element for writing adds nothing but the new element. -/
theorem mem_contents_modify {a : SparseArray α} {i : Nat} {f : α → α} {x : α}
    (h : x ∈ (a.modify i f).contents) :
    x ∈ a.contents ∨ ∃ y, a.get? i = some y ∧ x = f y := by
  by_cases hi : i < a.length
  · simp only [modify, if_pos hi, contents, List.mem_cons, List.mem_map] at h ⊢
    obtain hfill | ⟨entry, hentry, rfl⟩ := h
    · exact .inl (.inl hfill)
    · obtain rfl | hold := mem_store hentry
      · exact .inr ⟨a.read i, by simp [get?, hi], rfl⟩
      · exact .inl (.inr ⟨entry, hold, rfl⟩)
  · rw [modify, if_neg hi] at h
    exact .inl h

theorem mem_contents_of_get? {a : SparseArray α} {i : Nat} {x : α} (h : a.get? i = some x) :
    x ∈ a.contents := by
  unfold get? at h
  split at h
  · cases h
    exact a.read_mem_contents i
  · cases h

end SparseArray

/-! ### Values -/

/-- The values that a datum holds directly. -/
def Datum.contents : Datum → List Value
  | .array elements => elements.contents
  | .struct components => components.map (·.2)
  | _ => []

namespace Value

/-- The values that a known aggregate holds directly. -/
def contents (v : Value) : List Value :=
  match v.status with
  | .known datum => datum.contents
  | _ => []

theorem status_of_datum? {v : Value} {d : Datum} (h : v.datum? = some d) : v.status = .known d := by
  unfold datum? at h
  split at h
  · rename_i hstatus
    cases h
    exact hstatus
  · cases h

theorem contents_of_datum? {v : Value} {d : Datum} (h : v.datum? = some d) :
    v.contents = d.contents := by
  rw [contents, status_of_datum? h]

theorem contents_of_datum?_eq_none {v : Value} (h : v.datum? = none) : v.contents = [] := by
  obtain ⟨type, status⟩ := v
  cases status with
  | known d => cases h
  | _ => rfl

/-- `p` holds of the value itself and, at any depth, of the values it holds. -/
inductive Everywhere (p : Value → Prop) : Value → Prop
  | intro {v : Value} (here : p v) (inside : ∀ w ∈ v.contents, Everywhere p w) : Everywhere p v

variable {p q : Value → Prop}

theorem everywhere_iff {v : Value} :
    v.Everywhere p ↔ p v ∧ ∀ w ∈ v.contents, w.Everywhere p := by
  constructor
  · rintro ⟨here, inside⟩
    exact ⟨here, inside⟩
  · rintro ⟨here, inside⟩
    exact .intro here inside

theorem Everywhere.here {v : Value} (h : v.Everywhere p) : p v := (everywhere_iff.mp h).1

theorem Everywhere.inside {v : Value} (h : v.Everywhere p) : ∀ w ∈ v.contents, w.Everywhere p :=
  (everywhere_iff.mp h).2

theorem Everywhere.imp {v : Value} (h : v.Everywhere p) (himp : ∀ w, p w → q w) :
    v.Everywhere q := by
  induction h with
  | intro here _ ih => exact .intro (himp _ here) ih

theorem Everywhere.and {v : Value} (hp : v.Everywhere p) (hq : v.Everywhere q) :
    v.Everywhere fun w => p w ∧ q w := by
  induction hp with
  | intro here _ ih => exact .intro ⟨here, hq.here⟩ fun w hw => ih w hw (hq.inside w hw)

/-- Only a known aggregate holds other values. -/
theorem everywhere_of_contents_eq_nil {v : Value} (here : p v) (hcontents : v.contents = []) :
    v.Everywhere p :=
  .intro here (by simp [hcontents])

@[simp]
theorem contents_known (type : Ty) (datum : Datum) :
    (known type datum).contents = datum.contents := rfl

@[simp]
theorem contents_runtime (type : Ty) : (runtime type).contents = [] := rfl

@[simp]
theorem contents_garbage (type : Ty) : (garbage type).contents = [] := rfl

@[simp]
theorem contents_invalid (type : Ty) : (invalid type).contents = [] := rfl

/-- A new type leaves what a value holds alone: only a number is ever converted. -/
@[simp]
theorem contents_convertTo (v : Value) (target : Ty) :
    (v.convertTo target).contents = v.contents := by
  unfold convertTo Status.convertTo
  split
  · rename_i n hstatus
    split <;> simp [contents, hstatus, Datum.contents]
  · rfl

theorem isKnown_convertTo (v : Value) (target : Ty) :
    (v.convertTo target).isKnown = v.isKnown := by
  obtain ⟨type, status⟩ := v
  cases status with
  | known datum =>
    cases datum with
    | integer n =>
      simp only [convertTo, Status.convertTo]
      split <;> rfl
    | _ => rfl
  | _ => rfl

/-! ### Slots -/

theorem mem_contents_of_slot? {v w : Value} {step : Step} (h : v.slot? step = some w) :
    w ∈ v.contents := by
  unfold slot? at h
  split at h
  · rename_i elements i hstatus
    simp only [contents, hstatus, Datum.contents]
    exact SparseArray.mem_contents_of_get? h
  · rename_i components name hstatus
    simp only [contents, hstatus, Datum.contents, List.mem_map]
    exact ⟨(name, w), mem_of_lookup h, rfl⟩
  · cases h

theorem Everywhere.slot? {v w : Value} {step : Step} (h : v.Everywhere p)
    (hslot : v.slot? step = some w) : w.Everywhere p :=
  h.inside w (mem_contents_of_slot? hslot)

theorem mem_modifyComponent {name : String} {f : Value → Value} {components : List (String × Value)}
    {c : String × Value} (h : c ∈ modifyComponent name f components) :
    c ∈ components ∨ ∃ v, components.lookup name = some v ∧ c = (name, f v) := by
  induction components with
  | nil => simp [modifyComponent] at h
  | cons head rest ih =>
    obtain ⟨n, v⟩ := head
    by_cases hn : n = name
    · subst hn
      rw [modifyComponent, if_pos rfl] at h
      obtain rfl | hrest := List.mem_cons.mp h
      · exact .inr ⟨v, by simp, rfl⟩
      · exact .inl (List.mem_cons_of_mem _ hrest)
    · rw [modifyComponent, if_neg hn] at h
      obtain rfl | hrest := List.mem_cons.mp h
      · exact .inl List.mem_cons_self
      · obtain hold | ⟨w, hlookup, hc⟩ := ih hrest
        · exact .inl (List.mem_cons_of_mem _ hold)
        · have hne : (name == n) = false := by simpa using Ne.symm hn
          exact .inr ⟨w, by simp [List.lookup_cons, hne, hlookup], hc⟩

/-- Changing a slot adds nothing but the new contents of the slot. -/
theorem mem_contents_modifySlot {v w : Value} {step : Step} {f : Value → Value}
    (h : w ∈ (v.modifySlot step f).contents) :
    w ∈ v.contents ∨ ∃ u, v.slot? step = some u ∧ w = f u := by
  unfold modifySlot at h
  split at h
  · rename_i elements i hstatus
    simp only [contents, hstatus, Datum.contents, slot?] at h ⊢
    exact SparseArray.mem_contents_modify h
  · rename_i components name hstatus
    simp only [contents, hstatus, Datum.contents, slot?, List.mem_map] at h ⊢
    obtain ⟨c, hc, rfl⟩ := h
    obtain hold | ⟨u, hlookup, rfl⟩ := mem_modifyComponent hc
    · exact .inl ⟨c, hold, rfl⟩
    · exact .inr ⟨u, hlookup, rfl⟩
  · exact .inl h

@[simp]
theorem type_modifySlot (v : Value) (step : Step) (f : Value → Value) :
    (v.modifySlot step f).type = v.type := by
  unfold modifySlot
  split <;> rfl

theorem isKnown_modifySlot (v : Value) (step : Step) (f : Value → Value) :
    (v.modifySlot step f).isKnown = v.isKnown := by
  unfold modifySlot
  split
  · rename_i hstatus
    simp [isKnown, datum?, hstatus]
  · rename_i hstatus
    simp [isKnown, datum?, hstatus]
  · rfl

/-- A write changes the contents along the way and what is at its end. -/
theorem Everywhere.set
    (hmodify : ∀ {v : Value} (step : Step) (f : Value → Value), p v → p (v.modifySlot step f))
    {v new : Value} (h : v.Everywhere p) (hnew : new.Everywhere p) (steps : List Step) :
    (v.set steps new).Everywhere p := by
  induction steps generalizing v with
  | nil => exact hnew
  | cons step rest ih =>
    refine .intro (hmodify step _ h.here) fun w hw => ?_
    obtain hold | ⟨u, hslot, rfl⟩ := mem_contents_modifySlot hw
    · exact h.inside w hold
    · exact ih (h.slot? hslot)

/-- Storing a value leaves what it holds alone, or drops it all. -/
theorem Everywhere.storedAs {v : Value} {target : Ty} (h : v.Everywhere p)
    (htop : p (v.storedAs target)) : (v.storedAs target).Everywhere p := by
  refine .intro htop fun w hw => h.inside w ?_
  unfold Value.storedAs at hw
  split at hw
  · rwa [contents_convertTo] at hw
  · cases hw

end Value

/-! ### Initial contents -/

theorem Ty.mem_initialComponents {components : List (String × Ty)} {c : String × Value}
    (h : c ∈ Ty.initialComponents components) : ∃ t, (c.1, t) ∈ components ∧ c.2 = t.initial := by
  induction components with
  | nil => simp [Ty.initialComponents] at h
  | cons head rest ih =>
    obtain ⟨name, t⟩ := head
    rw [Ty.initialComponents] at h
    obtain rfl | hrest := List.mem_cons.mp h
    · exact ⟨t, List.mem_cons_self, rfl⟩
    · obtain ⟨u, hu, hc⟩ := ih hrest
      exact ⟨u, List.mem_cons_of_mem _ hu, hc⟩

/-- The initial contents of a place are made of the initial contents of the types inside its
type. -/
theorem Ty.Everywhere.initial {p : Value → Prop} {r : Ty → Prop} (himp : ∀ t, r t → p t.initial)
    {t : Ty} (h : t.Everywhere r) : t.initial.Everywhere p := by
  induction h with
  | @intro t here _ ih =>
    refine .intro (himp t here) ?_
    cases t with
    | array item length =>
      simpa [Ty.initial, Value.contents, Value.known, Datum.contents, SparseArray.contents,
        SparseArray.filled] using ih item (by simp [Ty.parts])
    | struct components =>
      intro w hw
      simp only [Ty.initial, Value.contents_known, Datum.contents, List.mem_map] at hw
      obtain ⟨c, hc, rfl⟩ := hw
      obtain ⟨u, hu, hinitial⟩ := Ty.mem_initialComponents hc
      rw [hinitial]
      exact ih u (List.mem_map.mpr ⟨_, hu, rfl⟩)
    | aliased name target =>
      have htarget := ih target (by simp [Ty.parts])
      simpa [Ty.initial, Value.contents] using htarget.inside
    | _ => simp [Ty.initial, Datum.contents]

end Pseudocode
