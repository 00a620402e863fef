import Pseudocode.Proofs.Path.Chain

/-!
# Laws of reading and writing along a path

A write is read back at its place, inside the place and around it, and nowhere else. A write whose
path leads nowhere may still store a copy of the fill in an array it passes through. Such a copy
cannot be seen: `Alike` compares values by what shows of them at the end of every chain of steps.
-/

namespace Pseudocode

/-- What shows of a value without a step into it. -/
inductive Surface where
  | array (type : Ty) (length : Nat)
  | struct (type : Ty) (names : List String)
  /-- All there is of a value that is not a known aggregate. -/
  | plain (type : Ty) (status : Status)

namespace Value

def surface (v : Value) : Surface :=
  match v.status with
  | .known (.array elements) => .array v.type elements.length
  | .known (.struct components) => .struct v.type (components.map (·.1))
  | status => .plain v.type status

/-- The two values show the same wherever steps lead. -/
def Alike (v w : Value) : Prop :=
  ∀ steps, (v.get? steps).map surface = (w.get? steps).map surface

/-! ### Chains of steps -/

theorem get?_append (v : Value) (steps others : List Step) :
    v.get? (steps ++ others) = (v.get? steps).bind (·.get? others) := by
  induction steps generalizing v with
  | nil => rfl
  | cons step rest ih =>
    rw [List.cons_append, get?, get?]
    cases v.slot? step with
    | none => rfl
    | some u => exact ih u

/-- What is around a place is changed by a write along the rest of the way. -/
theorem get?_set_append (v new : Value) (steps others : List Step) :
    (v.set (steps ++ others) new).get? steps = (v.get? steps).map (·.set others new) := by
  induction steps generalizing v with
  | nil => rfl
  | cons step rest ih =>
    rw [List.cons_append, set, get?, get?, slot?_modifySlot_self]
    cases v.slot? step with
    | none => rfl
    | some u => exact ih u

/-- What is inside a place is inside the value that was written there. -/
theorem get?_append_set {v old : Value} (new : Value) {steps : List Step}
    (h : v.get? steps = some old) (others : List Step) :
    (v.set steps new).get? (steps ++ others) = new.get? others := by
  rw [get?_append, get?_set_self, h]
  rfl

/-! ### Values that are alike -/

theorem names_modifyComponent (name : String) (f : Value → Value)
    (components : List (String × Value)) :
    (modifyComponent name f components).map (·.1) = components.map (·.1) := by
  induction components with
  | nil => rfl
  | cons head rest ih =>
    obtain ⟨n, v⟩ := head
    rw [modifyComponent]
    split
    · rfl
    · rw [List.map_cons, List.map_cons, ih]

theorem surface_modifySlot (v : Value) (step : Step) (f : Value → Value) :
    (v.modifySlot step f).surface = v.surface := by
  obtain ⟨type, status⟩ := v
  cases status with
  | known datum =>
    cases datum with
    | array elements =>
      cases step with
      | index i => exact congrArg (Surface.array type) (elements.length_modify i f)
      | component name => rfl
    | struct components =>
      cases step with
      | index i => rfl
      | component name =>
        exact congrArg (Surface.struct type) (names_modifyComponent name f components)
    | _ => rfl
  | _ => rfl

/-- A write that leads nowhere is not seen. -/
theorem alike_set_of_get?_eq_none {v : Value} (new : Value) {steps : List Step}
    (h : v.get? steps = none) : (v.set steps new).Alike v := by
  -- The steps that are read along follow those of the write for a while. Up to there only the
  -- surface counts, and from there on nothing was touched.
  intro others
  induction steps generalizing v others with
  | nil => cases h
  | cons step rest ih =>
    rw [set]
    cases others with
    | nil => exact congrArg some (surface_modifySlot v step _)
    | cons other others =>
      rw [get?, get?]
      by_cases heq : other = step
      · subst heq
        rw [slot?_modifySlot_self]
        rw [get?] at h
        cases hslot : v.slot? other with
        | none => rfl
        | some u =>
          rw [hslot] at h
          exact ih h others
      · rw [slot?_modifySlot_of_ne v heq]

theorem Alike.get? {v w : Value} (h : v.Alike w) (steps : List Step) :
    Option.Rel Alike (v.get? steps) (w.get? steps) := by
  cases hv : v.get? steps with
  | none =>
    have hw := h steps
    rw [hv, Option.map_none, eq_comm, Option.map_eq_none_iff] at hw
    rw [hw]
    exact .none
  | some x =>
    have hw := h steps
    rw [hv, Option.map_some, eq_comm, Option.map_eq_some_iff] at hw
    obtain ⟨y, hy, -⟩ := hw
    rw [hy]
    refine .some fun others => ?_
    have hboth := h (steps ++ others)
    rw [get?_append, get?_append, hv, hy] at hboth
    exact hboth

theorem surface_eq_array_iff {v : Value} {type : Ty} {length : Nat} :
    v.surface = .array type length ↔
      ∃ a, v.elements? = some a ∧ v.type = type ∧ a.length = length := by
  obtain ⟨_, status⟩ := v
  cases status with
  | known datum => cases datum <;> simp [surface, elements?]
  | _ => simp [surface, elements?]

theorem slot?_of_elements? {v : Value} {a : SparseArray Value} (h : v.elements? = some a)
    (i : Nat) : v.slot? (.index i) = a.toList[i]? := by
  rw [a.getElem?_toList]
  unfold elements? at h
  split at h
  · rename_i elements hstatus
    cases h
    simp only [slot?, hstatus]
  · cases h

/-- Arrays that are alike have the same length, and their elements are alike one by one. -/
theorem Alike.elements {v w : Value} (h : v.Alike w) {b : SparseArray Value}
    (hb : w.elements? = some b) :
    ∃ a, v.elements? = some a ∧ a.length = b.length ∧
      ∀ i : Nat, Option.Rel Alike a.toList[i]? b.toList[i]? := by
  have hsurface : v.surface = w.surface := Option.some.inj (h [])
  obtain ⟨a, ha, -, hlength⟩ :=
    surface_eq_array_iff.mp (hsurface.trans (surface_eq_array_iff.mpr ⟨b, hb, rfl, rfl⟩))
  refine ⟨a, ha, hlength, fun i => ?_⟩
  have hslots := h.get? [.index i]
  simp only [Value.get?, Option.bind_fun_some] at hslots
  rwa [slot?_of_elements? ha, slot?_of_elements? hb] at hslots

end Value

namespace Path

/-- **The laws of reading and writing.** A write along a path that leads somewhere is read back
there, and inside of it the new value is read. What is read along a path that is neither around the
place nor inside it stays. What is read around the place is changed along the rest of the way. A
write along a path that leads nowhere is not seen along any path, nor in the length and the elements
of an array. -/
theorem lens_laws (p : Path) (v new : Value) :
    (∀ old, p.get? v = some old →
      p.get? (p.set v new) = some new ∧
        ∀ q r : Path, q.steps = p.steps ++ r.steps → q.get? (p.set v new) = r.get? new) ∧
    (∀ q : Path, ¬ p.steps <+: q.steps → ¬ q.steps <+: p.steps →
      q.get? (p.set v new) = q.get? v) ∧
    (∀ q r : Path, p.steps = q.steps ++ r.steps →
      q.get? (p.set v new) = (q.get? v).map (r.set · new)) ∧
    (p.get? v = none →
      (p.set v new).Alike v ∧
        ∀ q : Path, Option.Rel Value.Alike (q.get? (p.set v new)) (q.get? v)) ∧
    (∀ u w : Value, u.Alike w → ∀ b, w.elements? = some b →
      ∃ a, u.elements? = some a ∧ a.length = b.length ∧
        ∀ i : Nat, Option.Rel Value.Alike a.toList[i]? b.toList[i]?) := by
  refine ⟨?inside, ?apart, ?around, ?nowhere, ?alike⟩
  case inside =>
    intro old hold
    constructor
    · rw [Path.get?, Path.set, Value.get?_set_self, ← Path.get?, hold, Option.map_some]
    · intro q r hq
      rw [Path.get?, Path.set, hq]
      exact Value.get?_append_set new hold r.steps
  case apart =>
    intro q hpq hqp
    exact Value.get?_set_of_apart v new hpq hqp
  case around =>
    intro q r hp
    rw [Path.get?, Path.set, hp]
    exact Value.get?_set_append v new q.steps r.steps
  case nowhere =>
    intro hnone
    have halike := Value.alike_set_of_get?_eq_none new hnone
    exact ⟨halike, fun q => halike.get? q.steps⟩
  case alike =>
    intro u w halike b hb
    exact halike.elements hb

/-- No path leads to a component of an integer inside an array. The write stores the element, which
reads as before. -/
theorem abandoned_write_unseen :
    let row : Value := .known (.array .integer 3) (.array (.filled 3 (.integer 0)))
    let p : Path := ⟨.index 1, [.component "x"], .integer⟩
    let after := p.set row (.integer 5)
    after.elements?.map (·.writtenCount) = some 1 ∧ row.elements?.map (·.writtenCount) = some 0 ∧
      p.get? row = none ∧ after.Alike row := by
  intro row p after
  have hnone : p.get? row = none := rfl
  exact ⟨rfl, rfl, hnone, ((lens_laws p row (.integer 5)).2.2.2.1 hnone).1⟩

end Path

end Pseudocode
