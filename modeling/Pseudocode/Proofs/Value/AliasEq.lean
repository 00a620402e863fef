import Pseudocode.Proofs.Folding.Typing
import Pseudocode.Proofs.Ty.Erasure

/-!
# Values that differ in aliases only

`AliasEq` holds of two values that are equal once the aliases are erased from each type in them. A
scalar in the one is then the same scalar in the other.
-/

namespace Pseudocode

mutual

inductive Value.AliasEq : Value → Value → Prop
  | mk {t t' : Ty} {s s' : Status} (type : t.erased = t'.erased) (status : Status.AliasEq s s') :
    Value.AliasEq ⟨t, s⟩ ⟨t', s'⟩

inductive Status.AliasEq : Status → Status → Prop
  | known {d d' : Datum} (datum : Datum.AliasEq d d') : Status.AliasEq (.known d) (.known d')
  | runtime : Status.AliasEq .runtime .runtime
  | garbage : Status.AliasEq .garbage .garbage
  | invalid : Status.AliasEq .invalid .invalid

inductive Datum.AliasEq : Datum → Datum → Prop
  | boolean (b : Bool) : Datum.AliasEq (.boolean b) (.boolean b)
  | character (c : Char) : Datum.AliasEq (.character c) (.character c)
  | integer (n : Int32) : Datum.AliasEq (.integer n) (.integer n)
  | real (x : Float) : Datum.AliasEq (.real x) (.real x)
  | string (s : String) : Datum.AliasEq (.string s) (.string s)
  /-- The same elements are stored, in whatever order they were. -/
  | array {a a' : SparseArray Value} (length : a.length = a'.length)
    (fill : Value.AliasEq a.fill a'.fill)
    (stored : ∀ i, (a.written.lookup i).isSome = (a'.written.lookup i).isSome)
    (written : ∀ i v v', a.written.lookup i = some v → a'.written.lookup i = some v' →
      Value.AliasEq v v') :
    Datum.AliasEq (.array a) (.array a')
  | struct {cs cs' : List (String × Value)} (components : ComponentsAliasEq cs cs') :
    Datum.AliasEq (.struct cs) (.struct cs')

inductive ComponentsAliasEq : List (String × Value) → List (String × Value) → Prop
  | nil : ComponentsAliasEq [] []
  | cons (name : String) {v v' : Value} {cs cs' : List (String × Value)}
    (first : Value.AliasEq v v') (rest : ComponentsAliasEq cs cs') :
    ComponentsAliasEq ((name, v) :: cs) ((name, v') :: cs')

end

/-! ### Scalars -/

/-- A scalar equals itself only. -/
theorem Datum.AliasEq.eq_or_other {d d' : Datum} (h : d.AliasEq d') :
    d = d' ∨ d.kind = .other ∧ d'.kind = .other := by
  cases h with
  | array | struct => exact .inr ⟨rfl, rfl⟩
  | _ => exact .inl rfl

theorem Status.AliasEq.pending (invalid : Bool) :
    Status.AliasEq (.pending invalid) (.pending invalid) := by
  cases invalid with
  | false => exact .runtime
  | true => exact .invalid

theorem Status.convertTo_congr {t t' : Ty} (h : t.erased = t'.erased) (s : Status) :
    s.convertTo t = s.convertTo t' := by
  cases s with
  | known d =>
    cases d with
    | integer n =>
      simp only [convertTo]
      obtain ⟨-, ht⟩ | ⟨_, _, _, ht, ht', -⟩ | ⟨_, _, ht, ht', -⟩ := Ty.unaliased_congr h
      · rw [ht]
      · rw [ht, ht']
      · rw [ht, ht']
    | _ => rfl
  | _ => rfl

theorem Status.AliasEq.convertTo {s s' : Status} (h : s.AliasEq s') (t : Ty) :
    (s.convertTo t).AliasEq (s'.convertTo t) := by
  cases h with
  | known hdatum =>
    have hkept := hdatum
    cases hdatum with
    | integer n =>
      simp only [Status.convertTo]
      split
      · exact .known (.real _)
      · exact .known hkept
    | _ => exact .known hkept
  | runtime => exact .runtime
  | garbage => exact .garbage
  | invalid => exact .invalid

namespace Value.AliasEq

variable {v v' : Value}

theorem intro (type : v.type.erased = v'.type.erased) (status : v.status.AliasEq v'.status) :
    v.AliasEq v' := by
  cases v
  cases v'
  exact .mk type status

theorem erased_type (h : v.AliasEq v') : v.type.erased = v'.type.erased := by
  obtain ⟨htype, -⟩ := h
  exact htype

theorem aliasEq_status (h : v.AliasEq v') : v.status.AliasEq v'.status := by
  obtain ⟨-, hstatus⟩ := h
  exact hstatus

theorem isInvalid_eq (h : v.AliasEq v') : v.isInvalid = v'.isInvalid := by
  obtain ⟨-, hstatus⟩ := h
  cases hstatus <;> rfl

theorem isZero_eq (h : v.AliasEq v') : v.isZero = v'.isZero := by
  obtain ⟨-, hstatus⟩ := h
  cases hstatus with
  | known hdatum => cases hdatum <;> rfl
  | _ => rfl

theorem datum?_cases (h : v.AliasEq v') :
    (∃ d d', v.datum? = some d ∧ v'.datum? = some d' ∧ d.AliasEq d') ∨
      v.datum? = none ∧ v'.datum? = none := by
  obtain ⟨-, hstatus⟩ := h
  cases hstatus with
  | known hdatum => exact .inl ⟨_, _, rfl, rfl, hdatum⟩
  | _ => exact .inr ⟨rfl, rfl⟩

theorem convertTo {t t' : Ty} (h : v.AliasEq v') (ht : t.erased = t'.erased) :
    (v.convertTo t).AliasEq (v'.convertTo t') := by
  refine .mk ht ?_
  rw [← Status.convertTo_congr ht]
  exact h.aliasEq_status.convertTo t

end Value.AliasEq

/-! ### Initial values -/

namespace Ty

theorem status_initial_unaliased (t : Ty) : t.unaliased.initial.status = t.initial.status := by
  fun_induction unaliased t with
  | case1 name target ih => rw [ih, initial]
  | case2 t _ => rfl

theorem status_initial_congr {t t' : Ty} (h : t.erased = t'.erased) (ht : t.isAggregate = false) :
    t'.initial.status = t.initial.status := by
  obtain ⟨-, hunaliased⟩ | ⟨_, _, _, harray, -⟩ | ⟨_, _, hstruct, -⟩ := unaliased_congr h
  · rw [← status_initial_unaliased t', ← hunaliased, status_initial_unaliased]
  · rw [isAggregate, harray] at ht
    cases ht
  · rw [isAggregate, hstruct] at ht
    cases ht

mutual

/-- Only the types inside the initial contents may differ in aliases. -/
theorem aliasEq_status_initial : ∀ {t t' : Ty}, t.erased = t'.erased →
    t.initial.status.AliasEq t'.initial.status
  | .aliased name target, t', h => by
    rw [erased] at h
    rw [initial]
    exact aliasEq_status_initial h
  | .array item length, t', h => by
    obtain ⟨hscalar, -⟩ | ⟨_, item', _, ht, ht', hitem⟩ | ⟨_, _, ht, -, -⟩ := unaliased_congr h
    · cases hscalar
    · cases ht
      rw [← status_initial_unaliased t', ht', initial, initial]
      refine .known (.array rfl (aliasEq_initial hitem) (fun _ => rfl) ?_)
      intro i v v' hv
      cases hv
    · cases ht
  | .struct components, t', h => by
    obtain ⟨hscalar, -⟩ | ⟨_, _, _, ht, -, -⟩ | ⟨_, components', ht, ht', hcomponents⟩ :=
      unaliased_congr h
    · cases hscalar
    · cases ht
    · cases ht
      rw [← status_initial_unaliased t', ht', initial, initial]
      exact .known (.struct (aliasEq_initialComponents hcomponents))
  | .unknown _, t', h => by
    rw [status_initial_congr h rfl, initial]
    exact .invalid
  | .void, t', h => by
    rw [status_initial_congr h rfl, initial]
    exact .runtime
  | .boolean, t', h => by
    rw [status_initial_congr h rfl, initial]
    exact .known (.boolean _)
  | .character, t', h => by
    rw [status_initial_congr h rfl, initial]
    exact .known (.character _)
  | .integer, t', h => by
    rw [status_initial_congr h rfl, initial]
    exact .known (.integer _)
  | .real, t', h => by
    rw [status_initial_congr h rfl, initial]
    exact .known (.real _)
  | .file, t', h | .string, t', h | .boundedString _, t', h => by
    rw [status_initial_congr h rfl, initial]
    exact .garbage

theorem aliasEq_initial {t t' : Ty} (h : t.erased = t'.erased) : t.initial.AliasEq t'.initial := by
  apply Value.AliasEq.intro
  · rw [type_initial, type_initial, h]
  · exact aliasEq_status_initial h

theorem aliasEq_initialComponents : ∀ {cs cs' : List (String × Ty)},
    erasedComponents cs = erasedComponents cs' →
      ComponentsAliasEq (initialComponents cs) (initialComponents cs')
  | [], [], _ => .nil
  | [], _ :: _, h => by simp [erasedComponents] at h
  | _ :: _, [], h => by simp [erasedComponents] at h
  | (name, t) :: cs, (name', t') :: cs', h => by
    simp only [erasedComponents, List.cons.injEq, Prod.mk.injEq] at h
    obtain ⟨⟨rfl, ht⟩, hcs⟩ := h
    exact .cons name (aliasEq_initial ht) (aliasEq_initialComponents hcs)

end

end Ty

end Pseudocode
