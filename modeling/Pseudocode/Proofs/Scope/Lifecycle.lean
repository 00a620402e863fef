import Mathlib.Data.List.Nodup
import Pseudocode.Proofs.Scope.Evolution
import Pseudocode.Semantic.Statement

/-!
# The lifecycle of callables

A callable is announced by a forward declaration and fulfilled by a definition with the same
signature. Here declarations act on the symbols of one scope. Those announced and never fulfilled
are determined by the list of declarations alone.
-/

namespace Pseudocode

open ScopeTable (markDefined)

/-- The callable, if it was announced and is not defined yet. -/
def Symbol.announced? : Symbol → Option Callable
  | .callable c => if c.state = .declared then some c else none
  | _ => none

/-- The callable that a forward declaration binds. -/
def Semantic.Signature.announcement (s : Signature) : Callable :=
  { s.callable with state := .declared }

namespace Semantic.Decl

/-- The symbol that the declaration binds if its name is free. -/
def symbol? : Decl → Option Symbol
  | .constant _ type name init => some (.constant name type (init.value.storedAs type))
  | .typeAlias _ name target => some (.typeAlias name target)
  | .forward _ s => some (.callable s.announcement)
  | .definition _ s _ => some (.callable { s.callable with state := .defined })
  | .main .. | .directive _ => none

def name? (d : Decl) : Option String := d.symbol?.map (·.name.text)

/-- The signature of a forward declaration. -/
def announced? : Decl → Option Signature
  | .forward _ s => some s
  | _ => none

/-- The declaration defines a callable with the signature of `c`. -/
def fulfils (c : Callable) : Decl → Bool
  | .definition _ s _ => c.sameSignature s.callable
  | _ => false

/-- The operation that the declaration makes on the table. -/
def bindIn (scope : ScopeId) (t : ScopeTable) : Decl → Except DeclareError ScopeTable
  | .constant _ type name init => t.declare scope (.constant name type (init.value.storedAs type))
  | .typeAlias _ name target => t.declare scope (.typeAlias name target)
  | .forward _ s => t.declareCallable scope s.callable
  | .definition _ s _ => t.defineCallable scope s.callable
  | .main .. | .directive _ => .ok t

theorem name?_of_fulfils {d : Decl} {c : Callable} (h : d.fulfils c = true) :
    d.name? = some c.name.text := by
  cases d with
  | definition site s body =>
    simp only [fulfils, Callable.sameSignature, Bool.and_eq_true, beq_iff_eq] at h
    exact congrArg some h.1.1.1.2.symm
  | constant | typeAlias | main | forward | directive => cases h

/-- A declaration fulfils callables of its own name only. -/
theorem fulfils_eq_false {d : Decl} {c : Callable} {n : String} (hname : d.name? = some n)
    (h : c.name.text ≠ n) : d.fulfils c = false := by
  refine eq_false_of_ne_true fun hfulfils => h ?_
  exact Option.some.inj ((name?_of_fulfils hfulfils).symm.trans hname)

theorem name?_of_symbol? {d : Decl} {s : Symbol} (h : d.symbol? = some s) :
    d.name? = some s.name.text := by
  rw [name?, h]
  rfl

theorem name?_of_announced? {d : Decl} {s : Signature} (h : d.announced? = some s) :
    d.name? = some s.name.text := by
  cases d with
  | forward =>
    cases h
    rfl
  | constant | typeAlias | main | definition | directive => cases h

end Semantic.Decl

open Semantic (Decl Signature)

/-! ### The symbols of a scope -/

/-- What becomes of the symbols of a scope when a declaration is made in it. -/
def bindDecl (symbols : List Symbol) (d : Decl) : List Symbol :=
  match d.symbol? with
  | none => symbols
  | some s =>
    match symbols.find? (·.name.text == s.name.text) with
    | none => symbols ++ [s]
    | some (.callable c) =>
      if c.state ≠ .defined ∧ d.fulfils c = true then markDefined s.name.text symbols else symbols
    | some _ => symbols

section bindDecl

variable {symbols : List Symbol} {d : Decl} {s : Symbol}

theorem bindDecl_of_symbol?_eq_none (hs : d.symbol? = none) : bindDecl symbols d = symbols := by
  rw [bindDecl, hs]

theorem bindDecl_of_free (hs : d.symbol? = some s)
    (hfree : symbols.find? (·.name.text == s.name.text) = none) :
    bindDecl symbols d = symbols ++ [s] := by
  simp only [bindDecl, hs, hfree]

theorem bindDecl_of_fulfils {c : Callable} (hs : d.symbol? = some s)
    (hfound : symbols.find? (·.name.text == s.name.text) = some (.callable c))
    (hstate : c.state ≠ .defined) (hd : d.fulfils c = true) :
    bindDecl symbols d = markDefined s.name.text symbols := by
  simp only [bindDecl, hs, hfound]
  exact if_pos ⟨hstate, hd⟩

theorem bindDecl_of_taken {existing : Symbol} (hs : d.symbol? = some s)
    (hfound : symbols.find? (·.name.text == s.name.text) = some existing)
    (hd : ∀ c, existing = .callable c → c.state ≠ .defined → d.fulfils c = false) :
    bindDecl symbols d = symbols := by
  simp only [bindDecl, hs, hfound]
  cases existing with
  | callable c =>
    refine if_neg fun h => ?_
    rw [hd c rfl h.1] at h
    exact Bool.false_ne_true h.2
  | localVariable | constant | parameter | typeAlias => rfl

end bindDecl

theorem symbols_bind {t : ScopeTable} {scope : ScopeId} (h : scope < t.size) (s : Symbol) :
    (t.bind scope s).symbols scope = t.symbols scope ++ [s] := by
  rw [ScopeTable.bind, ScopeTable.symbols_modifySymbols, if_pos ⟨rfl, h⟩]

theorem symbols_declare {t : ScopeTable} {scope : ScopeId} (h : scope < t.size) {d : Decl}
    {s : Symbol} (hs : d.symbol? = some s) (hd : ∀ c, d.fulfils c = false) :
    ((t.declare scope s).toOption.getD t).symbols scope = bindDecl (t.symbols scope) d := by
  unfold ScopeTable.declare ScopeTable.local?
  split
  · rename_i existing hfound
    exact (bindDecl_of_taken hs hfound fun c _ _ => hd c).symm
  · rename_i hfree
    rw [bindDecl_of_free hs hfree]
    exact symbols_bind h s

theorem symbols_declareCallable {t : ScopeTable} {scope : ScopeId} (h : scope < t.size)
    (site : Semantic.Site) (s : Signature) :
    ((t.declareCallable scope s.callable).toOption.getD t).symbols scope =
      bindDecl (t.symbols scope) (.forward site s) := by
  have hs : (Decl.forward site s).symbol? = some (.callable s.announcement) := rfl
  unfold ScopeTable.declareCallable ScopeTable.local?
  split
  · rename_i hfree
    rw [bindDecl_of_free hs hfree]
    exact symbols_bind h _
  · rename_i existing hfound
    rw [bindDecl_of_taken hs hfound fun _ _ _ => rfl]
    split <;> rfl
  · rename_i existing _ hfound
    exact (bindDecl_of_taken hs hfound fun _ _ _ => rfl).symm

theorem symbols_defineCallable {t : ScopeTable} {scope : ScopeId} (h : scope < t.size)
    (site : Semantic.Site) (s : Signature) (body : Semantic.Block) :
    ((t.defineCallable scope s.callable).toOption.getD t).symbols scope =
      bindDecl (t.symbols scope) (.definition site s body) := by
  have hs : (Decl.definition site s body).symbol? =
      some (.callable { s.callable with state := .defined }) := rfl
  unfold ScopeTable.defineCallable ScopeTable.local?
  split
  · rename_i hfree
    rw [bindDecl_of_free hs hfree]
    exact symbols_bind h _
  · rename_i c hfound
    by_cases hstate : c.state = .defined
    · rw [if_pos hstate]
      refine (bindDecl_of_taken hs hfound ?_).symm
      rintro _ ⟨⟩ hundefined
      exact absurd hstate hundefined
    · rw [if_neg hstate]
      by_cases hsame : c.sameSignature s.callable = true
      · rw [if_pos hsame, bindDecl_of_fulfils hs hfound hstate hsame]
        exact (ScopeTable.symbols_modifySymbols ..).trans (if_pos ⟨rfl, h⟩)
      · rw [if_neg hsame]
        refine (bindDecl_of_taken hs hfound ?_).symm
        rintro _ ⟨⟩ _
        exact eq_false_of_ne_true hsame
  · rename_i existing hother hfound
    refine (bindDecl_of_taken hs hfound ?_).symm
    rintro c rfl
    exact absurd rfl (hother c)

/-- The symbols after a declaration, which are the same as before if it is refused. -/
theorem symbols_bindIn {t : ScopeTable} {scope : ScopeId} (h : scope < t.size) (d : Decl) :
    ((d.bindIn scope t).toOption.getD t).symbols scope = bindDecl (t.symbols scope) d := by
  cases d with
  | constant | typeAlias => exact symbols_declare h rfl fun _ => rfl
  | main | directive => rfl
  | forward site s => exact symbols_declareCallable h site s
  | definition site s body => exact symbols_defineCallable h site s body

/-! ### Names -/

/-- The names bound by symbols. -/
def names (symbols : List Symbol) : List String := symbols.map (·.name.text)

theorem find?_eq_none_iff {symbols : List Symbol} {n : String} :
    symbols.find? (·.name.text == n) = none ↔ n ∉ names symbols := by
  simp [names]

theorem find?_cons_same {s : Symbol} {rest : List Symbol} {n : String} (h : s.name.text = n) :
    (s :: rest).find? (·.name.text == n) = some s :=
  List.find?_cons_of_pos (by simpa using h)

theorem find?_cons_other {s : Symbol} {rest : List Symbol} {n : String} (h : s.name.text ≠ n) :
    (s :: rest).find? (·.name.text == n) = rest.find? (·.name.text == n) :=
  List.find?_cons_of_neg (by simpa using h)

theorem names_markDefined (n : String) (symbols : List Symbol) :
    names (markDefined n symbols) = names symbols := by
  have hnames := congrArg (List.map (·.text)) (ScopeTable.map_name_markDefined n symbols)
  rwa [List.map_map, List.map_map] at hnames

theorem name_of_find? {symbols : List Symbol} {n : String} {s : Symbol}
    (h : symbols.find? (·.name.text == n) = some s) : s.name.text = n := by
  simpa using List.find?_some h

/-- What a declaration can do: nothing, bind a free name, or define what was announced. -/
theorem bindDecl_cases (symbols : List Symbol) (d : Decl) :
    (bindDecl symbols d = symbols ∧ (∀ n, d.name? = some n → n ∈ names symbols) ∧
      ∀ c, symbols.find? (·.name.text == c.name.text) = some (.callable c) →
        c.state ≠ .defined → d.fulfils c = false) ∨
    (∃ s, d.symbol? = some s ∧ s.name.text ∉ names symbols ∧ bindDecl symbols d = symbols ++ [s]) ∨
    ∃ c, symbols.find? (·.name.text == c.name.text) = some (.callable c) ∧ c.state ≠ .defined ∧
      d.fulfils c = true ∧ bindDecl symbols d = markDefined c.name.text symbols := by
  cases hs : d.symbol? with
  | none =>
    have hname : d.name? = none := by rw [Decl.name?, hs]; rfl
    refine .inl ⟨bindDecl_of_symbol?_eq_none hs, by simp [hname], fun c _ _ => ?_⟩
    refine eq_false_of_ne_true fun hfulfils => ?_
    rw [Decl.name?_of_fulfils hfulfils] at hname
    cases hname
  | some s =>
    have hname := Decl.name?_of_symbol? hs
    cases hfind : symbols.find? (·.name.text == s.name.text) with
    | none => exact .inr (.inl ⟨s, rfl, find?_eq_none_iff.mp hfind, bindDecl_of_free hs hfind⟩)
    | some existing =>
      by_cases hdefines : ∃ c, existing = .callable c ∧ c.state ≠ .defined ∧ d.fulfils c = true
      · obtain ⟨c, rfl, hstate, hfulfils⟩ := hdefines
        have hc : c.name.text = s.name.text := name_of_find? hfind
        refine .inr (.inr ⟨c, hc ▸ hfind, hstate, hfulfils, ?_⟩)
        rw [hc, bindDecl_of_fulfils hs hfind hstate hfulfils]
      · have hnot (c : Callable) (hexisting : existing = .callable c)
            (hstate : c.state ≠ .defined) : d.fulfils c = false :=
          eq_false_of_ne_true fun hfulfils => hdefines ⟨c, hexisting, hstate, hfulfils⟩
        refine .inl ⟨bindDecl_of_taken hs hfind hnot, ?_, ?_⟩
        · rintro n hn
          obtain rfl := Option.some.inj (hname.symm.trans hn)
          refine Decidable.not_not.mp fun hfree => ?_
          rw [find?_eq_none_iff.mpr hfree] at hfind
          cases hfind
        · intro c hc hstate
          by_cases hsame : c.name.text = s.name.text
          · rw [hsame, hfind] at hc
            exact hnot c (Option.some.inj hc) hstate
          · exact Decl.fulfils_eq_false hname hsame

theorem mem_names_bindDecl {symbols : List Symbol} {d : Decl} {n : String} :
    n ∈ names (bindDecl symbols d) ↔ n ∈ names symbols ∨ d.name? = some n := by
  obtain ⟨hbind, htaken, -⟩ | ⟨s, hs, -, hbind⟩ | ⟨c, hc, -, hfulfils, hbind⟩ :=
    bindDecl_cases symbols d
  · rw [hbind]
    exact ⟨.inl, fun h => h.elim id (htaken n)⟩
  · rw [hbind, Decl.name?_of_symbol? hs]
    simp [names, eq_comm]
  · have hmem : c.name.text ∈ names symbols := List.mem_map_of_mem (List.mem_of_find?_eq_some hc)
    rw [hbind, names_markDefined, Decl.name?_of_fulfils hfulfils]
    refine ⟨.inl, fun h => h.elim id ?_⟩
    rintro ⟨⟩
    exact hmem

/-- A scope binds a name at most once. -/
theorem nodup_names_bindDecl {symbols : List Symbol} (h : (names symbols).Nodup) (d : Decl) :
    (names (bindDecl symbols d)).Nodup := by
  obtain ⟨hbind, -⟩ | ⟨s, -, hfree, hbind⟩ | ⟨c, -, -, -, hbind⟩ := bindDecl_cases symbols d
  · rwa [hbind]
  · have hconcat := h.concat hfree
    rw [List.concat_eq_append] at hconcat
    rwa [hbind, names, List.map_append]
  · rwa [hbind, names_markDefined]

/-! ### Announced callables -/

theorem mem_of_mem_announced {symbols : List Symbol} {c : Callable}
    (h : c ∈ symbols.filterMap Symbol.announced?) :
    .callable c ∈ symbols ∧ c.state = .declared := by
  obtain ⟨s, hs, hannounced⟩ := List.mem_filterMap.mp h
  cases s with
  | callable c' =>
    simp only [Symbol.announced?, Option.ite_none_right_eq_some, Option.some.injEq] at hannounced
    obtain ⟨hstate, rfl⟩ := hannounced
    exact ⟨hs, hstate⟩
  | localVariable | constant | parameter | typeAlias => cases hannounced

/-- With each name bound once, a symbol is found under its name. -/
theorem find?_of_mem {symbols : List Symbol} (h : (names symbols).Nodup) {s : Symbol}
    (hs : s ∈ symbols) : symbols.find? (·.name.text == s.name.text) = some s := by
  induction symbols with
  | nil => cases hs
  | cons first rest ih =>
    obtain ⟨hfirst, hrest⟩ := List.nodup_cons.mp h
    obtain rfl | hs := List.mem_cons.mp hs
    · exact find?_cons_same rfl
    · have hne : first.name.text ≠ s.name.text := by
        intro heq
        exact hfirst (List.mem_map.mpr ⟨s, hs, heq.symm⟩)
      rw [find?_cons_other hne]
      exact ih hrest hs

theorem announced_markDefined {symbols : List Symbol} (h : (names symbols).Nodup) (n : String) :
    (markDefined n symbols).filterMap Symbol.announced? =
      (symbols.filterMap Symbol.announced?).filter (·.name.text != n) := by
  fun_induction markDefined n symbols with
  | case1 => rfl
  | case2 c rest hname =>
    have hrest : (rest.filterMap Symbol.announced?).filter (·.name.text != n) =
        rest.filterMap Symbol.announced? := by
      refine List.filter_eq_self.mpr fun c' hc' => bne_iff_ne.mpr fun hn => ?_
      have hmem : c'.name.text ∈ names rest := List.mem_map_of_mem (mem_of_mem_announced hc').1
      rw [hn, ← beq_iff_eq.mp hname] at hmem
      exact (List.nodup_cons.mp h).1 hmem
    by_cases hstate : c.state = .declared
    · simp [Symbol.announced?, hstate, hrest, beq_iff_eq.mp hname]
    · simp [Symbol.announced?, hstate, hrest]
  | case3 c rest hname ih =>
    have hne : (c.name.text != n) = true := by simpa using hname
    have hrest := ih (List.nodup_cons.mp h).2
    by_cases hstate : c.state = .declared
    · simp [Symbol.announced?, hstate, hrest, hne]
    · simp [Symbol.announced?, hstate, hrest]
  | case4 s rest hs ih =>
    have hnone : s.announced? = none := by
      cases s with
      | callable c => exact absurd rfl (hs c)
      | localVariable | constant | parameter | typeAlias => rfl
    rw [List.filterMap_cons_none hnone, List.filterMap_cons_none hnone]
    exact ih (List.nodup_cons.mp h).2

theorem filter_announced_eq_self {symbols : List Symbol} {d : Decl}
    (h : ∀ c, .callable c ∈ symbols → c.state = .declared → d.fulfils c = false) :
    (symbols.filterMap Symbol.announced?).filter (!d.fulfils ·) =
      symbols.filterMap Symbol.announced? := by
  refine List.filter_eq_self.mpr fun c hc => ?_
  obtain ⟨hmem, hstate⟩ := mem_of_mem_announced hc
  rw [h c hmem hstate]
  rfl

/-- Of the announced callables, a declaration fulfils one at most. -/
theorem filter_announced_of_fulfils {symbols : List Symbol} (h : (names symbols).Nodup)
    {c : Callable} (hc : symbols.find? (·.name.text == c.name.text) = some (.callable c)) {d : Decl}
    (hd : d.fulfils c = true) :
    (symbols.filterMap Symbol.announced?).filter (!d.fulfils ·) =
      (symbols.filterMap Symbol.announced?).filter (·.name.text != c.name.text) := by
  refine List.filter_congr fun c' hc' => ?_
  by_cases hname : c'.name.text = c.name.text
  · have hsame := find?_of_mem h (mem_of_mem_announced hc').1
    change symbols.find? (·.name.text == c'.name.text) = _ at hsame
    rw [hname, hc] at hsame
    cases hsame
    simp [hd]
  · simp [Decl.fulfils_eq_false (Decl.name?_of_fulfils hd) hname, hname]

/-- A declaration settles what it fulfils, and announces its own callable if the name is free. -/
theorem announced_bindDecl {symbols : List Symbol} (h : (names symbols).Nodup) (d : Decl) :
    (bindDecl symbols d).filterMap Symbol.announced? =
      (symbols.filterMap Symbol.announced?).filter (!d.fulfils ·) ++
        ((d.announced?.filter (·.name.text ∉ names symbols)).map
          Signature.announcement).toList := by
  obtain ⟨hbind, htaken, hnot⟩ | ⟨s, hs, hfree, hbind⟩ | ⟨c, hc, hstate, hfulfils, hbind⟩ :=
    bindDecl_cases symbols d
  · have hnone (c : Callable) (hc : .callable c ∈ symbols) (hstate : c.state = .declared) :
        d.fulfils c = false := by
      have hfound := find?_of_mem h hc
      exact hnot c hfound (by simp [hstate])
    rw [hbind, filter_announced_eq_self hnone]
    cases d with
    | forward site s => simp [Decl.announced?, htaken s.name.text rfl]
    | constant | typeAlias | main | definition | directive => exact (List.append_nil _).symm
  · have hnone (c : Callable) (hc : .callable c ∈ symbols) (_ : c.state = .declared) :
        d.fulfils c = false := by
      refine Decl.fulfils_eq_false (Decl.name?_of_symbol? hs) fun hname => hfree ?_
      rw [← hname]
      exact List.mem_map_of_mem hc
    rw [hbind, filter_announced_eq_self hnone, List.filterMap_append]
    congr 1
    cases d with
    | forward site s' =>
      cases hs
      have hname' : s'.name.text ∉ names symbols := hfree
      simp [Decl.announced?, Symbol.announced?, Signature.announcement, Option.filter_some, hname']
    | constant | typeAlias | definition =>
      cases hs
      rfl
    | main | directive => cases hs
  · rw [hbind, announced_markDefined h, filter_announced_of_fulfils h hc hfulfils]
    cases d with
    | definition => exact (List.append_nil _).symm
    | constant | typeAlias | main | forward | directive => cases hfulfils

/-! ### Announced and never fulfilled -/

/-- The signatures that the declarations announce under a new name and do not fulfil later on. The
names in `before` are not new. -/
def pendingAfter (before : List Decl) : List Decl → List Signature
  | [] => []
  | d :: rest =>
    (d.announced?.filter fun s =>
      before.all (·.name? != some s.name.text) && !rest.any (·.fulfils s.announcement)).toList ++
      pendingAfter (before ++ [d]) rest

theorem announced_foldl_bindDecl (before ds : List Decl) {symbols : List Symbol}
    (hnodup : (names symbols).Nodup)
    (hnames : ∀ n, n ∈ names symbols ↔ ∃ d ∈ before, d.name? = some n) :
    (ds.foldl bindDecl symbols).filterMap Symbol.announced? =
      (symbols.filterMap Symbol.announced?).filter (fun c => !ds.any (·.fulfils c)) ++
        (pendingAfter before ds).map Signature.announcement := by
  induction ds generalizing before symbols with
  | nil =>
    simp [pendingAfter]
  | cons d rest ih =>
    have hnames' (n : String) :
        n ∈ names (bindDecl symbols d) ↔ ∃ d' ∈ before ++ [d], d'.name? = some n := by
      rw [mem_names_bindDecl, hnames]
      simp [or_and_right, exists_or]
    have hnew : ((d.announced?.filter (·.name.text ∉ names symbols)).map
          Signature.announcement).toList.filter (fun c => !rest.any (·.fulfils c)) =
        (d.announced?.filter fun s =>
          before.all (·.name? != some s.name.text) &&
            !rest.any (·.fulfils s.announcement)).toList.map Signature.announcement := by
      cases d.announced? with
      | none => rfl
      | some s =>
        have hbefore : before.all (·.name? != some s.name.text) =
            decide (s.name.text ∉ names symbols) := by
          rw [Bool.eq_iff_iff, decide_eq_true_iff, hnames]
          simp
        by_cases hfree : s.name.text ∈ names symbols
        · simp [Option.filter_some, hbefore, hfree]
        · cases hrest : rest.any (·.fulfils s.announcement) <;>
            simp [Option.filter_some, hbefore, hfree, hrest]
    rw [List.foldl_cons, ih _ (nodup_names_bindDecl hnodup d) hnames', announced_bindDecl hnodup,
      List.filter_append, List.filter_filter, hnew, pendingAfter, List.map_append,
      List.append_assoc]
    congr 2
    funext c
    simp [Bool.and_comm]

/-- The first declaration of the name announces `s`, and no later one fulfils it. -/
def Pending (ds : List Decl) (s : Signature) : Prop :=
  ∃ before site after, ds = before ++ .forward site s :: after ∧
    (∀ d ∈ before, d.name? ≠ some s.name.text) ∧ ∀ d ∈ after, d.fulfils s.announcement = false

theorem pending_cons {d : Decl} {rest : List Decl} {s : Signature} :
    Pending (d :: rest) s ↔
      (d.announced? = some s ∧ ∀ d' ∈ rest, d'.fulfils s.announcement = false) ∨
        d.name? ≠ some s.name.text ∧ Pending rest s := by
  constructor
  · rintro ⟨before, site, after, hds, hbefore, hafter⟩
    cases before with
    | nil =>
      obtain ⟨rfl, rfl⟩ := List.cons.inj hds
      exact .inl ⟨rfl, hafter⟩
    | cons first before =>
      obtain ⟨rfl, rfl⟩ := List.cons.inj hds
      refine .inr ⟨hbefore d List.mem_cons_self, before, site, after, rfl, ?_, hafter⟩
      exact fun d' hd' => hbefore d' (List.mem_cons_of_mem _ hd')
  · rintro (⟨hd, hrest⟩ | ⟨hd, before, site, after, rfl, hbefore, hafter⟩)
    · cases d with
      | forward site s' =>
        cases hd
        exact ⟨[], site, rest, rfl, nofun, hrest⟩
      | constant | typeAlias | main | definition | directive => cases hd
    · refine ⟨d :: before, site, after, rfl, ?_, hafter⟩
      exact List.forall_mem_cons.mpr ⟨hd, hbefore⟩

theorem mem_pendingAfter {before ds : List Decl} {s : Signature} :
    s ∈ pendingAfter before ds ↔ (∀ d ∈ before, d.name? ≠ some s.name.text) ∧ Pending ds s := by
  induction ds generalizing before with
  | nil =>
    refine ⟨nofun, ?_⟩
    rintro ⟨-, first, site, after, hds, -⟩
    cases first <;> cases hds
  | cons d rest ih =>
    rw [pendingAfter, List.mem_append, ih, pending_cons]
    simp only [Option.mem_toList, Option.filter_eq_some_iff, Bool.and_eq_true, List.all_eq_true,
      bne_iff_ne, Bool.not_eq_true', List.any_eq_false, Bool.not_eq_true, List.forall_mem_append,
      List.mem_singleton, forall_eq]
    constructor
    · rintro (⟨hd, hbefore, hrest⟩ | ⟨⟨hbefore, hd⟩, hpending⟩)
      · exact ⟨hbefore, .inl ⟨hd, hrest⟩⟩
      · exact ⟨hbefore, .inr ⟨hd, hpending⟩⟩
    · rintro ⟨hbefore, ⟨hd, hrest⟩ | ⟨hd, hpending⟩⟩
      · exact .inl ⟨hd, hbefore, hrest⟩
      · exact .inr ⟨⟨hbefore, hd⟩, hpending⟩

theorem filterMap_cons_toList {α β : Type} (f : α → Option β) (a : α) (rest : List α) :
    (a :: rest).filterMap f = (f a).toList ++ rest.filterMap f := by
  cases h : f a with
  | none => rw [List.filterMap_cons_none h]; rfl
  | some b => rw [List.filterMap_cons_some h]; rfl

/-- The place of the first declaration of a name. -/
def declaredAt (ds : List Decl) (n : String) : Nat :=
  ds.findIdx (·.name? == some n)

theorem declaredAt_append {before : List Decl} {n : String}
    (h : ∀ d ∈ before, d.name? ≠ some n) (ds : List Decl) :
    declaredAt (before ++ ds) n = declaredAt ds n + before.length := by
  have hbefore : before.findIdx (·.name? == some n) = before.length :=
    List.findIdx_eq_length.mpr fun d hd => beq_eq_false_iff_ne.mpr (h d hd)
  rw [declaredAt, List.findIdx_append, hbefore, if_neg (Nat.lt_irrefl _), declaredAt]

/-- They come in the order in which their names were first declared. -/
theorem ordered_pendingAfter (before ds : List Decl) :
    (pendingAfter before ds).Pairwise fun s s' =>
      declaredAt (before ++ ds) s.name.text < declaredAt (before ++ ds) s'.name.text := by
  induction ds generalizing before with
  | nil => exact .nil
  | cons d rest ih =>
    have hrest := ih (before ++ [d])
    rw [List.append_assoc, List.singleton_append] at hrest
    rw [pendingAfter]
    refine List.pairwise_append.mpr ⟨?_, hrest, fun s hs s' hs' => ?_⟩
    · cases Option.filter _ d.announced? with
      | none => exact .nil
      | some s => exact List.pairwise_singleton _ _
    -- The name of `s` is first declared by `d`, that of `s'` neither by `d` nor before it.
    · have hd : d.name? = some s.name.text :=
        Decl.name?_of_announced? (Option.filter_eq_some_iff.mp (Option.mem_toList.mp hs)).1
      have hmem : s ∈ pendingAfter before (d :: rest) := List.mem_append_left _ hs
      have hfirst := (mem_pendingAfter.mp hmem).1
      have hlater := (mem_pendingAfter.mp hs').1
      calc declaredAt (before ++ d :: rest) s.name.text
          = before.length := by
            rw [declaredAt_append hfirst, declaredAt, List.findIdx_cons, hd, beq_self_eq_true]
            exact Nat.zero_add _
        _ < declaredAt rest s'.name.text + (before ++ [d]).length := by
            rw [List.length_append, List.length_singleton]
            omega
        _ = declaredAt (before ++ d :: rest) s'.name.text := by
            rw [← declaredAt_append hlater, List.append_assoc, List.singleton_append]

/-- The signatures in question are those announced first and never fulfilled. Each name has at most
one, and they come in the order in which their names were first declared. -/
structure Missing (ds : List Decl) (ss : List Signature) : Prop where
  mem_iff : ∀ s, s ∈ ss ↔ Pending ds s
  nodup : (ss.map (·.name.text)).Nodup
  ordered : ss.Pairwise fun s s' => declaredAt ds s.name.text < declaredAt ds s'.name.text

theorem missing_pendingAfter (ds : List Decl) : Missing ds (pendingAfter [] ds) where
  mem_iff _ := mem_pendingAfter.trans (and_iff_right nofun)
  nodup := List.pairwise_map.mpr <| (ordered_pendingAfter [] ds).imp fun hlt hname =>
    Nat.ne_of_lt hlt (congrArg _ hname)
  ordered := ordered_pendingAfter [] ds

/-! ### A callable from its announcement on -/

theorem find?_markDefined {symbols : List Symbol} {n : String} {c : Callable}
    (h : symbols.find? (·.name.text == n) = some (.callable c)) :
    (markDefined n symbols).find? (·.name.text == n) =
      some (.callable { c with state := .defined }) := by
  fun_induction markDefined n symbols with
  | case1 => cases h
  | case2 c' rest hname =>
    have hn : (Symbol.callable c').name.text = n := beq_iff_eq.mp hname
    obtain ⟨⟩ := (find?_cons_same hn).symm.trans h
    exact find?_cons_same hn
  | case3 c' rest hname ih =>
    have hn : (Symbol.callable c').name.text ≠ n := fun heq => hname (beq_iff_eq.mpr heq)
    exact (find?_cons_other hn).trans (ih ((find?_cons_other hn).symm.trans h))
  | case4 s rest hs ih =>
    by_cases hn : s.name.text = n
    · obtain ⟨⟩ := (find?_cons_same hn).symm.trans h
      exact absurd rfl (hs c)
    · exact (find?_cons_other hn).trans (ih ((find?_cons_other hn).symm.trans h))

theorem find?_markDefined_of_ne {symbols : List Symbol} {n m : String} (h : m ≠ n) :
    (markDefined m symbols).find? (·.name.text == n) = symbols.find? (·.name.text == n) := by
  fun_induction markDefined m symbols with
  | case1 => rfl
  | case2 c rest hname =>
    have hn : (Symbol.callable c).name.text ≠ n := fun heq =>
      h ((beq_iff_eq.mp hname).symm.trans heq)
    rw [find?_cons_other hn]
    exact find?_cons_other hn
  | case3 c rest hname ih => rw [List.find?_cons, List.find?_cons, ih]
  | case4 s rest hs ih => rw [List.find?_cons, List.find?_cons, ih]

/-- A callable that is bound stays bound. A declaration can only fulfil it. -/
theorem find?_bindDecl {symbols : List Symbol} {n : String} {c : Callable}
    (h : symbols.find? (·.name.text == n) = some (.callable c)) (d : Decl) :
    (bindDecl symbols d).find? (·.name.text == n) =
      some (.callable (if d.fulfils c then { c with state := .defined } else c)) := by
  have hn : c.name.text = n := name_of_find? h
  obtain ⟨hbind, -, hnot⟩ | ⟨s, hs, hfree, hbind⟩ | ⟨c', hc', hstate, hfulfils, hbind⟩ :=
    bindDecl_cases symbols d
  · rw [hbind, h]
    by_cases hstate : c.state = .defined
    · have hsame : { c with state := .defined } = c := by rw [← hstate]
      rw [hsame, ite_self]
    · subst hn
      rw [hnot c h hstate]
      rfl
  · have hnot : d.fulfils c = false := by
      refine Decl.fulfils_eq_false (Decl.name?_of_symbol? hs) fun hname => hfree ?_
      rw [← hname]
      exact List.mem_map_of_mem (List.mem_of_find?_eq_some h)
    rw [hbind, List.find?_append, h, hnot]
    rfl
  · rw [hbind]
    by_cases hname : c'.name.text = n
    · rw [hname] at hc' ⊢
      obtain ⟨⟩ := h.symm.trans hc'
      rw [find?_markDefined h, if_pos hfulfils]
    · have hne : c.name.text ≠ c'.name.text := fun heq => hname (heq.symm.trans hn)
      rw [find?_markDefined_of_ne hname, h,
        Decl.fulfils_eq_false (Decl.name?_of_fulfils hfulfils) hne]
      rfl

theorem find?_foldl_bindDecl {symbols : List Symbol} {n : String} {c : Callable}
    (h : symbols.find? (·.name.text == n) = some (.callable c)) (ds : List Decl) :
    (ds.foldl bindDecl symbols).find? (·.name.text == n) =
      some (.callable (if ds.any (·.fulfils c) then { c with state := .defined } else c)) := by
  induction ds generalizing symbols c with
  | nil => exact h
  | cons d rest ih =>
    -- Whether a declaration fulfils a callable does not depend on its state.
    have hstate (d' : Decl) : d'.fulfils { c with state := .defined } = d'.fulfils c := by
      cases d' <;> rfl
    rw [List.foldl_cons, ih (find?_bindDecl h d), List.any_cons]
    cases hd : d.fulfils c with
    | false => simp
    | true => simp [hstate]

theorem mem_names_foldl_bindDecl {symbols : List Symbol} {ds : List Decl} {n : String} :
    n ∈ names (ds.foldl bindDecl symbols) ↔ n ∈ names symbols ∨ ∃ d ∈ ds, d.name? = some n := by
  induction ds generalizing symbols with
  | nil => simp
  | cons d rest ih =>
    rw [List.foldl_cons, ih, mem_names_bindDecl, or_assoc, List.exists_mem_cons_iff]

/-- What a scope binds to the name of the first callable announced under it, some declarations
later. -/
theorem find?_of_announced {before after : List Decl} {site : Semantic.Site} {s : Signature}
    (h : ∀ d ∈ before, d.name? ≠ some s.name.text) :
    ((before ++ .forward site s :: after).foldl bindDecl []).find? (·.name.text == s.name.text) =
      some (.callable (if after.any (·.fulfils s.announcement)
        then { s.announcement with state := .defined } else s.announcement)) := by
  have hfree : (before.foldl bindDecl []).find? (·.name.text == s.name.text) = none := by
    rw [find?_eq_none_iff, mem_names_foldl_bindDecl]
    rintro (hnil | ⟨d, hd, hname⟩)
    · cases hnil
    · exact h d hd hname
  have hbind : bindDecl (before.foldl bindDecl []) (.forward site s) =
      before.foldl bindDecl [] ++ [.callable s.announcement] := bindDecl_of_free rfl hfree
  rw [List.foldl_append, List.foldl_cons, hbind]
  refine find?_foldl_bindDecl ?_ after
  rw [List.find?_append, hfree]
  exact find?_cons_same rfl

end Pseudocode
