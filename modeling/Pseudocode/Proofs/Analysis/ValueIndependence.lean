import Mathlib.Data.List.Forall2
import Pseudocode.Proofs.Analysis.ConstantAssignment
import Pseudocode.Proofs.Analysis.Twins
import Pseudocode.Proofs.Scope.Interface

/-!
# Types do not depend on values

What is known of the constants decides what is known of an expression. It does not decide the type
of the expression, aliases apart, nor what is reported, apart from divisions by zero and indices out
of bounds. Two analyses are compared that start from scopes of one interface.

The comparison rests on every value being of the type that its place declares, at any depth. A cast
to a type with an unknown type inside of it breaks this: the value that is cast keeps the types of
its components.
-/

namespace Pseudocode

open Traced (report)
open Value (Twin)
open Traced (Agrees agrees_pure agrees_report_bind agrees_report_unless_bind)

/-! ### Checks -/

/-- The expression, analysed twice. -/
structure Semantic.Expr.Twin (e e' : Semantic.Expr) : Prop where
  span : e.span = e'.span
  value : e.value.Twin e'.value

namespace Check

variable {e e' l l' r r' : Semantic.Expr}

theorem agrees_convertible (he : e.Twin e') (target : Ty) :
    Agrees Eq (convertible e target) (convertible e' target) := by
  have hcongr : e.type.convertible target = e'.type.convertible target :=
    (Ty.relations_congr he.value.erased rfl).2.1
  unfold convertible
  rw [hcongr, he.span]
  split
  · exact agrees_pure rfl
  · exact agrees_report_bind _ (agrees_pure rfl) rfl

theorem marks_remarks (unsupported : Cause) (span : Span) (rs : List Remark) :
    (remarks unsupported span rs).pick Event.mark? =
      (remarks unsupported span (rs.filter Remark.isStatic)).pick Event.mark? := by
  induction rs with
  | nil => rfl
  | cons r rest ih =>
    rw [remarks, Traced.pick_bind, ih]
    cases r with
    | divisionByZero | integerOverflow => rfl
    | floatingPointEquality | unsupportedOperation =>
      rw [List.filter_cons_of_pos rfl, remarks, Traced.pick_bind]

theorem agrees_remarks {unsupported unsupported' : Cause}
    (hcode : unsupported.code = unsupported'.code) (span : Span) {rs rs' : List Remark}
    (h : rs.filter Remark.isStatic = rs'.filter Remark.isStatic) :
    Agrees Eq (remarks unsupported span rs) (remarks unsupported' span rs') := by
  refine ⟨rfl, ?_⟩
  rw [marks_remarks, h, marks_remarks unsupported' span rs']
  induction rs'.filter Remark.isStatic with
  | nil => rfl
  | cons r rest ih =>
    rw [remarks, remarks, Traced.pick_bind, Traced.pick_bind, ih]
    congr 1
    cases r with
    | unsupportedOperation => exact (Traced.agrees_report span hcode).marks
    | _ => rfl

/-- An operation is made the same of, as far as types go. -/
theorem agrees_operation {o o' : Operation} {typing typing' : Ty × List Remark}
    (ho : o.Typed typing) (ho' : o'.Typed typing')
    (h : typing.1.erased = typing'.1.erased ∧ typing.2 = typing'.2)
    {unsupported unsupported' : Cause} (span : Span)
    (hcode : unsupported.code = unsupported'.code) :
    Agrees Twin (do
        remarks unsupported span o.remarks
        return o.value) (do
        remarks unsupported' span o'.remarks
        return o'.value) := by
  have hremarks := ho.remarks.trans (h.2.trans ho'.remarks.symm)
  refine (agrees_remarks hcode span hremarks).bind fun _ _ _ => agrees_pure ?_
  refine ⟨?_, ho.isPlausible, ho'.isPlausible⟩
  rw [ho.type, ho'.type, h.1]

theorem agrees_binary (op : BinaryOp) (hl : l.Twin l') (hr : r.Twin r') (span : Span) :
    Agrees Twin (binary op l r span) (binary op l' r' span) :=
  agrees_operation (op.typing_apply hl.value.left hr.value.left span)
    (op.typing_apply hl.value.right hr.value.right span)
    (op.typing_congr hl.value.erased hr.value.erased span) span rfl

theorem agrees_unary (op : UnaryOp) (he : e.Twin e') (span : Span) :
    Agrees Twin (unary op e span) (unary op e' span) :=
  agrees_operation (op.typing_apply he.value.left span) (op.typing_apply he.value.right span)
    (op.typing_congr he.value.erased span) span rfl

theorem agrees_cast (he : e.Twin e') {target : Ty}
    (htarget : target.isUnknown = true ∨ target.Resolved) (span : Span) :
    Agrees Twin (cast e target span) (cast e' target span) := by
  have hvalue : (e.value.cast target).value.Twin (e'.value.cast target).value := by
    refine ⟨?_, he.value.left.cast htarget, he.value.right.cast htarget⟩
    rw [Value.type_cast, Value.type_cast]
  unfold cast
  refine agrees_report_bind span ?_ rfl
  dsimp only
  rw [Value.kind_cast_congr he.value.erased]
  split
  · exact agrees_pure hvalue
  · exact agrees_report_bind span (agrees_pure hvalue) rfl
  · exact agrees_report_bind span (agrees_pure hvalue) rfl

section Slots

variable {base : Semantic.Expr} {item type : Ty} {length : Nat} {components : List (String × Ty)}

theorem reads_element (hbase : base.value.Typed)
    (htype : base.value.type.unaliased = .array item length) (n : Int32) (span : Span) :
    (element base item length n span).Reads item := by
  have hitem : item.Resolved := Ty.resolved_array.mp (htype ▸ hbase.here.1.unaliased)
  unfold element
  split
  · rename_i hrange
    have hslot : base.value.type.slot? (.index (n.toInt.toNat - 1)) = some item := by
      refine Ty.slot?_of_indexStep (n := n) ?_
      rw [Ty.indexStep, htype]
      exact if_pos hrange
    obtain ⟨herased, htyped⟩ := hbase.slot (w := .runtime item) hslot rfl
    exact ⟨herased, .inr htyped, rfl⟩
  · exact ⟨rfl, .inr (Value.typed_of_datum?_eq_none hitem rfl), rfl⟩

theorem reads_item (hbase : base.value.Typed)
    (htype : base.value.type.unaliased = .array item length) (invalid : Bool) :
    Traced.Reads (pure ⟨item, .pending invalid⟩) item := by
  have hitem : item.Resolved := Ty.resolved_array.mp (htype ▸ hbase.here.1.unaliased)
  exact ⟨rfl, .inr (Value.typed_pending hitem invalid), rfl⟩

theorem reads_component (hbase : base.value.Typed)
    (htype : base.value.type.unaliased = .struct components) {name : String}
    (hname : components.lookup name = some type) (invalid : Bool) :
    Traced.Reads (pure ((base.value.slot? (.component name)).getD ⟨type, .pending invalid⟩))
      type := by
  have hslot : base.value.type.slot? (.component name) = some type := by
    simpa [Ty.slot?, htype] using hname
  obtain ⟨herased, htyped⟩ :=
    hbase.slot (w := ⟨type, .pending invalid⟩) hslot (Value.datum?_pending ..)
  exact ⟨herased, .inr htyped, rfl⟩

end Slots

/-- An error that leaves no type behind leaves none in both analyses. -/
theorem agrees_report_invalid {cause cause' : Cause} (span origin : Span)
    (h : cause.code = cause'.code) :
    Agrees Twin (do
        report cause span
        return .invalid (.unknown origin)) (do
        report cause' span
        return .invalid (.unknown origin)) :=
  agrees_report_bind span (agrees_pure (Twin.refl (.inl rfl))) h

theorem agrees_subscript {array array' index index' : Semantic.Expr} (harray : array.Twin array')
    (hindex : index.Twin index') (span : Span) :
    Agrees Twin (subscript array index span) (subscript array' index' span) := by
  have hinteger := (Ty.relations_congr hindex.value.erased (b := .integer) rfl).2.1
  unfold subscript Semantic.Expr.type
  rw [hindex.span, harray.span]
  refine agrees_report_unless_bind (by rw [hinteger]) _ ?_ rfl
  obtain ⟨hscalar, hun⟩ | ⟨item, item', length, hun, hun', hitem⟩ | ⟨_, _, hun, hun', -⟩ :=
    Ty.unaliased_congr harray.value.erased
  · rw [← hun]
    cases hshape : array.value.type.unaliased with
    | unknown origin =>
      refine agrees_pure (Value.twin_invalid harray.value.erased ?_)
      exact Ty.isUnknown_iff.mpr ⟨origin, hshape⟩
    | array item length => simp [Ty.isAggregate, hshape] at hscalar
    | _ => exact agrees_report_invalid _ _ rfl
  · have htyped := harray.value.left.typed (by simp [Ty.isUnknown, hun])
    have htyped' := harray.value.right.typed (by simp [Ty.isUnknown, hun'])
    rw [hun, hun']
    dsimp only
    refine Traced.Reads.agrees (?_ : Traced.Reads _ item) (?_ : Traced.Reads _ item') hitem
    · split
      · exact reads_element htyped hun _ _
      · exact reads_item htyped hun _
    · split
      · exact reads_element htyped' hun' _ _
      · exact reads_item htyped' hun' _
  · rw [hun, hun']
    exact agrees_report_invalid _ _ rfl

theorem agrees_component {base base' : Semantic.Expr} (hbase : base.Twin base') (name : Ident)
    (span : Span) : Agrees Twin (component base name span) (component base' name span) := by
  unfold component Semantic.Expr.type
  obtain ⟨hscalar, hun⟩ | ⟨_, _, _, hun, hun', -⟩ | ⟨fields, fields', hun, hun', hfields⟩ :=
    Ty.unaliased_congr hbase.value.erased
  · rw [← hun]
    cases hshape : base.value.type.unaliased with
    | unknown origin =>
      refine agrees_pure (Value.twin_invalid hbase.value.erased ?_)
      exact Ty.isUnknown_iff.mpr ⟨origin, hshape⟩
    | struct components => simp [Ty.isAggregate, hshape] at hscalar
    | _ => exact agrees_report_invalid _ _ rfl
  · rw [hun, hun']
    exact agrees_report_invalid _ _ rfl
  · have htyped := hbase.value.left.typed (by simp [Ty.isUnknown, hun])
    have htyped' := hbase.value.right.typed (by simp [Ty.isUnknown, hun'])
    have hlookup : (fields.lookup name.text).map Ty.erased =
        (fields'.lookup name.text).map Ty.erased := by
      rw [← Ty.lookup_erasedComponents, hfields, Ty.lookup_erasedComponents]
    rw [hun, hun']
    dsimp only
    cases hname : fields.lookup name.text with
    | none =>
      rw [hname] at hlookup
      rw [Option.map_eq_none_iff.mp hlookup.symm]
      exact agrees_report_invalid _ _ rfl
    | some type =>
      rw [hname] at hlookup
      obtain ⟨type', hname', htype⟩ := Option.map_eq_some_iff.mp hlookup.symm
      rw [hname']
      exact (reads_component htyped hun hname _).agrees
        (reads_component htyped' hun' hname' _) htype.symm

end Check

/-! ### Names -/

/-- No type of the symbol has an unknown type in it, and a constant is bound to a value of its type,
which is typed throughout. -/
def Symbol.Typed : Symbol → Prop
  | .constant _ type value => type.Resolved ∧ value.Typed ∧ value.type.same type = true
  | .localVariable _ type | .parameter _ type _ | .typeAlias _ type => type.Resolved
  | .callable c => (∀ p ∈ c.parameters, p.type.Resolved) ∧ c.returnType.Resolved

def ScopeTable.Typed (t : ScopeTable) : Prop := ∀ id, ∀ s ∈ t.symbols id, s.Typed

/-- Two environments that differ in the values of constants. -/
structure Env.Twin (env env' : Env) : Prop where
  scope : env.scope = env'.scope
  interface : env.table.interface = env'.table.interface
  left : env.table.Typed
  right : env'.table.Typed

namespace Symbol

/-- The value of a symbol is of the declared type. -/
theorem Typed.value? {s : Symbol} (hs : s.Typed) {type : Ty} (h : s.valueType? = some type) :
    ∃ v, s.value? = some v ∧ v.Typed ∧ v.type.erased = type.erased := by
  cases s with
  | constant name declared v =>
    cases h
    obtain ⟨htype, hv, hsame⟩ := hs
    exact ⟨v, rfl, hv, Ty.erased_eq_of_same hv.here.1 htype hsame⟩
  | localVariable name declared | parameter name declared mode =>
    cases h
    exact ⟨.runtime type, rfl, Value.typed_of_datum?_eq_none hs rfl, rfl⟩
  | typeAlias | callable => cases h

theorem value?_eq_none {s : Symbol} (h : s.valueType? = none) : s.value? = none := by
  cases s with
  | typeAlias | callable => rfl
  | constant | localVariable | parameter => cases h

theorem Typed.value?_congr {s s' : Symbol} (hs : s.Typed) (hs' : s'.Typed)
    (h : s.interface = s'.interface) : Option.Rel Twin s.value? s'.value? := by
  have hcongr : s'.valueType? = s.valueType? := by
    rw [← valueType?_interface s, h, valueType?_interface]
  cases htype : s.valueType? with
  | none =>
    rw [value?_eq_none htype, value?_eq_none (hcongr.trans htype)]
    exact .none
  | some type =>
    obtain ⟨v, hv, htyped, herased⟩ := hs.value? htype
    obtain ⟨v', hv', htyped', herased'⟩ := hs'.value? (hcongr.trans htype)
    rw [hv, hv']
    exact .some ⟨herased.trans herased'.symm, .inr htyped, .inr htyped'⟩

end Symbol

namespace Check

variable {env env' : Env}

theorem agrees_name (henv : env.Twin env') (name : Ident) :
    Agrees Twin (Check.name env name) (Check.name env' name) := by
  have hselect (id id' : ScopeId) (s : Symbol) (hs : s ∈ env.table.symbols id) (s' : Symbol)
      (hs' : s' ∈ env'.table.symbols id') (h : s.interface = s'.interface) :
      Option.Rel Twin s.value? s'.value? :=
    (henv.left id s hs).value?_congr (henv.right id' s' hs') h
  unfold Check.name ScopeTable.lookupValue
  rw [henv.scope]
  obtain ⟨v, v', hv, hv', htwin⟩ | ⟨error, error', herror, herror'⟩ :=
    ScopeTable.resolve_congr henv.interface hselect env'.scope name.text .value
  · rw [hv, hv']
    exact agrees_pure htwin
  · rw [herror, herror']
    exact agrees_report_invalid _ _ rfl

/-- The argument, analysed twice. -/
structure TwinArgument (a a' : Semantic.Argument) : Prop where
  mode : a.mode = a'.mode
  value : a.value.Twin a'.value

theorem argumentProblems_congr (formal : Parameter) {a a' : Semantic.Argument}
    (h : TwinArgument a a') : argumentProblems formal a = [] ↔ argumentProblems formal a' = [] := by
  have hconvertible := (Ty.relations_congr h.value.value.erased (b := formal.type) rfl).2.1
  unfold argumentProblems Semantic.Expr.type
  rw [h.mode, hconvertible, List.append_eq_nil_iff, List.append_eq_nil_iff]
  refine and_congr_right fun _ => ?_
  split <;> simp

theorem callProblems_congr (formals : List Parameter) {args args' : List Semantic.Argument}
    (h : List.Forall₂ TwinArgument args args') :
    callProblems formals args = [] ↔ callProblems formals args' = [] := by
  unfold callProblems
  rw [h.length_eq, List.append_eq_nil_iff, List.append_eq_nil_iff]
  refine and_congr Iff.rfl ?_
  induction h generalizing formals with
  | nil => rfl
  | cons hfirst _ ih =>
    cases formals with
    | nil => rfl
    | cons formal formals =>
      rw [List.zip_cons_cons, List.zip_cons_cons, List.flatMap_cons, List.flatMap_cons,
        List.append_eq_nil_iff, List.append_eq_nil_iff]
      exact and_congr (argumentProblems_congr formal hfirst) (ih formals)

theorem agrees_call (henv : env.Twin env') (callee : Ident) {args args' : List Semantic.Argument}
    (hargs : List.Forall₂ TwinArgument args args') (span : Span) :
    Agrees Twin (call env callee args span) (call env' callee args' span) := by
  unfold call ScopeTable.lookupCallable
  rw [henv.scope]
  obtain ⟨c, hc, hc'⟩ | ⟨error, error', herror, herror'⟩ :=
    ScopeTable.resolve_congr_eq henv.interface Symbol.callable?_interface env'.scope callee.text
      .callable
  · rw [hc, hc']
    have hreturn : c.returnType.Resolved := by
      obtain ⟨owner, s, hs, hselect⟩ := ScopeTable.exists_of_resolve hc
      cases s with
      | callable =>
        cases hselect
        exact (henv.left owner _ hs).2
      | constant | localVariable | parameter | typeAlias => cases hselect
    have hproblems := callProblems_congr c.parameters hargs
    refine agrees_report_unless_bind (by simpa using hproblems) _ (agrees_pure ?_) rfl
    exact Twin.refl (.inr (Value.typed_of_datum?_eq_none hreturn rfl))
  · rw [herror, herror']
    exact agrees_report_invalid _ _ rfl

end Check

/-! ### Expressions -/

namespace Syntax

mutual

/-- The types that the expression casts to, from outside in. -/
def Expr.castTargets : Expr → List TypeExpr
  | ⟨_, _, .literal _⟩ => []
  | ⟨_, _, .paren e⟩ | ⟨_, _, .unary _ e⟩ | ⟨_, _, .endOfFile e⟩ => e.castTargets
  | ⟨_, _, .binary _ left right⟩ => left.castTargets ++ right.castTargets
  | ⟨_, _, .call _ args⟩ => argumentCastTargets args
  | ⟨_, _, .cast target e⟩ => target :: e.castTargets
  | ⟨_, _, .lvalue l⟩ => l.castTargets

def Lvalue.castTargets : Lvalue → List TypeExpr
  | ⟨_, _, .name _⟩ => []
  | ⟨_, _, .subscript array index⟩ => array.castTargets ++ index.castTargets
  | ⟨_, _, .component base _⟩ => base.castTargets

def argumentCastTargets : List Argument → List TypeExpr
  | [] => []
  | ⟨_, _, e⟩ :: rest => e.castTargets ++ argumentCastTargets rest

end

mutual

/-- There are no lengths of arrays or strings in the type. -/
def TypeExpr.lengthFree : TypeExpr → Bool
  | ⟨_, .boundedString _⟩ => false
  | ⟨_, .array item lengths⟩ => item.lengthFree && lengths.isEmpty
  | ⟨_, .struct components⟩ => componentsLengthFree components
  | _ => true

def componentsLengthFree : List ComponentDecl → Bool
  | [] => true
  | ⟨_, _, type⟩ :: rest => type.lengthFree && componentsLengthFree rest

end

end Syntax

namespace Analysis

variable {env env' : Env}

mutual

/-- Without lengths, a type expression stands for one type. -/
theorem agrees_typeExpr (henv : env.Twin env') : ∀ t : Syntax.TypeExpr, t.lengthFree = true →
    Agrees Eq (typeExpr env t) (typeExpr env' t)
  | ⟨_, .boolean⟩, _ | ⟨_, .character⟩, _ | ⟨_, .integer⟩, _ | ⟨_, .real⟩, _ | ⟨_, .file⟩, _
  | ⟨_, .string⟩, _ => by
    rw [typeExpr, typeExpr]
    exact agrees_pure rfl
  | ⟨_, .boundedString _⟩, h => by cases h
  | ⟨span, .named name⟩, _ => by
    rw [typeExpr, typeExpr]
    unfold ScopeTable.lookupAlias
    rw [henv.scope]
    obtain ⟨target, htarget, htarget'⟩ | ⟨error, error', herror, herror'⟩ :=
      ScopeTable.resolve_congr_eq henv.interface Symbol.alias?_interface env'.scope name.text
        .typeAlias
    · rw [htarget, htarget']
      exact agrees_pure rfl
    · rw [herror, herror']
      exact agrees_report_bind _ (agrees_pure rfl) rfl
  | ⟨span, .array item []⟩, h => by
    rw [Syntax.TypeExpr.lengthFree, Bool.and_eq_true] at h
    rw [typeExpr, typeExpr]
    refine (agrees_typeExpr henv item h.1).bind ?_
    rintro item _ rfl
    exact Traced.agrees_refl _
  | ⟨span, .array item (_ :: _)⟩, h => by
    rw [Syntax.TypeExpr.lengthFree, Bool.and_eq_true] at h
    cases h.2
  | ⟨_, .struct components⟩, h => by
    rw [typeExpr, typeExpr]
    refine (agrees_structComponents henv [] components h).bind ?_
    rintro components _ rfl
    exact agrees_pure rfl

theorem agrees_structComponents (henv : env.Twin env') (components : List (String × Ty)) :
    ∀ ds : List Syntax.ComponentDecl, Syntax.componentsLengthFree ds = true →
      Agrees Eq (structComponents env components ds) (structComponents env' components ds)
  | [], _ => agrees_pure rfl
  | ⟨_, names, type⟩ :: rest, h => by
    rw [Syntax.componentsLengthFree, Bool.and_eq_true] at h
    rw [structComponents, structComponents]
    refine (agrees_typeExpr henv type h.1).bind ?_
    rintro type _ rfl
    refine (Traced.agrees_refl _).bind ?_
    rintro components _ rfl
    exact agrees_structComponents henv components rest h.2

end

/-- The types are written without lengths, and each of them is unknown or has no unknown type in
it. -/
def Castable (env : Env) (targets : List Syntax.TypeExpr) : Prop :=
  ∀ c ∈ targets, c.lengthFree = true ∧
    ((typeExpr env c).result.isUnknown = true ∨ (typeExpr env c).result.Resolved)

theorem castable_append {targets targets' : List Syntax.TypeExpr} :
    Castable env (targets ++ targets') ↔ Castable env targets ∧ Castable env targets' :=
  List.forall_mem_append

theorem agrees_finish (id : Syntax.NodeId) (span : Span) {v v' : Value} (hv : v.Twin v')
    (kind kind' : Semantic.ExprKind) :
    Agrees Semantic.Expr.Twin (finish env id span v kind) (finish env' id span v' kind') :=
  ⟨⟨rfl, hv⟩, rfl⟩

mutual

theorem agrees_expr (henv : env.Twin env') : ∀ e : Syntax.Expr, Castable env e.castTargets →
    Agrees Semantic.Expr.Twin (expr env e) (expr env' e)
  | ⟨id, span, .literal literal⟩, _ => by
    rw [expr, expr]
    exact agrees_finish id span (Twin.refl (.inr literal.sound_value.typed)) _ _
  | ⟨id, span, .paren inner⟩, h => by
    rw [expr, expr]
    refine (agrees_expr henv inner h).bind fun inner inner' hinner => ?_
    exact agrees_finish id span hinner.value _ _
  | ⟨id, span, .binary op left right⟩, h => by
    obtain ⟨hleft, hright⟩ := castable_append.mp h
    rw [expr, expr]
    refine (agrees_expr henv left hleft).bind fun left left' hl => ?_
    refine (agrees_expr henv right hright).bind fun right right' hr => ?_
    refine (Check.agrees_binary op.item hl hr span).bind fun v v' hv => ?_
    exact agrees_finish id span hv _ _
  | ⟨id, span, .unary op operand⟩, h => by
    rw [expr, expr]
    refine (agrees_expr henv operand h).bind fun operand operand' hoperand => ?_
    refine (Check.agrees_unary op.item hoperand span).bind fun v v' hv => ?_
    exact agrees_finish id span hv _ _
  | ⟨id, span, .call callee args⟩, h => by
    rw [expr, expr]
    refine (agrees_arguments henv args h).bind fun args args' hargs => ?_
    refine (Check.agrees_call henv callee hargs span).bind fun v v' hv => ?_
    exact agrees_finish id span hv _ _
  | ⟨id, span, .endOfFile file⟩, h => by
    have hboolean : (Value.runtime .boolean).Plausible :=
      .inr (Value.typed_of_datum?_eq_none (Ty.resolved_of_isAtom rfl) rfl)
    rw [expr, expr]
    refine (agrees_expr henv file h).bind fun file file' hfile => ?_
    refine (Check.agrees_convertible hfile .file).bind fun _ _ _ => ?_
    exact agrees_finish id span (Twin.refl hboolean) _ _
  | ⟨id, span, .cast target value⟩, h => by
    obtain ⟨⟨hlengths, hknown⟩, hvalue⟩ := List.forall_mem_cons.mp h
    have htype := agrees_typeExpr henv target hlengths
    have htarget : Agrees (fun t t' => t = t' ∧ (t.isUnknown = true ∨ t.Resolved))
        (typeExpr env target) (typeExpr env' target) := ⟨⟨htype.result, hknown⟩, htype.marks⟩
    rw [expr, expr]
    refine htarget.bind ?_
    rintro target _ ⟨rfl, htarget⟩
    refine (agrees_expr henv value hvalue).bind fun value value' hv => ?_
    refine (Check.agrees_cast hv htarget span).bind fun v v' hv => ?_
    exact agrees_finish id span hv _ _
  | ⟨id, span, .lvalue l⟩, h => by
    rw [expr, expr]
    refine (agrees_lvalue henv l h).bind fun e e' he => ?_
    exact ⟨he, rfl⟩

theorem agrees_lvalue (henv : env.Twin env') : ∀ l : Syntax.Lvalue, Castable env l.castTargets →
    Agrees Semantic.Expr.Twin (lvalue env l) (lvalue env' l)
  | ⟨id, span, .name name⟩, _ => by
    rw [lvalue, lvalue]
    refine (Check.agrees_name henv name).bind fun v v' hv => ?_
    exact agrees_finish id span hv _ _
  | ⟨id, span, .subscript array index⟩, h => by
    obtain ⟨harray, hindex⟩ := castable_append.mp h
    rw [lvalue, lvalue]
    refine (agrees_expr henv array harray).bind fun array array' ha => ?_
    refine (agrees_expr henv index hindex).bind fun index index' hi => ?_
    refine (Check.agrees_subscript ha hi span).bind fun v v' hv => ?_
    exact agrees_finish id span hv _ _
  | ⟨id, span, .component base name⟩, h => by
    rw [lvalue, lvalue]
    refine (agrees_expr henv base h).bind fun base base' hbase => ?_
    refine (Check.agrees_component hbase name span).bind fun v v' hv => ?_
    exact agrees_finish id span hv _ _

theorem agrees_arguments (henv : env.Twin env') :
    ∀ args : List Syntax.Argument, Castable env (Syntax.argumentCastTargets args) →
      Agrees (List.Forall₂ Check.TwinArgument) (arguments env args) (arguments env' args)
  | [], _ => agrees_pure .nil
  | ⟨span, mode, value⟩ :: rest, h => by
    obtain ⟨hvalue, hrest⟩ := castable_append.mp h
    rw [arguments, arguments]
    refine (agrees_expr henv value hvalue).bind fun value value' hv => ?_
    refine (agrees_arguments henv rest hrest).bind fun rest rest' hr => ?_
    exact agrees_pure (.cons ⟨rfl, hv⟩ hr)

end

end Analysis

/-! ### Main result -/

/-- Where nothing is wrong, all symbols are typed. -/
theorem ScopeTable.typed_of_soundness {t : ScopeTable} (h : Invariant.soundness.table t) :
    t.Typed := by
  intro id s hs
  have hsymbol := h id s hs
  cases s with
  | constant name type value =>
    obtain ⟨htype, hvalue, rfl⟩ := hsymbol
    exact ⟨htype.1, hvalue.typed, Ty.same_refl _⟩
  | localVariable | parameter | typeAlias => exact hsymbol.1
  | callable c => exact ⟨fun p hp => (hsymbol.1 p hp).1, hsymbol.2.1⟩

theorem ScopeTable.Typed.interface {t : ScopeTable} (h : t.Typed) : t.interface.Typed := by
  intro id s hs
  rw [symbols_interface] at hs
  obtain ⟨s, hmem, rfl⟩ := List.mem_map.mp hs
  have hsymbol := h id s hmem
  cases s with
  | constant => exact hsymbol.1
  | localVariable | parameter | typeAlias | callable => exact hsymbol

/-- The types of the table, also those inside of values, have components of different names. -/
def ScopeTable.Distinct (t : ScopeTable) : Prop :=
  ∀ id, ∀ s ∈ t.symbols id, (∀ u ∈ s.types, u.Distinct) ∧
    ∀ v, s.value? = some v → v.Everywhere fun w => w.type.Distinct

namespace Session

open Analysis (expr Castable)

/-- The codes and places of the diagnostics, without those that depend on values. -/
def marks (ds : List Diagnostic) : List (Code × Span) :=
  (ds.filter (!·.code.isDynamic)).map fun d => (d.code, d.span)

theorem marks_delivers {α : Type} (s : Session) (scope : ScopeId) (f : Env → Traced α) :
    marks (s.delivers (reading scope f)) =
      ((f ⟨s.scopes, scope⟩).pick Event.mark?).filter fun m =>
        s.config.enables m.1 && !s.sink.suppressed.contains m.1 := by
  rw [marks, delivers_reading, Traced.pick, ← Event.map_findings s.overflows]
  simp only [List.filter_map, List.map_map, List.filter_filter]
  refine congrArg (List.map _) (List.filter_congr fun f _ => ?_)
  rw [Bool.and_comm, Bool.and_comm (_ : Bool) (s.config.enables _)]
  rfl

/-- **Typing does not depend on what is known.** Take a session and other scopes, of the same
interface and typed like its own. An expression has the same type in both, aliases apart, and what
is delivered under codes that do not depend on values is delivered at the same places. The types
that it casts to must have no lengths, and no unknown types inside of them. -/
theorem typing_independent_of_values (s : Session) (scopes : ScopeTable) (scope : ScopeId)
    (e : Syntax.Expr) (hinterface : s.scopes.interface = scopes.interface)
    (htyped : s.scopes.Typed) (htyped' : scopes.Typed)
    (hcasts : Castable ⟨s.scopes, scope⟩ e.castTargets) :
    let analysis := reading scope (expr · e)
    let s' := { s with scopes }
    (analysis s).1.type.erased = (analysis s').1.type.erased ∧
      marks (s.delivers analysis) = marks (s'.delivers analysis) := by
  have henv : Env.Twin ⟨s.scopes, scope⟩ ⟨scopes, scope⟩ := ⟨rfl, hinterface, htyped, htyped'⟩
  have hagrees := Analysis.agrees_expr henv e hcasts
  refine ⟨hagrees.result.value.erased, ?_⟩
  rw [marks_delivers, marks_delivers]
  exact congrArg _ hagrees.marks

open Syntax (nowhere ident)

theorem typed_pairsSession : pairsSession.scopes.Typed := by
  have herrors : ∀ d ∈ ((analyze pairs).report .default none).delivered, d.severity ≠ .error := by
    decide
  exact ScopeTable.typed_of_soundness (Analysis.soundness_of_no_errors herrors).2.1

/-- The session in which all constants are variables. -/
def variablesSession : Session := { pairsSession with scopes := pairsSession.scopes.interface }

/-- The integer of a pair that is cast to its own type. -/
def castPair : Syntax.Expr :=
  .component ⟨⟨6⟩, nowhere, .cast (.ofKind (.named (ident "Pair")))
    (.subscript (.ofName "pairs") (.ofName "last"))⟩ "n"

/-- The index is out of bounds, which only one of the sessions knows. -/
theorem typing_pairs :
    let analysis := reading ScopeTable.root (expr · castPair)
    (analysis pairsSession).1.type.erased = (analysis variablesSession).1.type.erased ∧
      (pairsSession.delivers analysis).map (·.code) =
        [.indexOutOfBounds, .unofficialFeature, .redundantCast] ∧
      marks (pairsSession.delivers analysis) = marks (variablesSession.delivers analysis) := by
  have hcasts : Castable ⟨pairsSession.scopes, ScopeTable.root⟩ castPair.castTargets := by
    intro c hc
    obtain rfl := List.mem_singleton.mp hc
    refine ⟨rfl, .inr ?_⟩
    change (Ty.aliased "Pair" (.struct [("n", .integer), ("s", .boundedString 4)])).Resolved
    have hinteger : Ty.integer.Resolved := Ty.resolved_of_isAtom rfl
    have hstring : (Ty.boundedString 4).Resolved := Ty.resolved_of_isAtom rfl
    simp [hinteger, hstring]
  obtain ⟨htype, hmarks⟩ := typing_independent_of_values pairsSession
    pairsSession.scopes.interface ScopeTable.root castPair
    (ScopeTable.interface_interface _).symm typed_pairsSession typed_pairsSession.interface hcasts
  exact ⟨htype, by decide, hmarks⟩

/-- A structure of one integer. -/
def point : Ty := .struct [("x", .integer)]

def origin : Value := .known point (.struct [("x", .integer 0)])

theorem sound_origin : origin.Sound := by
  have hpoint : point.Resolved := by
    have hinteger : Ty.integer.Resolved := Ty.resolved_of_isAtom rfl
    simp [point, hinteger]
  refine Value.sound_known hpoint rfl fun w hw => ?_
  obtain rfl := List.mem_singleton.mp hw
  exact (Syntax.Literal.integer 0).sound_value

theorem distinct_point : point.Distinct := by
  refine Ty.everywhere_struct.mpr ⟨by simp [Ty.DistinctNames], fun c hc => ?_⟩
  obtain rfl := List.mem_singleton.mp hc
  exact Ty.distinct_of_isAtom rfl

/-- The scopes in which the symbol is all there is. -/
def only (symbol : Symbol) : ScopeTable := ⟨#[⟨none, [symbol]⟩]⟩

theorem eq_of_mem_only {s symbol : Symbol} {id : ScopeId} (h : s ∈ (only symbol).symbols id) :
    s = symbol := by
  cases id with
  | zero => exact List.mem_singleton.mp h
  | succ n => cases h

def knownPoint : ScopeTable := only (.constant (ident "p") point origin)

def openPoint : ScopeTable := only (.localVariable (ident "p") point)

theorem typed_points : knownPoint.Typed ∧ openPoint.Typed := by
  constructor
  · intro id s hs
    rw [eq_of_mem_only hs]
    exact ⟨sound_origin.resolved, sound_origin.typed, Ty.same_refl _⟩
  · intro id s hs
    rw [eq_of_mem_only hs]
    exact sound_origin.resolved

theorem distinct_points : knownPoint.Distinct ∧ openPoint.Distinct := by
  constructor
  · intro id s hs
    rw [eq_of_mem_only hs]
    refine ⟨by simpa [Symbol.types] using distinct_point, ?_⟩
    rintro v ⟨⟩
    refine .intro distinct_point fun w hw => ?_
    obtain rfl := List.mem_singleton.mp hw
    exact Value.everywhere_of_contents_eq_nil (Ty.distinct_of_isAtom rfl) rfl
  · intro id s hs
    rw [eq_of_mem_only hs]
    refine ⟨by simpa [Symbol.types] using distinct_point, ?_⟩
    rintro v ⟨⟩
    exact Value.everywhere_of_contents_eq_nil distinct_point rfl

/-- The coordinate of a point that is cast to a structure of unknown type. -/
def castPoint : Syntax.Expr :=
  .component ⟨⟨6⟩, nowhere, .cast (.ofKind (.struct
    [⟨nowhere, [ident "x"], .ofKind (.named (ident "Missing"))⟩])) (.ofName "p")⟩ "x"

/-- A cast to a structure of unknown components leaves them their types if the value is known. -/
theorem typing_of_cast_to_unknown :
    ¬ ∀ (s : Session) (scopes : ScopeTable) (scope : ScopeId) (e : Syntax.Expr),
      s.scopes.interface = scopes.interface → s.scopes.Typed → scopes.Typed →
      s.scopes.Distinct → scopes.Distinct → (∀ c ∈ e.castTargets, c.lengthFree = true) →
        (reading scope (expr · e) s).1.type.erased =
          (reading scope (expr · e) { s with scopes }).1.type.erased := by
  intro h
  have htype := h { start .default none with scopes := knownPoint } openPoint ScopeTable.root
    castPoint rfl typed_points.1 typed_points.2 distinct_points.1 distinct_points.2 (by decide)
  cases htype

end Session

end Pseudocode
