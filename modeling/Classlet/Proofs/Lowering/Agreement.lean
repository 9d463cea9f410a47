import Classlet.Proofs.Lowering.Outcomes
import Classlet.Proofs.Symbols.Places

/-!
# Types of analysis and types of lowering

Analysis types an expression from the declarations; lowering works out a type for it from the
declarations and from what the surroundings expect.  Where analysis knows the type, lowering gives
the value that type whatever is expected, and where it does not, lowering takes over what is
expected.  Both are proved together (`agrees`), since how lowering treats a member depends on the
type of its receiver.

This needs a class that cannot be mistaken for something else: `Context.ProperClass`.
-/

namespace Classlet.Lowering

open Classlet.Ir Classlet.Semantics Subtree

/-- The names that stand for types without a class. -/
def baseNames : List String := ["int", "boolean", "void", "String"]

/-- The class and its receiver are told apart from all other types and from imports. -/
structure Context.ProperClass (cx : Context) : Prop where
  not_base : cx.table.className ∉ baseNames
  no_bracket : ']' ∉ cx.table.className.toList
  not_imported : cx.table.isImported cx.table.className = false
  not_superclass : cx.table.superclass ≠ some cx.table.className
  this_not_imported : cx.table.isImported thisName = false

/-! ### Names of types -/

theorem ofName_of_notMem {name : String} (h : name ∉ baseNames) :
    ValueType.ofName name = .object name := by
  simp only [baseNames, List.mem_cons, List.not_mem_nil, or_false, not_or] at h
  obtain ⟨hint, hbool, hvoid, hstring⟩ := h
  rw [ValueType.ofName, if_neg hint, if_neg hbool, if_neg hvoid, if_neg hstring]

@[simp]
theorem ownerName_ofName (name : String) : ownerName (.ofName name) = name := by
  unfold ValueType.ofName
  split_ifs with h₁ h₂ h₃ h₄ <;> first | (subst name; rfl) | rfl

theorem ofName_ne_array (name : String) (element : ValueType) :
    ValueType.ofName name ≠ .array element := by
  unfold ValueType.ofName
  split_ifs <;> exact nofun

section ProperClass

variable {cx : Context}

theorem importName?_eq_some {e : Expr} {name : String} (h : importName? cx e = some name) :
    unparen e = .var name ∧ cx.resolve name = none ∧ cx.table.isImported name = true := by
  unfold importName? at h
  split at h
  · next other hvar =>
    split at h
    · next hname =>
      cases h
      rw [Bool.and_eq_true, Bool.and_eq_true, Option.isNone_iff_eq_none] at hname
      exact ⟨hvar, hname.1.2, hname.2⟩
    · cases h
  · cases h

namespace Context.ProperClass

theorem ofTy_class (h : cx.ProperClass) : .ofTy (.object cx.table.className) = cx.classType :=
  ofName_of_notMem h.not_base

theorem ownerName_ofTy_iff (h : cx.ProperClass) {ty : Ty} :
    ownerName (.ofTy ty) = cx.table.className ↔ ty = .object cx.table.className := by
  obtain ⟨name, isArray⟩ := ty
  cases isArray with
  | false => simp [ValueType.ofTy, Ty.object]
  | true =>
    simp only [ValueType.ofTy, if_true, Ty.object, Ty.mk.injEq, Bool.true_eq_false, and_false,
      iff_false]
    intro heq
    refine h.no_bracket ?_
    have htext : ownerName (.array (.ofName name)) = (ValueType.ofName name).text ++ "[]" := rfl
    rw [← heq, htext, String.toList_append]
    simp

theorem ownerName_expected_ne (h : cx.ProperClass) (receiver : Expr) :
    ownerName (cx.expected receiver) ≠ cx.table.className := by
  unfold Context.expected
  split
  · next name hname =>
    rintro rfl
    have himport := (importName?_eq_some hname).2.2
    rw [h.not_imported] at himport
    cases himport
  · split
    · next superclass hsuper =>
      rintro rfl
      exact h.not_superclass hsuper
    · intro heq
      exact h.not_base (heq ▸ by decide)

end Context.ProperClass

/-! ### What analysis knows -/

/-- The scope of the method under a policy. -/
def Context.scopeUnder (cx : Context) (policy : ExternalPolicy) : Scope :=
  ⟨cx.table, some cx.signature, policy⟩

theorem typeOf_unparen (scope : Scope) (e : Expr) : (unparen e).typeOf scope = e.typeOf scope := by
  induction e with
  | paren inner ih => exact ih
  | _ => rfl

theorem typeOf_import_ne (h : cx.ProperClass) (policy : ExternalPolicy) {e : Expr} {name : String}
    (hname : importName? cx e = some name) :
    e.typeOf (cx.scopeUnder policy) ≠ .known (.object cx.table.className) := by
  obtain ⟨hvar, hresolve, himport⟩ := importName?_eq_some hname
  have hbound : (cx.scopeUnder policy).boundSymbol? name = none := hresolve
  have himported : (cx.scopeUnder policy).table.isImported name = true := himport
  have htype : e.typeOf (cx.scopeUnder policy) = .known (.object name) := by
    rw [← typeOf_unparen, hvar, Expr.typeOf, Scope.typeOfName, Scope.resolve, hbound]
    simp only [himported, if_true]
  rw [htype]
  intro heq
  obtain rfl : name = cx.table.className := by simpa [Ty.object] using heq
  rw [h.not_imported] at himport
  cases himport

theorem owner_eq_thisClass_iff {scope : Scope} {receiver : ExprType} :
    Owner.of scope receiver = .thisClass ↔ receiver = .known scope.classTy := by
  cases receiver with
  | known ty =>
    obtain ⟨name, isArray⟩ := ty
    have hclass : (!isArray && name == scope.table.className) = true ↔
        name = scope.table.className ∧ isArray = false := by
      simp [and_comm]
    simp only [Owner.of, Scope.classTy, Ty.object, ExprType.known.injEq, Ty.mk.injEq, hclass]
    split_ifs with hthis
    · exact iff_of_true rfl hthis
    all_goals exact iff_of_false nofun hthis
  | external => simp [Owner.of]
  | unknown reason => simp [Owner.of]

/-- The type of a call is known if the class declares the method, and only then. -/
theorem typeOfCall_known_iff {scope : Scope} {method : String} {receiver : ExprType} {ty : Ty} :
    scope.typeOfCall method receiver = .known ty ↔ receiver = .known scope.classTy ∧
      ∃ s, scope.table.signature? method = some s ∧ s.returnType = ty := by
  rw [← owner_eq_thisClass_iff, Scope.typeOfCall]
  cases Owner.of scope receiver with
  | thisClass =>
    cases scope.table.signature? method with
    | some s => simp
    | none => simp; split <;> simp
  | _ => simp

theorem typeOfField_known_iff {scope : Scope} {field : String} {object : ExprType} {ty : Ty} :
    scope.typeOfField field object = .known ty ↔ object = .known scope.classTy ∧
      ∃ f, scope.table.field? field = some f ∧ f.ty = ty := by
  rw [← owner_eq_thisClass_iff, Scope.typeOfField]
  cases Owner.of scope object with
  | thisClass =>
    cases scope.table.field? field with
    | some f => simp
    | none => simp; split <;> simp
  | _ => simp

/-! ### Agreement -/

/-- Where analysis knows the type of the expression, lowering gives it that type; where it does not,
lowering takes over what is expected, save that a field never has the type of no value. -/
structure Agrees (cx : Context) (scope : Scope) (e : Expr) : Prop where
  known {ty : Ty} (h : e.typeOf scope = .known ty) (hint : ValueType) :
    cx.valueType hint e = .ofTy ty
  unseen (h : ∀ ty, e.typeOf scope ≠ .known ty) (hint : ValueType) :
    cx.valueType hint e = hint ∨ hint = .void ∧ cx.valueType hint e = .int

namespace Agrees

theorem of_known {scope : Scope} {e : Expr} {ty : Ty} (h : e.typeOf scope = .known ty)
    (hty : ∀ hint, cx.valueType hint e = .ofTy ty) : Agrees cx scope e where
  known h' hint := by
    rw [h] at h'
    cases h'
    exact hty hint
  unseen h' := absurd h (h' ty)

/-- Lowering and analysis find the methods of the class for the same receivers. -/
theorem ownerName_iff {scope : Scope} {receiver : Expr} (h : cx.ProperClass)
    (ha : Agrees cx scope receiver) :
    ownerName (cx.receiverType receiver) = cx.table.className ↔
      receiver.typeOf scope = .known (.object cx.table.className) := by
  by_cases hknown : ∃ ty, receiver.typeOf scope = .known ty
  · obtain ⟨ty, hty⟩ := hknown
    rw [Context.receiverType, ha.known hty, h.ownerName_ofTy_iff, hty, ExprType.known.injEq]
  · refine iff_of_false ?_ fun hty => hknown ⟨_, hty⟩
    rw [not_exists] at hknown
    rcases ha.unseen hknown (cx.expected receiver) with heq | ⟨-, heq⟩ <;>
      rw [Context.receiverType, heq]
    · exact h.ownerName_expected_ne receiver
    · intro hint
      exact h.not_base (hint ▸ by decide)

theorem receiverType_iff {scope : Scope} {object : Expr} (h : cx.ProperClass)
    (ha : Agrees cx scope object) :
    cx.receiverType object = cx.classType ↔
      object.typeOf scope = .known (.object cx.table.className) := by
  constructor
  · intro heq
    rw [← ha.ownerName_iff h, heq]
    rfl
  · intro hty
    rw [Context.receiverType, ha.known hty, h.ofTy_class]

theorem var (h : cx.ProperClass) (policy : ExternalPolicy) {name : String}
    (hl : cx.lowers (.var name) = true) : Agrees cx (cx.scopeUnder policy) (.var name) := by
  rw [Context.lowers, Context.isReadable, Bool.or_eq_true, beq_iff_eq] at hl
  have hbound : (cx.scopeUnder policy).boundSymbol? name = cx.resolve name := rfl
  cases hr : cx.resolve name with
  | some found =>
    obtain ⟨origin, symbol⟩ := found
    rw [hr] at hbound
    have htype : (Expr.var name).typeOf (cx.scopeUnder policy) = .known symbol.ty := by
      rw [Expr.typeOf, Scope.typeOfName, Scope.resolve, hbound]
    refine .of_known htype fun _ => ?_
    rw [Context.valueType, hr]
  | none =>
    obtain rfl : name = thisName := by simpa [hr] using hl
    rw [hr] at hbound
    have himport : (cx.scopeUnder policy).table.isImported thisName = false := h.this_not_imported
    have htype : (Expr.var thisName).typeOf (cx.scopeUnder policy)
        = .known (.object cx.table.className) := by
      rw [Expr.typeOf, Scope.typeOfName, Scope.resolve, hbound]
      simp only [himport, Bool.false_eq_true, if_false, beq_self_eq_true, if_true]
      rfl
    refine .of_known htype fun _ => ?_
    rw [Context.valueType, hr, h.ofTy_class]

theorem index {scope : Scope} {array : Expr} (ha : Agrees cx scope array) (position : Expr) :
    Agrees cx scope (.index array position) := by
  cases hty : array.typeOf scope with
  | known ty =>
    obtain ⟨name, isArray⟩ := ty
    cases isArray with
    | true =>
      have htype : (Expr.index array position).typeOf scope = .known ⟨name, false⟩ := by
        rw [Expr.typeOf, hty]
        rfl
      refine .of_known htype fun _ => ?_
      rw [Context.valueType, ha.known hty]
      rfl
    | false =>
      have htype : (Expr.index array position).typeOf scope = .known .int := by
        rw [Expr.typeOf, hty]
        rfl
      refine .of_known htype fun _ => ?_
      rw [Context.valueType, ha.known hty, elementType]
      · rfl
      · exact fun element => ofName_ne_array name element
  | external | unknown =>
    have htype : (Expr.index array position).typeOf scope = .known .int := by
      rw [Expr.typeOf, hty]
      rfl
    refine .of_known htype fun _ => ?_
    rcases ha.unseen (by simp [hty]) .intArray with heq | ⟨hvoid, -⟩
    · rw [Context.valueType, heq]
      rfl
    · cases hvoid

theorem field {policy : ExternalPolicy} {object : Expr} (h : cx.ProperClass)
    (ha : Agrees cx (cx.scopeUnder policy) object) (name : String) :
    Agrees cx (cx.scopeUnder policy) (.field object name) := by
  have hvalue : ∀ hint, cx.valueType hint (.field object name)
      = fieldType cx name (cx.receiverType object) hint := fun _ => rfl
  constructor
  · intro ty hty hint
    obtain ⟨hclass, f, hf, rfl⟩ := typeOfField_known_iff.mp hty
    have hf : cx.table.field? name = some f := hf
    rw [hvalue, (ha.receiverType_iff h).mpr hclass, fieldType, hf]
    simp only [if_true]
  · intro hno hint
    have hunseen : cx.valueType hint (.field object name) = fieldType.unseen hint := by
      rw [hvalue, fieldType]
      cases hf : cx.table.field? name with
      | none => rfl
      | some f =>
        refine if_neg fun hclass => hno f.ty (typeOfField_known_iff.mpr ⟨?_, f, hf, rfl⟩)
        exact (ha.receiverType_iff h).mp hclass
    rw [hunseen]
    cases hint <;> first | exact .inl rfl | exact .inr ⟨rfl, rfl⟩

theorem call {policy : ExternalPolicy} {receiver : Expr} (h : cx.ProperClass)
    (ha : importName? cx receiver = none → Agrees cx (cx.scopeUnder policy) receiver)
    (method : String) (args : List Expr) :
    Agrees cx (cx.scopeUnder policy) (.call receiver method args) := by
  cases hname : importName? cx receiver with
  | some className =>
    constructor
    · intro ty hty hint
      obtain ⟨hclass, -⟩ := typeOfCall_known_iff.mp hty
      exact absurd hclass (typeOf_import_ne h policy hname)
    · intro _ hint
      rw [Context.valueType, hname]
      exact .inl rfl
  | none =>
    have ha := ha hname
    have hvalue : ∀ hint, cx.valueType hint (.call receiver method args)
        = resultType (cx.declaredOn? (cx.receiverType receiver) method) hint := fun _ => by
      rw [Context.valueType, hname]
      rfl
    constructor
    · intro ty hty hint
      obtain ⟨hclass, s, hs, rfl⟩ := typeOfCall_known_iff.mp hty
      have hs : cx.table.signature? method = some s := hs
      rw [hvalue, Context.declaredOn?, if_pos ((ha.ownerName_iff h).mpr hclass), hs]
      rfl
    · intro hno hint
      rw [hvalue, Context.declaredOn?]
      split
      · next hclass =>
        cases hs : cx.table.signature? method with
        | none => exact .inl rfl
        | some s =>
          refine absurd (typeOfCall_known_iff.mpr ⟨?_, s, hs, rfl⟩) (hno s.returnType)
          exact (ha.ownerName_iff h).mp hclass
      · exact .inl rfl

end Agrees

/-- **Analysis and lowering agree on the type of an expression** that can be lowered. -/
theorem agrees (h : cx.ProperClass) (policy : ExternalPolicy) {e : Expr}
    (hnew : ∀ name, (Part.expr (.newObject name)).Inside (.expr e) → name ∉ baseNames)
    (hl : cx.lowers e = true) : Agrees cx (cx.scopeUnder policy) e := by
  have hin : ∀ {e a : Expr}, a ∈ e.parts → (Part.expr a).Inside (.expr e) := fun ha =>
    .of_mem (List.mem_map_of_mem ha)
  induction e with
  | int n | bool v | newArray size | arrayLit elements | length array =>
    exact .of_known rfl fun _ => rfl
  | binary op lhs rhs =>
    refine .of_known rfl fun _ => ?_
    rw [Context.valueType, binaryType, BinaryOp.resultTy]
    cases op.isArithmetic <;> rfl
  | unary op operand =>
    refine .of_known rfl fun _ => ?_
    cases op <;> rfl
  | newObject className =>
    exact .of_known rfl fun _ => (ofName_of_notMem (hnew className (.refl _))).symm
  | this => exact .of_known rfl fun _ => h.ofTy_class.symm
  | var name => exact .var h policy hl
  | paren inner ih =>
    have hinner := ih (fun n hn => hnew n (hn.trans (hin (by simp [Expr.parts])))) hl
    exact ⟨hinner.known, hinner.unseen⟩
  | index array position ih =>
    rw [Context.lowers, Bool.and_eq_true, Bool.and_eq_true] at hl
    exact (ih (fun n hn => hnew n (hn.trans (hin (by simp [Expr.parts])))) hl.1.1).index position
  | field object name ih =>
    rw [Context.lowers, Bool.and_eq_true] at hl
    exact (ih (fun n hn => hnew n (hn.trans (hin (by simp [Expr.parts])))) hl.1).field h name
  | call receiver method args ih =>
    refine .call h (fun hname => ?_) method args
    rw [Context.lowers, hname, Bool.and_eq_true, Bool.and_eq_true] at hl
    exact ih (fun n hn => hnew n (hn.trans (hin (by simp [Expr.parts])))) hl.1.1

/-! ### Hints -/

theorem bind_congr_ok {α β : Type} {x : Lower α} {f g : α → Lower β} {st : State}
    (h : ∀ a st', x st = .ok (a, st') → f a st' = g a st') : (x >>= f) st = (x >>= g) st := by
  have hbind : ∀ k : α → Lower β, (x >>= k) st = (x st).bind fun p => k p.1 p.2 := fun _ => rfl
  rw [hbind, hbind]
  cases hx : x st with
  | error e => rfl
  | ok p => exact h p.1 p.2 hx

theorem load_congr {α : Type} {e : Expr} {b : Subtree} (hb : b.IsExpr e) {hint : ValueType}
    {f g : Loaded → Lower α} (h : ∀ v, v.ty = cx.valueType hint e → f v = g v) (st : State) :
    (lowerExpr cx hint b.toShape >>= fun l => liftM (l.loaded b.toShape.id) >>= f) st
      = (lowerExpr cx hint b.toShape >>= fun l => liftM (l.loaded b.toShape.id) >>= g) st := by
  refine bind_congr_ok fun l st₁ hl => bind_congr_ok fun v st₂ hv => ?_
  have hty := ((lowerExpr_ends cx (.expr e) e b hint st hb (.refl _)).of_ok hl).2.ty_eq
  obtain ⟨-, rfl⟩ := loaded_ok hv
  rw [h v hty]

/-- **What is expected of an expression does not matter** where analysis knows its type. -/
theorem lowerExpr_hint (h : cx.ProperClass) (policy : ExternalPolicy) {e : Expr}
    (hnew : ∀ name, (Part.expr (.newObject name)).Inside (.expr e) → name ∉ baseNames)
    (hl : cx.lowers e = true) {ty : Ty} (hty : e.typeOf (cx.scopeUnder policy) = .known ty)
    {b : Subtree} (hb : b.IsExpr e) (hint₁ hint₂ : ValueType) (st : State) :
    lowerExpr cx hint₁ b.toShape st = lowerExpr cx hint₂ b.toShape st := by
  have hin : ∀ {e a : Expr}, a ∈ e.parts → (Part.expr a).Inside (.expr e) := fun ha =>
    .of_mem (List.mem_map_of_mem ha)
  induction e generalizing b with
  | paren inner ih =>
    obtain ⟨i, p, cs, rfl, hcs⟩ := isExpr_iff.mp hb
    obtain ⟨c, rfl, hc⟩ := forall₂_one hcs
    rw [toShape_node, Expr.kind, List.map_cons, lowerExpr_paren, lowerExpr_paren]
    exact ih (fun n hn => hnew n (hn.trans (hin (by simp [Expr.parts])))) hl hty hc
  | field object name _ =>
    obtain ⟨i, p, cs, rfl, hcs⟩ := isExpr_iff.mp hb
    obtain ⟨c, rfl, hc⟩ := forall₂_one hcs
    rw [Context.lowers, Bool.and_eq_true] at hl
    obtain ⟨hclass, f, hf, -⟩ := typeOfField_known_iff.mp hty
    have hf : cx.table.field? name = some f := hf
    have hobject : Agrees cx (cx.scopeUnder policy) object :=
      agrees h policy (fun n hn => hnew n (hn.trans (hin (by simp [Expr.parts])))) hl.1
    rw [toShape_node, Expr.kind, List.map_cons, lowerExpr, lowerExpr,
      lift_bind (receiverHint_eq cx hc), lift_bind (receiverHint_eq cx hc)]
    refine load_congr hc (fun v hv => ?_) st
    have hv : v.ty = cx.classType := hv.trans ((hobject.receiverType_iff h).mpr hclass)
    simp only [hv, fieldType, hf, if_true]
  | call receiver method args _ =>
    obtain ⟨i, p, cs, rfl, hcs⟩ := isExpr_iff.mp hb
    obtain ⟨c, ds, hc, hds, rfl⟩ := List.forall₂_cons_right_iff.mp hcs
    obtain ⟨hclass, s, hs, -⟩ := typeOfCall_known_iff.mp hty
    have hs : cx.table.signature? method = some s := hs
    have hname : importName? cx receiver = none := by
      cases hname : importName? cx receiver with
      | none => rfl
      | some className => exact absurd hclass (typeOf_import_ne h policy hname)
    rw [Context.lowers, hname, Bool.and_eq_true, Bool.and_eq_true] at hl
    have hreceiver : Agrees cx (cx.scopeUnder policy) receiver :=
      agrees h policy (fun n hn => hnew n (hn.trans (hin (by simp [Expr.parts])))) hl.1.1
    rw [toShape_node, Expr.kind, List.map_cons, lowerExpr, lowerExpr,
      lift_bind (importedReceiver?_eq cx hc), lift_bind (importedReceiver?_eq cx hc), hname]
    simp only
    rw [lift_bind (receiverHint_eq cx hc), lift_bind (receiverHint_eq cx hc)]
    refine load_congr hc (fun v hv => ?_) st
    have howner : ownerName v.ty = cx.table.className := by
      rw [hv]
      exact (hreceiver.ownerName_iff h).mpr hclass
    simp only [finishCall, Callee.signature?, howner, if_true, hs, resultType]
  | binary op lhs rhs | index array position =>
    obtain ⟨i, p, cs, rfl, hcs⟩ := isExpr_iff.mp hb
    obtain ⟨c, d, rfl, -, -⟩ := forall₂_two hcs
    rw [toShape_node, Expr.kind, List.map_cons, List.map_cons, lowerExpr, lowerExpr]
  | unary op operand | length array | newArray size =>
    obtain ⟨i, p, cs, rfl, hcs⟩ := isExpr_iff.mp hb
    obtain ⟨c, rfl, -⟩ := forall₂_one hcs
    rw [toShape_node, Expr.kind, List.map_cons, lowerExpr, lowerExpr]
  | _ =>
    obtain ⟨i, p, cs, rfl, hcs⟩ := isExpr_iff.mp hb
    rw [toShape_node, Expr.kind, lowerExpr, lowerExpr]

end ProperClass

/-! ### Nodes of a program -/

theorem exists_expr_of_typeOf {d : Subtree} {part : Part} (hd : d.Reads part) {scope : Scope}
    {ty : Ty} (hty : d.toShape.typeOf scope = .ok (.known ty)) : ∃ e, part = .expr e := by
  obtain ⟨i, p, cs, rfl, -⟩ := reads_iff.mp hd
  rw [toShape_node] at hty
  cases part with
  | expr e => exact ⟨e, rfl⟩
  | stmt s => cases s <;> simp [Part.kind, Stmt.kind, Shape.typeOf, pure, Except.pure] at hty
  | _ => simp [Part.kind, Shape.typeOf, pure, Except.pure] at hty

/-- **Analysis and lowering agree on types.**  Take a program of one class whose name is neither
that of a base type nor imported nor that of its superclass, and has no bracket in it; where no
object of a base type is made and the receiver's name is not imported.  If analysis knows the type
of a node in the scope of a method, and lowering succeeds on the node with some hint, then the value
has this type, and lowering gives the same with every other hint. -/
theorem lowerExpr_of_known_type {imports : List String} {c : ClassDecl} {table : SymbolTable}
    {reports : List Report} {ids : List NodeId}
    (htable : (Program.mk imports [c]).build.symbolTable = .ok (table, reports))
    (hids : (Program.mk imports [c]).build.descendants (Program.mk imports [c]).build.root = .ok ids)
    (hbase : c.name ∉ baseNames) (hbracket : ']' ∉ c.name.toList)
    (himport : table.isImported c.name = false) (hsuper : c.superclass ≠ some c.name)
    (hthis : table.isImported thisName = false)
    (hnew : ∀ id ∈ ids, ∀ name, (Program.mk imports [c]).build.kind id = .ok (.newObject name) →
      name ∉ baseNames)
    {id : NodeId} (hid : id ∈ ids) (s : Signature) (policy : ExternalPolicy) {ty : Ty}
    (hty : ((Program.mk imports [c]).build.shape id).typeOf ⟨table, some s, policy⟩ = .ok (.known ty))
    {hint₁ : ValueType} {st st' : State} {l : Lowered}
    (hl : lowerExpr ⟨table, s⟩ hint₁ ((Program.mk imports [c]).build.shape id) st = .ok (l, st'))
    (hint₂ : ValueType) :
    l.ty = .ofTy ty ∧
      lowerExpr ⟨table, s⟩ hint₂ ((Program.mk imports [c]).build.shape id) st = .ok (l, st') := by
  obtain ⟨b, hpic⟩ := (Program.mk imports [c]).pictures_build
  generalize (Program.mk imports [c]).build = t at *
  -- the node stands for an expression of the program
  obtain ⟨_, hofDecls⟩ := hpic.symbolTable_ok
  rw [hofDecls] at htable
  cases htable
  rw [← hpic.root, hpic.holds.descendants_eq hpic.nodup] at hids
  cases hids
  obtain ⟨d, hd, rfl⟩ := exists_within hid
  obtain ⟨above, hheld⟩ := hpic.holds.within hd
  rw [hheld.shape_eq (hd.nodup hpic.nodup)] at hty hl ⊢
  obtain ⟨part, hread, -⟩ := hpic.reads.within hd
  obtain ⟨e, rfl⟩ := exists_expr_of_typeOf hread hty
  rw [Shape.typeOf_ok hread, Except.ok.injEq] at hty
  have hproper : Context.ProperClass ⟨.ofDecls imports c, s⟩ :=
    ⟨hbase, hbracket, himport, hsuper, hthis⟩
  have hobjects : ∀ name, (Part.expr (.newObject name)).Inside (.expr e) → name ∉ baseNames := by
    intro name hin
    obtain ⟨d', hd', hread'⟩ := hread.exists_within hin
    obtain ⟨_, hheld'⟩ := hheld.within hd'
    refine hnew d'.id ((hd'.trans hd).ids_subset d'.id_mem_ids) name ?_
    rw [hheld'.kind_eq, hread'.kind_eq]
    rfl
  obtain ⟨hlowers, hfits⟩ := (lowerExpr_ends _ (.expr e) e d hint₁ st hread (.refl _)).of_ok hl
  constructor
  · rw [hfits.ty_eq]
    exact (agrees hproper policy hobjects hlowers).known hty hint₁
  · rw [← hl]
    exact lowerExpr_hint hproper policy hobjects hlowers hty hread hint₂ hint₁ st

/-- A class that compares its size to that of another object. -/
def boxClass : ClassDecl where
  name := "Box"
  superclass := some "Base"
  fields := [("items", ⟨"int", true, false⟩)]
  methods := [
    { name := "size"
      isPublic := true
      isStatic := false
      returnType := some ⟨"int", false, false⟩
      params := []
      locals := []
      body := [.ret (some (.length (.var "items")))] },
    { name := "exceeds"
      isPublic := true
      isStatic := false
      returnType := some ⟨"boolean", false, false⟩
      params := [("other", ⟨"Box", false, false⟩)]
      locals := []
      body := [.ret (some (.binary .lt (.call (.var "other") "size" [])
        (.length (.var "items"))))] }]

/-- A program of that class. -/
def boxUnit : Program := ⟨["lib.Base"], [boxClass]⟩

/-- The name of the class of which a node creates an object. -/
def createdName? : Kind → Option String
  | .newObject name => some name
  | _ => none

theorem not_base_of_none_created (t : Tree) (ids : List NodeId)
    (h : ids.all (fun id => ((t.kind id).toOption.bind createdName?).isNone) = true) :
    ∀ id ∈ ids, ∀ name, t.kind id = .ok (.newObject name) → name ∉ baseNames := by
  intro id hid name hname
  have hnone := List.all_eq_true.mp h id hid
  rw [hname] at hnone
  cases hnone

/-- In the second method the call has the type its declaration says, also where a truth value is
expected of it. -/
theorem lowerExpr_of_known_type_box :
    ∃ table s id l st', boxUnit.build.symbolTable = .ok (table, []) ∧
      table.signatures[1]? = some s ∧ boxUnit.build.kind id = .ok (.methodCall "size") ∧
      lowerExpr ⟨table, s⟩ .boolean (boxUnit.build.shape id) (Context.start ⟨table, s⟩)
        = .ok (l, st') ∧ l.ty = .int ∧
      ∀ hint, lowerExpr ⟨table, s⟩ hint (boxUnit.build.shape id) (Context.start ⟨table, s⟩)
        = .ok (l, st') := by
  let table : SymbolTable := .ofDecls ["lib.Base"] boxClass
  let s : Signature := .ofDecl boxClass.methods[1]
  have htable : boxUnit.build.symbolTable = .ok (table, []) := by decide +kernel
  have hids : boxUnit.build.descendants boxUnit.build.root = .ok (List.range 20) := by
    decide +kernel
  have hnew := not_base_of_none_created boxUnit.build (List.range 20) (by decide +kernel)
  have hty : (boxUnit.build.shape 16).typeOf ⟨table, some s, .strict⟩ = .ok (.known .int) := by
    decide +kernel
  have hlowers : (lowerExpr ⟨table, s⟩ .boolean (boxUnit.build.shape 16)
      (Context.start ⟨table, s⟩)).isOk = true := by decide +kernel
  cases hl : lowerExpr ⟨table, s⟩ .boolean (boxUnit.build.shape 16) (Context.start ⟨table, s⟩) with
  | error e =>
    rw [hl] at hlowers
    cases hlowers
  | ok found =>
    obtain ⟨l, st'⟩ := found
    have hagree := lowerExpr_of_known_type htable hids (by decide) (by decide) (by decide)
      (by decide) (by decide) hnew (List.mem_range.mpr (by decide : 16 < 20)) s .strict hty hl
    exact ⟨table, s, 16, l, st', htable, rfl, rfl, hl, (hagree .int).1,
      fun hint => (hagree hint).2⟩

end Classlet.Lowering
