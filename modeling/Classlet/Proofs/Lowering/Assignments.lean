import Classlet.Proofs.Lowering.Accepted
import Classlet.Proofs.Lowering.Origins

/-!
# Assignments in the code of accepted classes

The assignment pass looks a target up among the fields first, while lowering looks for parameters
and local variables first.  In a class that refers to no other, an accepted assignment is well typed
in the code (`assignments_of_accepted`) where both see the same declaration, or two of one type
(`MethodDecl.Unambiguous`); where they do not, it need not be (`mistyped_assignments_accepted`).
-/

namespace Classlet

open Ir Lowering Semantics Values

/-! ### Classes that refer to no other -/

/-- The unit imports nothing, and its class has no superclass. -/
structure SymbolTable.SelfContained (table : SymbolTable) : Prop where
  imports : table.imports = []
  superclass : table.superclass = none

namespace SymbolTable.SelfContained

variable {table : SymbolTable} (h : table.SelfContained)
include h

theorem isImported (name : String) : table.isImported name = false := by
  rw [SymbolTable.isImported, h.imports, List.any_nil]

theorem superclassIsImported : table.superclassIsImported = false := by
  rw [SymbolTable.superclassIsImported, h.superclass, Option.any_none]

end SymbolTable.SelfContained

section SelfContained

variable {scope : Scope} (h : scope.table.SelfContained)
include h

theorem Scope.isAssignable_iff {source target : Ty} :
    scope.isAssignable source target = true ↔ source = target := by
  simp [isAssignable, h.superclass]

theorem Owner.of_ne_external {receiver : ExprType} (hr : receiver ≠ .external) :
    Owner.of scope receiver ≠ .external := by
  cases receiver with
  | known ty =>
    simp only [Owner.of, h.isImported, h.superclass, Bool.and_false, Bool.false_eq_true, if_false]
    split
    · simp
    · simp
  | external => exact absurd rfl hr
  | unknown reason => simp [Owner.of]

theorem Expr.typeOf_ne_external (e : Expr) : e.typeOf scope ≠ .external := by
  induction e with
  | var name =>
    rw [Expr.typeOf, Scope.typeOfName]
    split <;> simp
  | call receiver method args ih =>
    have howner := Owner.of_ne_external h ih
    rw [Expr.typeOf, Scope.typeOfCall, h.superclassIsImported]
    split
    · split <;> simp
    · next heq => exact absurd heq howner
    all_goals simp
  | field object name ih =>
    have howner := Owner.of_ne_external h ih
    rw [Expr.typeOf, Scope.typeOfField, h.superclassIsImported]
    split
    · split <;> simp
    · next heq => exact absurd heq howner
    all_goals simp
  | index array position =>
    rw [Expr.typeOf]
    cases array.typeOf scope with
    | known ty =>
      rw [ExprType.element]
      split <;> simp
    | _ => simp [ExprType.element]
  | paren inner ih => exact ih
  | _ => simp [Expr.typeOf]

/-- **An accepted value has the type declared for the target.** -/
theorem Part.Fine.assign_known {target : String} {value : Expr}
    (hfine : (Part.stmt (.assign target value)).Fine scope) :
    ∃ declared, targetTy? scope target = some declared ∧ value.typeOf scope = .known declared := by
  obtain ⟨-, declared, htarget, hassign⟩ := hfine.assign
  refine ⟨declared, htarget, ?_⟩
  cases hvalue : value.typeOf scope with
  | known actual =>
    have hpair : isExternalPair scope actual declared = false := by
      simp [isExternalPair, h.isImported, h.superclassIsImported]
    rw [hvalue, assignError?, hpair] at hassign
    split at hassign
    · next hassignable => rw [(Scope.isAssignable_iff h).mp hassignable]
    · cases hassign
  | external => exact absurd hvalue (value.typeOf_ne_external h)
  | unknown reason =>
    rw [hvalue] at hassign
    cases hassign

end SelfContained

namespace Lowering

variable {cx : Context} {policy : ExternalPolicy}

theorem importName?_eq_none (hself : cx.table.SelfContained) (e : Expr) :
    importName? cx e = none := by
  rw [Option.eq_none_iff_forall_ne_some]
  intro name hname
  have himport := (importName?_eq_some hname).2.2
  rw [hself.isImported] at himport
  cases himport

theorem typeOfName_known (hself : cx.table.SelfContained) {name : String} {ty : Ty}
    (h : (Expr.var name).typeOf (cx.scopeUnder policy) = .known ty) :
    (∃ origin s, cx.resolve name = some (origin, s) ∧ s.ty = ty) ∨
      (cx.resolve name = none ∧ ty = (cx.scopeUnder policy).classTy) := by
  rw [Expr.typeOf, Scope.typeOfName, Scope.resolve_scopeUnder, hself.isImported] at h
  cases hr : cx.resolve name with
  | some found =>
    rw [hr] at h
    exact .inl ⟨found.1, found.2, rfl, ExprType.known.inj h⟩
  | none =>
    simp only [hr, Bool.false_eq_true, if_false] at h
    by_cases hthis : name == thisName
    · simp only [hthis, if_true] at h
      exact .inr ⟨rfl, (ExprType.known.inj h).symm⟩
    · simp only [hthis] at h
      cases h

theorem ofTy_classTy (hbase : cx.table.className ∉ baseNames) :
    .ofTy (cx.scopeUnder policy).classTy = cx.classType :=
  ofName_of_notMem hbase

theorem valueType_var (hself : cx.table.SelfContained) (hbase : cx.table.className ∉ baseNames)
    {name : String} {ty : Ty} (hint : ValueType)
    (h : (Expr.var name).typeOf (cx.scopeUnder policy) = .known ty) :
    cx.valueType hint (.var name) = .ofTy ty := by
  rw [Context.valueType]
  rcases typeOfName_known hself h with ⟨origin, s, hr, rfl⟩ | ⟨hr, rfl⟩
  · rw [hr]
  · rw [hr]
    exact (ofTy_classTy hbase).symm

theorem valueType_field {object : Expr} {name : String} {ty : Ty} (hint : ValueType)
    (h : (Expr.field object name).typeOf (cx.scopeUnder policy) = .known ty)
    (hobject : object.typeOf (cx.scopeUnder policy) = .known (cx.scopeUnder policy).classTy →
      cx.valueType (cx.expected object) object = cx.classType) :
    cx.valueType hint (.field object name) = .ofTy ty := by
  obtain ⟨hknown, f, hf, rfl⟩ := typeOfField_known_iff.mp h
  have hf : cx.table.field? name = some f := hf
  rw [Context.valueType, hobject hknown, fieldType, hf]
  exact if_pos rfl

theorem valueType_call (hself : cx.table.SelfContained) {receiver : Expr} {method : String}
    {args : List Expr} {ty : Ty} (hint : ValueType)
    (h : (Expr.call receiver method args).typeOf (cx.scopeUnder policy) = .known ty)
    (hreceiver : receiver.typeOf (cx.scopeUnder policy) = .known (cx.scopeUnder policy).classTy →
      cx.valueType (cx.expected receiver) receiver = cx.classType) :
    cx.valueType hint (.call receiver method args) = .ofTy ty := by
  obtain ⟨hknown, s, hs, rfl⟩ := typeOfCall_known_iff.mp h
  have hs : cx.table.signature? method = some s := hs
  have howner : ownerName cx.classType = cx.table.className := rfl
  rw [Context.valueType, importName?_eq_none hself]
  simp only
  rw [hreceiver hknown, Context.declaredOn?, if_pos howner, hs]
  rfl

theorem notMem_baseNames_of_object (hbase : cx.table.className ∉ baseNames) {e : Expr}
    (h : e.typeOf (cx.scopeUnder policy) = .known (cx.scopeUnder policy).classTy) :
    ∀ name, unparen e = .newObject name → name ∉ baseNames := by
  intro name hname
  rw [← typeOf_unparen, hname, Expr.typeOf, ExprType.known.injEq, Scope.classTy, Ty.object,
    Ty.object, Ty.mk.injEq] at h
  rw [h.1]
  exact hbase

/-- Where analysis knows the type of an accepted expression, lowering gives it that type; only an
object of a base type is typed otherwise. -/
theorem valueType_of_fine (hself : cx.table.SelfContained) (hbase : cx.table.className ∉ baseNames)
    {e : Expr} (hfine : ∀ part : Part, part.Inside (.expr e) → part.Fine (cx.scopeUnder policy))
    (hnew : ∀ name, unparen e = .newObject name → name ∉ baseNames) {ty : Ty}
    (hty : e.typeOf (cx.scopeUnder policy) = .known ty) (hint : ValueType) :
    cx.valueType hint e = .ofTy ty := by
  have hclass := @ofTy_classTy cx policy hbase
  have hoperand : ∀ {e a : Expr}, a ∈ e.parts →
      (∀ part : Part, part.Inside (.expr e) → part.Fine (cx.scopeUnder policy)) →
      ∀ part : Part, part.Inside (.expr a) → part.Fine (cx.scopeUnder policy) :=
    fun ha hfine part hpart => hfine part (hpart.trans (.of_mem (List.mem_map_of_mem ha)))
  induction e generalizing ty hint with
  | int n | bool v | newArray size | arrayLit elements | length array =>
    cases hty
    rfl
  | binary op lhs rhs =>
    cases hty
    rw [Context.valueType, binaryType, BinaryOp.resultTy]
    cases op.isArithmetic <;> rfl
  | unary op operand =>
    cases hty
    cases op <;> rfl
  | newObject name =>
    cases hty
    exact (ofName_of_notMem (hnew name rfl)).symm
  | this =>
    cases hty
    exact hclass.symm
  | var name => exact valueType_var hself hbase hint hty
  | paren inner ih => exact ih (hoperand (by simp [Expr.parts]) hfine) hnew hty hint
  | index array position ih =>
    obtain ⟨⟨base, isArray⟩, harray, his⟩ | ⟨hexternal, -⟩ :=
      Verdict.of_eq_accepted (hfine _ (.refl _)).index.1
    · cases his
      have hvalue := ih (hoperand (by simp [Expr.parts]) hfine) (fun name hname => ?_) harray
        .intArray
      · rw [Expr.typeOf, harray] at hty
        cases hty
        rw [Context.valueType, hvalue]
        rfl
      · -- an array is not a new object
        rw [← typeOf_unparen, hname] at harray
        cases harray
    · exact absurd hexternal (array.typeOf_ne_external hself)
  | field object name ih =>
    refine valueType_field hint hty fun hobject => ?_
    rw [← hclass]
    exact ih (hoperand (by simp [Expr.parts]) hfine) (notMem_baseNames_of_object hbase hobject)
      hobject _
  | call receiver method args ih =>
    refine valueType_call hself hint hty fun hreceiver => ?_
    rw [← hclass]
    exact ih (hoperand (by simp [Expr.parts]) hfine) (notMem_baseNames_of_object hbase hreceiver)
      hreceiver _

/-! ### Targets -/

/-- The declaration that analysis holds against a target: of a field, which only an instance method
sees, else of a parameter or local variable. -/
theorem targetTy?_cases {target : String} {declared : Ty}
    (h : targetTy? (cx.scopeUnder policy) target = some declared) :
    (cx.signature.isStatic = false ∧ ∃ f, cx.table.field? target = some f ∧ f.ty = declared) ∨
      ∃ origin s, cx.resolve target = some (origin, s) ∧ origin ≠ .field ∧ s.ty = declared := by
  have hown : (cx.signature.param? target).or (cx.signature.localVar? target)
      = Symbol.find? (cx.signature.params ++ cx.signature.locals) target := List.find?_append.symm
  have hsome : (((if cx.signature.isStatic then none else cx.table.field? target).or
      ((cx.signature.param? target).or (cx.signature.localVar? target))).bind
        fun s => some s.ty) = some declared := by
    rw [← h, Option.or_eq_orElse, Option.or_eq_orElse]
    rfl
  rw [hown] at hsome
  obtain ⟨s, hs, hty⟩ := Option.bind_eq_some_iff.mp hsome
  cases hty
  rcases Option.or_eq_some_iff.mp hs with hfield | ⟨-, hown⟩
  · split at hfield
    · cases hfield
    · next hstatic => exact .inl ⟨Bool.eq_false_iff.mpr hstatic, s, hfield, rfl⟩
  · obtain ⟨origin, hr, ho⟩ := Context.resolve_own_iff.mpr hown
    exact .inr ⟨origin, s, hr, ho, rfl⟩

end Lowering

/-! ### Assignments in accepted classes -/

/-- Names and new objects in the assignments of a method mean the same to analysis and to lowering:
an instance method assigns to no variable of its own that hides a field of another type, and
declares none of the receiver's name with another type; and no object of a base type is assigned. -/
structure MethodDecl.Unambiguous (c : ClassDecl) (m : MethodDecl) : Prop where
  hidden : m.isStatic = false → ∀ target value,
    (Part.stmt (.assign target value)).Inside (.method m) → ∀ decl ∈ m.params ++ m.locals,
      ∀ field ∈ c.fields, decl.1 = target → field.1 = target → decl.2.ty = field.2.ty
  receiver : m.isStatic = false → ∀ decl ∈ m.params ++ m.locals, decl.1 = thisName →
    decl.2.ty = .object c.name
  objects : ∀ target value, (Part.stmt (.assign target value)).Inside (.method m) →
    ∀ name, unparen value = .newObject name → name ∉ baseNames

/-- A variable that the instruction assigns to another variable or to a field of the receiver has
the type of that. -/
def Ir.Instr.AssignsTyped (table : SymbolTable) (vars : VarTable) : Instr → Prop
  | .move dst (.var x) => ∃ ty, vars.ty? dst = some ty ∧ vars.ty? x = some ty
  | .putField object field _ (.var x) => object = .var thisName →
    ∃ f, table.field? field = some f ∧ vars.ty? x = some (.ofTy f.ty)
  | _ => True

section Accepted

variable {policy : ExternalPolicy} {c : ClassDecl} {m : MethodDecl} {method : MethodCode}
  {final : State}

theorem MethodDecl.Unambiguous.hidden_ty (h : m.Unambiguous c) {imports : List String}
    {target : String} {value : Expr} {origin : Origin} {s f : Symbol} (hstatic : m.isStatic = false)
    (hin : (Part.stmt (.assign target value)).Inside (.method m))
    (hr : Context.resolve ⟨.ofDecls imports c, .ofDecl m⟩ target = some (origin, s))
    (ho : origin ≠ .field) (hf : (SymbolTable.ofDecls imports c).field? target = some f) :
    s.ty = f.ty := by
  obtain ⟨decl, hdecl, hname, rfl⟩ := Context.exists_decl hr ho
  have hfield : f.name = target := by simpa using List.find?_some hf
  obtain ⟨field, hmem, rfl⟩ := List.mem_map.mp (List.mem_of_find?_eq_some hf)
  exact h.hidden hstatic target value hin decl hdecl field hmem hname hfield

theorem MethodDecl.Unambiguous.undisputed (h : m.Unambiguous c) (hbase : c.name ∉ baseNames)
    {imports : List String} (hfine : ∀ part : Part, part.Inside (.method m) →
      part.Fine ⟨.ofDecls imports c, some (.ofDecl m), policy⟩) :
    Context.Undisputed ⟨.ofDecls imports c, .ofDecl m⟩ (.method m) := by
  intro hused origin s hr ho
  obtain ⟨decl, hdecl, hthis, rfl⟩ := Context.exists_decl hr ho
  have hstatic : m.isStatic = false := by
    rcases hused with hstatic | hin
    · exact hstatic
    · -- a static method that is accepted does not use its receiver
      by_contra hstatic
      have hnames := (hfine _ hin).messages_eq_nil.1
      have hinStatic : Scope.inStatic ⟨.ofDecls imports c, some (.ofDecl m), policy⟩ = true := by
        simpa [Scope.inStatic, Signature.ofDecl] using hstatic
      rw [Part.kind, Expr.kind, Names.messages, if_pos hinStatic] at hnames
      cases hnames
  rw [Symbol.ofDecl, h.receiver hstatic decl hdecl hthis]
  exact ofName_of_notMem hbase

/-- **The assignments of an accepted method** are well typed. -/
theorem assignments_of_fine {cx : Context} (hself : cx.table.SelfContained)
    (hbase : cx.table.className ∉ baseNames)
    (hfine : ∀ part : Part, part.Inside (.method m) → part.Fine (cx.scopeUnder policy))
    (hobjects : ∀ target value, (Part.stmt (.assign target value)).Inside (.method m) →
      ∀ name, unparen value = .newObject name → name ∉ baseNames)
    (hhidden : ∀ target value, (Part.stmt (.assign target value)).Inside (.method m) →
      cx.signature.isStatic = false → ∀ {origin s f}, cx.resolve target = some (origin, s) →
      origin ≠ .field → cx.table.field? target = some f → s.ty = f.ty)
    (hcode : TypedCode cx m method final) :
    ∀ i ∈ method.instructions, i.AssignsTyped cx.table method.vars := by
  -- the value of an assignment has the type declared for the target
  have hvalue : ∀ {target value hint o}, (Part.stmt (.assign target value)).Inside (.method m) →
      OperandHasType final (cx.valueType hint value) o →
      ∃ declared, targetTy? (cx.scopeUnder policy) target = some declared ∧
        OperandHasType final (.ofTy declared) o := by
    intro target value hint o hin ho
    obtain ⟨declared, htarget, hknown⟩ := Part.Fine.assign_known hself (hfine _ hin)
    have hinside : ∀ part : Part, part.Inside (.expr value) → part.Inside (.method m) :=
      fun part hpart => hpart.trans (hin.member List.mem_cons_self)
    have hty := valueType_of_fine hself hbase (fun part hpart => hfine part (hinside part hpart))
      (hobjects target value hin) hknown hint
    exact ⟨declared, htarget, hty ▸ ho⟩
  intro i hi
  cases hcode.arises i hi with
  | other h => cases i <;> trivial
  | callStatic | callVirtual => trivial
  | @assign target value origin s o hin hr ho htype =>
    obtain ⟨declared, htarget, htype⟩ := hvalue hin htype
    cases o with
    | const n => trivial
    | var x =>
      have hdeclared : s.ty = declared := by
        rcases targetTy?_cases htarget with ⟨hstatic, f, hf, rfl⟩ | ⟨origin', s', hr', -, rfl⟩
        · exact hhidden target value hin hstatic hr ho hf
        · cases hr.symm.trans hr'
          rfl
      subst hdeclared
      exact ⟨_, hcode.ty?_eq hi (Instr.mem_vars_of_def rfl) (hcode.sound.declared hr ho),
        hcode.ty?_eq hi (Instr.mem_vars_of_use (by simp [Instr.uses])) htype⟩
  | @assignField target value f o hin hr htype =>
    obtain ⟨declared, htarget, htype⟩ := hvalue hin htype
    cases o with
    | const n => trivial
    | var x =>
      intro _
      rcases targetTy?_cases htarget with ⟨-, f', hf, rfl⟩ | ⟨origin', s', hr', ho', -⟩
      · exact ⟨f', hf, hcode.ty?_eq hi (Instr.mem_vars_of_use (by simp [Instr.uses])) htype⟩
      · cases hr.symm.trans hr'
        exact absurd rfl ho'

/-- **Accepted assignments are well typed in the code.**  Take a class that imports nothing, has no
superclass and does not have the name of a base type, and whose methods are unambiguous.  If it is
accepted and lowered, then in every instruction that assigns a variable to another variable, or to a
field of the receiver, both have one type. -/
theorem assignments_of_accepted {table : SymbolTable} {reports : List Report} {code : ClassCode}
    (htable : (Program.mk [] [c]).build.symbolTable = .ok (table, reports))
    (haccepted : analyze policy (Program.mk [] [c]).build table = [])
    (hlower : (Program.mk [] [c]).build.lower table = .ok code) (hsuper : c.superclass = none)
    (hbase : c.name ∉ baseNames) (hclear : ∀ m ∈ c.methods, m.Unambiguous c) :
    ∀ method ∈ code.methods, ∀ i ∈ method.instructions, i.AssignsTyped table method.vars := by
  obtain ⟨b, hb⟩ := (Program.mk [] [c]).pictures_build
  obtain ⟨_, hofDecls⟩ := hb.symbolTable_ok
  rw [hofDecls] at htable
  cases htable
  have haccepts := (analyze_eq_nil_iff hb (namedAlike_ofDecl c.methods)).mp haccepted
  have hfine : ∀ m ∈ c.methods, ∀ part : Part, part.Inside (.method m) →
      part.Fine ⟨.ofDecls [] c, some (.ofDecl m), policy⟩ := fun m hm =>
    haccepts.bodies (.ofDecl m, m) (mem_zip_ofDecl.mpr ⟨hm, rfl⟩)
  intro method hmethod
  obtain ⟨m, hm, final, hcode⟩ :=
    lower_typed hb (fun m hm => (hclear m hm).undisputed hbase (hfine m hm)) hlower method hmethod
  exact assignments_of_fine ⟨rfl, hsuper⟩ hbase (hfine m hm) (hclear m hm).objects
    (fun _ _ hin hstatic _ _ _ hr ho hf => (hclear m hm).hidden_ty hstatic hin hr ho hf) hcode

end Accepted

/-- A class without superclass and with one instance method, which returns nothing. -/
def assigningClass (name : String) (fields params locals : List (String × TypeExpr))
    (body : List Stmt) : ClassDecl where
  name
  superclass := none
  fields
  methods := [
    { name := "run"
      isPublic := true
      isStatic := false
      returnType := some ⟨"void", false, false⟩
      params
      locals
      body }]

/-- A class that assigns to a variable which hides a field, to a field and to a parameter. -/
def keeperClass : ClassDecl :=
  assigningClass "Keeper" [("level", ⟨"int", false, false⟩), ("own", ⟨"Keeper", false, false⟩)]
    [("flag", ⟨"boolean", false, false⟩)]
    [("level", ⟨"int", false, false⟩), ("limit", ⟨"int", false, false⟩)]
    [.assign "limit" (.var "level"), .assign "level" (.binary .add (.var "limit") (.int 1)),
      .assign "own" (.newObject "Keeper"),
      .assign "flag" (.binary .lt (.var "level") (.var "limit"))]

/-- All values that `keeperClass` assigns are in variables, and it has the four assignments. -/
theorem assignments_of_accepted_keeper :
    ∃ table code, (Program.mk [] [keeperClass]).build.symbolTable = .ok (table, []) ∧
      analyze .strict (Program.mk [] [keeperClass]).build table = [] ∧
      (Program.mk [] [keeperClass]).build.lower table = .ok code ∧
      (∀ m ∈ keeperClass.methods, m.Unambiguous keeperClass) ∧
      (code.methods.map fun method => method.instructions.countP (·.isCallOrAssignment)) = [4] ∧
      ∀ method ∈ code.methods, ∀ i ∈ method.instructions, i.AssignsTyped table method.vars := by
  let table : SymbolTable := .ofDecls [] keeperClass
  have htable : (Program.mk [] [keeperClass]).build.symbolTable = .ok (table, []) := by
    decide +kernel
  have haccepted : analyze .strict (Program.mk [] [keeperClass]).build table = [] := by
    decide +kernel
  have hclear : ∀ m ∈ keeperClass.methods, m.Unambiguous keeperClass := by
    intro m hm
    obtain rfl := List.mem_singleton.mp hm
    refine ⟨fun _ target value _ decl hdecl field hfield hname hfname => ?_, fun _ => by decide,
      fun target value hin name hname => ?_⟩
    · have hsame : ∀ decl ∈ keeperClass.methods[0].params ++ keeperClass.methods[0].locals,
          ∀ field ∈ keeperClass.fields, decl.1 = field.1 → decl.2.ty = field.2.ty := by decide
      exact hsame decl hdecl field hfield (hname.trans hfname.symm)
    · have hobjects : (Stmt.assignmentsInAll keeperClass.methods[0].body).all (fun a =>
          (createdName? (unparen a.2).kind).all (!baseNames.contains ·)) = true := by decide +kernel
      have hvalue := List.all_eq_true.mp hobjects _ (MethodDecl.mem_assignments hin)
      rw [hname] at hvalue
      simpa [createdName?, Expr.kind] using hvalue
  have hlowers : ((Program.mk [] [keeperClass]).build.lower table).toOption.any (fun code =>
      decide ((code.methods.map fun method =>
        method.instructions.countP (·.isCallOrAssignment)) = [4])) = true := by decide +kernel
  rcases hlower : (Program.mk [] [keeperClass]).build.lower table with e | code <;>
    rw [hlower] at hlowers
  · cases hlowers
  · exact ⟨table, code, htable, haccepted, hlower, hclear, of_decide_eq_true hlowers,
      assignments_of_accepted htable haccepted hlower rfl (by decide) hclear⟩

/-! ### Accepted assignments that are not well typed -/

/-- Classes with an accepted assignment that is not well typed in the code: to a variable that hides
a field of another type, of an object of a base type, of the receiver where the class has the name
of a base type, and of a parameter that has the receiver's name. -/
def mistypedClasses : List ClassDecl := [
  assigningClass "Hidden" [("level", ⟨"boolean", false, false⟩)] []
    [("level", ⟨"int", false, false⟩), ("flag", ⟨"boolean", false, false⟩)]
    [.assign "flag" (.bool true), .assign "level" (.var "flag")],
  assigningClass "Maker" [] [] [("n", ⟨"int", false, false⟩)] [.assign "n" (.newObject "int")],
  assigningClass "int" [] [] [("n", ⟨"int", false, false⟩)] [.assign "n" .this],
  assigningClass "Receiver" [] [("this", ⟨"int", false, false⟩)] [("n", ⟨"int", false, false⟩)]
    [.assign "n" (.var "this")]]

/-- The instruction assigns a variable to one of another type. -/
def Ir.Instr.movesMistyped (vars : VarTable) : Instr → Bool
  | .move dst (.var x) => vars.ty? dst != vars.ty? x
  | _ => false

/-- **Accepted assignments need not be well typed in the code**, also in a class that refers to no
other. -/
theorem mistyped_assignments_accepted :
    mistypedClasses.Forall fun c => c.superclass = none ∧
      ∃ table code, (Program.mk [] [c]).build.symbolTable = .ok (table, []) ∧
        (∀ policy, analyze policy (Program.mk [] [c]).build table = []) ∧
        (Program.mk [] [c]).build.lower table = .ok code ∧
        ∃ method ∈ code.methods, ∃ dst x, .move dst (.var x) ∈ method.instructions ∧
          method.vars.ty? dst ≠ method.vars.ty? x := by
  refine List.forall_iff_forall_mem.mpr fun c hc => ?_
  have htables : mistypedClasses.all (fun c => decide
      ((Program.mk [] [c]).build.symbolTable = .ok (.ofDecls [] c, []))) = true := by decide +kernel
  have haccepted : mistypedClasses.all (fun c =>
      (analyze .strict (Program.mk [] [c]).build (.ofDecls [] c)).isEmpty &&
      (analyze .assumeCompatible (Program.mk [] [c]).build (.ofDecls [] c)).isEmpty) = true := by
    decide +kernel
  have hmoves : mistypedClasses.all (fun c =>
      ((Program.mk [] [c]).build.lower (.ofDecls [] c)).toOption.any fun code =>
        code.methods.any fun method => method.instructions.any
          (Instr.movesMistyped method.vars)) = true := by decide +kernel
  have hsupers : ∀ c ∈ mistypedClasses, c.superclass = none := by decide
  have haccepted := List.all_eq_true.mp haccepted c hc
  have hmoves := List.all_eq_true.mp hmoves c hc
  rcases hlower : (Program.mk [] [c]).build.lower (.ofDecls [] c) with e | code <;>
    rw [hlower] at hmoves
  · cases hmoves
  · obtain ⟨method, hmethod, hmoves⟩ := List.any_eq_true.mp hmoves
    obtain ⟨i, hi, hmoves⟩ := List.any_eq_true.mp hmoves
    rw [Bool.and_eq_true, List.isEmpty_iff, List.isEmpty_iff] at haccepted
    refine ⟨hsupers c hc, .ofDecls [] c, code, of_decide_eq_true (List.all_eq_true.mp htables c hc),
      fun policy => ?_, hlower, method, hmethod, ?_⟩
    · cases policy
      · exact haccepted.2
      · exact haccepted.1
    · unfold Instr.movesMistyped at hmoves
      split at hmoves
      · next dst x => exact ⟨dst, x, hi, by simpa using hmoves⟩
      · cases hmoves

end Classlet
