import Classlet.Proofs.Analysis.Fine
import Classlet.Proofs.Lowering.Agreement
import Classlet.Proofs.Lowering.Origins

/-!
# Calls in the code of accepted classes

The argument pass counts and types the arguments of a call by the types of analysis, and lowering
packs them by those of lowering.  In an accepted class both see the same methods for the same
receivers, so that a lowered call of a declared method passes what the signature asks for
(`calls_of_accepted`).
-/

namespace Classlet

open Ir Lowering Semantics Values

/-! ### Signatures -/

theorem Signature.fixedCount_add_one {s : Signature} (h : s.hasVarargs = true) :
    s.fixedCount + 1 = s.params.length := by
  have hne : s.params ≠ [] := by
    rintro hnil
    rw [hasVarargs, hnil] at h
    cases h
  have hpos := List.length_pos_iff.mpr hne
  rw [fixedCount, if_pos h]
  omega

theorem Signature.fixedCount_eq {s : Signature} (h : s.hasVarargs = false) :
    s.fixedCount = s.params.length := by
  rw [fixedCount, h, if_neg Bool.false_ne_true]

/-- A call passes what the signature asks for: one operand for each parameter, the last of them an
integer array if the method is variadic; and it takes what the method returns. -/
structure CallsAs (vars : VarTable) (s : Signature) (dst : Option String) (args : List Operand)
    (ret : ValueType) : Prop where
  count : args.length = s.params.length
  ret_eq : ret = .ofTy s.returnType
  dst_isSome : dst.isSome = !s.returnType.isVoid
  variadic : s.hasVarargs = true → ∃ x, args.getLast? = some (.var x) ∧ vars.ty? x = some .intArray

/-- A call of a declared method of the class passes what the signature asks for. -/
def Ir.Instr.CallsAsDeclared (table : SymbolTable) (vars : VarTable) : Instr → Prop
  | .invokeVirtual dst _ className method args result =>
    className = table.className → ∀ s, table.signature? method = some s →
      CallsAs vars s dst args result
  | _ => True

/-- The instruction calls no method but the declared ones of the class. -/
def Ir.Instr.CallsDeclared (table : SymbolTable) : Instr → Prop
  | .invokeStatic .. => False
  | .invokeVirtual _ _ className method _ _ =>
    className = table.className ∧ ∃ s, table.signature? method = some s
  | _ => True

namespace Lowering

variable {cx : Context} {scope : Scope} {s : Signature} {args : List Expr} {st : State}

/-! ### Passed arguments -/

/-- The arguments are passed as they are unless there are some to pack: the method is variadic, and
they are not one integer array. -/
theorem Context.packedFrom?_eq_none (h : cx.packedFrom? (some s) args = none)
    (hv : s.hasVarargs = true) :
    ∃ only, args.drop s.fixedCount = [only] ∧ cx.valueType .int only = .intArray := by
  rw [packedFrom?, if_pos hv] at h
  split at h
  · next only hdrop =>
    split at h
    · next hty => exact ⟨only, hdrop, hty⟩
    · cases h
  · cases h

theorem Context.packedFrom?_eq_some {k : Nat} (h : cx.packedFrom? (some s) args = some k) :
    s.hasVarargs = true ∧ k = s.fixedCount := by
  rw [packedFrom?] at h
  split at h
  · next hv =>
    refine ⟨hv, ?_⟩
    split at h
    · split at h
      · cases h
      · exact (Option.some.inj h).symm
    · exact (Option.some.inj h).symm
  · cases h

/-- **As many operands are passed as there are parameters.** -/
theorem Passed.length_eq {operands : List Operand} (h : Passed cx st (some s) args operands)
    (hfit : ArgumentsFit scope s (args.map (Expr.typeOf scope))) :
    operands.length = s.params.length := by
  have hcount := hfit.count
  rw [List.length_map] at hcount
  cases h with
  | each hpacked htypes =>
    rw [← htypes.length_eq, length_valueTypes]
    cases hv : s.hasVarargs with
    | true =>
      obtain ⟨only, hdrop, -⟩ := cx.packedFrom?_eq_none hpacked hv
      have hlength := congrArg List.length hdrop
      rw [List.length_drop, List.length_singleton] at hlength
      have hfixed := s.fixedCount_add_one hv
      omega
    | false =>
      rw [hv, if_neg Bool.false_ne_true, s.fixedCount_eq hv] at hcount
      exact hcount
  | packed hpacked hlength harray =>
    obtain ⟨hv, rfl⟩ := cx.packedFrom?_eq_some hpacked
    rw [if_pos hv] at hcount
    have hfixed := s.fixedCount_add_one hv
    rw [List.length_append, List.length_take, hlength, List.length_singleton]
    omega

/-- **The last operand for a variadic parameter is an integer array** in a variable: no constant has
this type. -/
theorem Passed.getLast?_eq {operands : List Operand} (h : Passed cx st (some s) args operands)
    (hv : s.hasVarargs = true) :
    ∃ x, operands.getLast? = some (.var x) ∧ HasType st x .intArray := by
  cases h with
  | each hpacked htypes =>
    obtain ⟨only, hdrop, hty⟩ := cx.packedFrom?_eq_none hpacked hv
    have hrest := List.forall₂_drop s.fixedCount htypes
    rw [Context.drop_valueTypes, drop_argumentHints, hdrop] at hrest
    simp only [Context.valueTypes, List.head?_nil, Option.getD_none, hty] at hrest
    obtain ⟨o, more, ho, hmore, heq⟩ := List.forall₂_cons_left_iff.mp hrest
    cases hmore
    have hlast : operands.getLast? = some o := by
      rw [← List.take_append_drop s.fixedCount operands, heq, List.getLast?_concat]
    cases o with
    | var x => exact ⟨x, hlast, ho⟩
    | const n => rcases ho with h | h <;> cases h
  | packed hpacked hlength harray => exact ⟨_, List.getLast?_concat, harray⟩

/-! ### Calls in accepted methods -/

section Accepted

variable {policy : ExternalPolicy} {receiver : Expr} {method : String}

theorem isVoid_ofTy (ty : Ty) : (ValueType.ofTy ty).isVoid = ty.isVoid := by
  obtain ⟨name, isArray⟩ := ty
  cases isArray with
  | true => rfl
  | false =>
    rw [ValueType.ofTy, if_neg Bool.false_ne_true, ValueType.ofName, Ty.isVoid]
    split_ifs with h₁ h₂ h₃ h₄ <;> simp_all [ValueType.isVoid]

theorem argumentsFit_of_fine (hfine : (Part.expr (.call receiver method args)).Fine scope)
    (hreceiver : receiver.typeOf scope = .known scope.classTy)
    (hs : scope.table.signature? method = some s) :
    ArgumentsFit scope s (args.map (Expr.typeOf scope)) := by
  cases hfine.call with
  | declared howner hm hargs =>
    rw [hs] at hm
    cases hm
    exact hargs
  | external hlenient hty =>
    have hknown : scope.typeOfCall method (receiver.typeOf scope) = .known s.returnType :=
      typeOfCall_known_iff.mpr ⟨hreceiver, s, hs, rfl⟩
    rw [hknown] at hty
    cases hty

theorem declared_of_strict (hfine : (Part.expr (.call receiver method args)).Fine scope)
    (hstrict : scope.policy = .strict) : receiver.typeOf scope = .known scope.classTy ∧
      ∃ s, scope.table.signature? method = some s := by
  cases hfine.call with
  | declared howner hm hargs => exact ⟨owner_eq_thisClass_iff.mp howner, _, hm⟩
  | external hlenient hty =>
    rw [hstrict] at hlenient
    cases hlenient

/-- **The calls of an accepted method** pass what the signatures ask for. -/
theorem calls_of_fine {m : MethodDecl} {code : MethodCode} (hproper : cx.ProperClass)
    (hfine : ∀ part : Part, part.Inside (.method m) → part.Fine (cx.scopeUnder policy))
    (hnew : ∀ name, (Part.expr (.newObject name)).Inside (.method m) → name ∉ baseNames)
    (hcode : TypedCode cx m code st) :
    ∀ i ∈ code.instructions, i.CallsAsDeclared cx.table code.vars ∧
      (policy = .strict → i.CallsDeclared cx.table) := by
  intro i hi
  cases hcode.arises i hi with
  | other h => cases i <;> first | exact ⟨trivial, fun _ => trivial⟩ | cases h
  | assign | assignField => exact ⟨trivial, fun _ => trivial⟩
  | callStatic hin hname =>
    refine ⟨trivial, fun hstrict => ?_⟩
    exact typeOf_import_ne hproper policy hname (declared_of_strict (hfine _ hin) hstrict).1
  | @callVirtual receiver method args dst object operands ret hint hin hname hlowers hpassed hret
      hdst =>
    have hagrees : Agrees cx (cx.scopeUnder policy) receiver := agrees hproper policy
      (fun name hn => hnew name (hn.trans (hin.operand List.mem_cons_self))) hlowers
    have howner := hagrees.ownerName_iff hproper
    refine ⟨fun hclass s hs => ?_, fun hstrict => ?_⟩
    · have hfit := argumentsFit_of_fine (hfine _ hin) (howner.mp hclass) hs
      rw [Context.declaredOn?, if_pos hclass, hs] at hpassed hret
      rw [resultType] at hret
      refine ⟨hpassed.length_eq hfit, hret, ?_, fun hv => ?_⟩
      · rw [hdst, hret, isVoid_ofTy]
      · obtain ⟨x, hlast, hx⟩ := hpassed.getLast?_eq hv
        refine ⟨x, hlast, hcode.ty?_eq hi (Instr.mem_vars_of_use ?_) hx⟩
        exact List.mem_cons_of_mem _ (List.mem_of_getLast? hlast)
    · obtain ⟨hclass, hdeclared⟩ := declared_of_strict (hfine _ hin) hstrict
      exact ⟨howner.mpr hclass, hdeclared⟩

end Accepted

end Lowering

/-! ### Calls in accepted classes -/

/-- **Checked calls and lowered calls agree.**  Take a class whose name is neither that of a base
type nor imported nor that of its superclass, and has no bracket in it; where no object of a base
type is made, no parameter or local variable has the receiver's name, and that name is not imported.
If it is accepted and lowered, then its calls of its own declared methods pass what the first
signatures of their names ask for; and under the strict policy it calls no other methods. -/
theorem calls_of_accepted {imports : List String} {c : ClassDecl} {table : SymbolTable}
    {reports : List Report} {policy : ExternalPolicy} {code : ClassCode} {ids : List NodeId}
    (htable : (Program.mk imports [c]).build.symbolTable = .ok (table, reports))
    (haccepted : analyze policy (Program.mk imports [c]).build table = [])
    (hlower : (Program.mk imports [c]).build.lower table = .ok code)
    (hbase : c.name ∉ baseNames) (hbracket : ']' ∉ c.name.toList)
    (himport : table.isImported c.name = false) (hsuper : c.superclass ≠ some c.name)
    (himportThis : table.isImported thisName = false)
    (hthis : ∀ m ∈ c.methods, ∀ decl ∈ m.params ++ m.locals, decl.1 ≠ thisName)
    (hids : (Program.mk imports [c]).build.descendants (Program.mk imports [c]).build.root = .ok ids)
    (hnew : ∀ id ∈ ids, ∀ name, (Program.mk imports [c]).build.kind id = .ok (.newObject name) →
      name ∉ baseNames) :
    ∀ method ∈ code.methods, ∀ i ∈ method.instructions,
      i.CallsAsDeclared table method.vars ∧ (policy = .strict → i.CallsDeclared table) := by
  obtain ⟨b, hb⟩ := (Program.mk imports [c]).pictures_build
  obtain ⟨_, hofDecls⟩ := hb.symbolTable_ok
  rw [hofDecls] at htable
  cases htable
  have haccepts := (analyze_eq_nil_iff hb (namedAlike_ofDecl c.methods)).mp haccepted
  intro method hmethod
  obtain ⟨m, hm, final, hcode⟩ :=
    lower_typed hb (fun m hm => Context.undisputed_of_ne (hthis m hm)) hlower method hmethod
  refine calls_of_fine ⟨hbase, hbracket, himport, hsuper, himportThis⟩
    (haccepts.bodies (.ofDecl m, m) (mem_zip_ofDecl.mpr ⟨hm, rfl⟩)) (fun name hin => ?_) hcode
  obtain ⟨id, hid, hkind⟩ := hb.exists_node hids (hin.trans (Part.inside_program hm))
  exact hnew id hid name hkind

/-- A class with a variadic method, which is called with integers, with the results of other calls,
and with one array. -/
def adderClass : ClassDecl where
  name := "Adder"
  superclass := none
  fields := []
  methods := [
    { name := "sum"
      isPublic := true
      isStatic := false
      returnType := some ⟨"int", false, false⟩
      params := [("first", ⟨"int", false, false⟩), ("rest", ⟨"int", false, true⟩)]
      locals := []
      body := [.ret (some (.binary .add (.var "first") (.length (.var "rest"))))] },
    { name := "pair"
      isPublic := true
      isStatic := false
      returnType := some ⟨"int", true, false⟩
      params := [("n", ⟨"int", false, false⟩)]
      locals := []
      body := [.ret (some (.arrayLit [.var "n", .var "n"]))] },
    { name := "run"
      isPublic := true
      isStatic := false
      returnType := some ⟨"void", false, false⟩
      params := [("given", ⟨"int", true, false⟩)]
      locals := []
      body := [
        .expr (.call .this "sum" [.int 1, .int 2, .call .this "sum" [.int 3]]),
        .expr (.call .this "sum" [.length (.var "given"), .call .this "pair" [.int 4]]),
        .expr (.call .this "run" [.var "given"])] }]

/-- In `adderClass` all calls are checked strictly, and there are five of them. -/
theorem calls_of_accepted_adder :
    ∃ table code, (Program.mk [] [adderClass]).build.symbolTable = .ok (table, []) ∧
      analyze .strict (Program.mk [] [adderClass]).build table = [] ∧
      (Program.mk [] [adderClass]).build.lower table = .ok code ∧
      (code.methods.map fun method => method.instructions.countP (·.isCallOrAssignment))
        = [0, 0, 5] ∧
      ∀ method ∈ code.methods, ∀ i ∈ method.instructions,
        i.CallsAsDeclared table method.vars ∧ i.CallsDeclared table := by
  let table : SymbolTable := .ofDecls [] adderClass
  have htable : (Program.mk [] [adderClass]).build.symbolTable = .ok (table, []) := by
    decide +kernel
  have haccepted : analyze .strict (Program.mk [] [adderClass]).build table = [] := by
    decide +kernel
  have hids : (Program.mk [] [adderClass]).build.descendants
      (Program.mk [] [adderClass]).build.root = .ok (List.range 45) := by decide +kernel
  have hnew := not_base_of_none_created (Program.mk [] [adderClass]).build (List.range 45)
    (by decide +kernel)
  have hlowers : ((Program.mk [] [adderClass]).build.lower table).toOption.any (fun code =>
      decide ((code.methods.map fun method =>
        method.instructions.countP (·.isCallOrAssignment)) = [0, 0, 5])) = true := by
    decide +kernel
  rcases hlower : (Program.mk [] [adderClass]).build.lower table with e | code <;>
    rw [hlower] at hlowers
  · cases hlowers
  · refine ⟨table, code, htable, haccepted, hlower, of_decide_eq_true hlowers,
      fun method hmethod i hi => ?_⟩
    have hcalls := calls_of_accepted htable haccepted hlower (by decide) (by decide) (by decide)
      (by decide) (by decide) (by decide) hids hnew method hmethod i hi
    exact ⟨hcalls.1, hcalls.2 rfl⟩

end Classlet
