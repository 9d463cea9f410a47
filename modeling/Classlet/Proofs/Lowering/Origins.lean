import Classlet.Proofs.Lowering.Variables
import Classlet.Proofs.Registers.Interference

/-!
# Where lowered instructions come from

Every instruction that calls a method or assigns a value comes from a call or an assignment in the
method, and what it takes is typed as the expressions there are (`Arises`).  This is proved along
lowering, together with the types of the operands (`lowerExpr_yields`, `lowerStmt_yields`); for the
methods of a class it is `lower_typed`.
-/

namespace Classlet.Ir.Instr

/-- The instruction calls a method that has a name in the program, or assigns a value. -/
def isCallOrAssignment : Instr → Bool
  | move _ _ | putField _ _ _ _ | invokeStatic _ _ _ _ _ | invokeVirtual _ _ _ _ _ _ => true
  | _ => false

end Classlet.Ir.Instr

namespace Classlet.Lowering

open Classlet.Ir Classlet.Semantics Subtree

variable {cx : Context} {whole : Part} {st st' st₁ st₂ : State}

/-! ### Origins -/

/-- The operands that are passed for arguments to a method that may be declared: one for each, or
those of the fixed arguments and an array of the others. -/
inductive Passed (cx : Context) (st : State) (declared : Option Signature) (args : List Expr) :
    List Operand → Prop
  | each {operands : List Operand} (hpacked : cx.packedFrom? declared args = none)
      (htypes : List.Forall₂ (OperandHasType st) (cx.valueTypes (argumentHints declared) args)
        operands) : Passed cx st declared args operands
  | packed {k : Nat} {operands : List Operand} {array : String}
      (hpacked : cx.packedFrom? declared args = some k) (hlength : operands.length = args.length)
      (harray : HasType st array .intArray) :
      Passed cx st declared args (operands.take k ++ [.var array])

/-- The instruction comes from a part of `whole`. -/
inductive Arises (cx : Context) (whole : Part) (st : State) : Instr → Prop
  | other {i : Instr} (h : i.isCallOrAssignment = false) : Arises cx whole st i
  | callStatic {receiver : Expr} {className method : String} {args : List Expr}
      {dst : Option String} {operands : List Operand} {ret : ValueType}
      (hin : (Part.expr (.call receiver method args)).Inside whole)
      (hname : importName? cx receiver = some className) :
      Arises cx whole st (.invokeStatic dst className method operands ret)
  | callVirtual {receiver : Expr} {method : String} {args : List Expr} {dst : Option String}
      {object : Operand} {operands : List Operand} {ret hint : ValueType}
      (hin : (Part.expr (.call receiver method args)).Inside whole)
      (hname : importName? cx receiver = none) (hreceiver : cx.lowers receiver = true)
      (hpassed : Passed cx st (cx.declaredOn? (cx.receiverType receiver) method) args operands)
      (hret : ret = resultType (cx.declaredOn? (cx.receiverType receiver) method) hint)
      (hdst : dst.isSome = !ret.isVoid) :
      Arises cx whole st
        (.invokeVirtual dst object (ownerName (cx.receiverType receiver)) method operands ret)
  | assign {target : String} {value : Expr} {origin : Origin} {symbol : Symbol} {o : Operand}
      (hin : (Part.stmt (.assign target value)).Inside whole)
      (hresolve : cx.resolve target = some (origin, symbol)) (hown : origin ≠ .field)
      (ho : OperandHasType st (cx.valueType (.ofTy symbol.ty) value) o) :
      Arises cx whole st (.move target o)
  | assignField {target : String} {value : Expr} {field : Symbol} {o : Operand}
      (hin : (Part.stmt (.assign target value)).Inside whole)
      (hresolve : cx.resolve target = some (.field, field))
      (ho : OperandHasType st (cx.valueType (.ofTy field.ty) value) o) :
      Arises cx whole st (.putField (.var thisName) target (.ofTy field.ty) o)

theorem Passed.mono {declared : Option Signature} {args : List Expr} {operands : List Operand}
    (h : Passed cx st declared args operands) (hk : Keeps st st') :
    Passed cx st' declared args operands := by
  cases h with
  | each hpacked htypes => exact .each hpacked (htypes.imp fun _ _ h => h.mono hk)
  | packed hpacked hlength harray => exact .packed hpacked hlength (harray.mono hk)

theorem Arises.mono {i : Instr} (h : Arises cx whole st i) (hk : Keeps st st') :
    Arises cx whole st' i := by
  cases h with
  | other h => exact .other h
  | callStatic hin hname => exact .callStatic hin hname
  | callVirtual hin hname hreceiver hpassed hret hdst =>
    exact .callVirtual hin hname hreceiver (hpassed.mono hk) hret hdst
  | assign hin hresolve hown ho => exact .assign hin hresolve hown (ho.mono hk)
  | assignField hin hresolve ho => exact .assignField hin hresolve (ho.mono hk)

/-- All instructions of the code come from parts of `whole`. -/
def ArisesAll (cx : Context) (whole : Part) (st : State) (code : List Instr) : Prop :=
  ∀ i ∈ code, Arises cx whole st i

namespace ArisesAll

variable {code more : List Instr}

theorem mono (h : ArisesAll cx whole st code) (hk : Keeps st st') : ArisesAll cx whole st' code :=
  fun i hi => (h i hi).mono hk

theorem nil : ArisesAll cx whole st [] := by simp [ArisesAll]

theorem append (h : ArisesAll cx whole st code) (h' : ArisesAll cx whole st more) :
    ArisesAll cx whole st (code ++ more) := List.forall_mem_append.mpr ⟨h, h'⟩

theorem singleton {i : Instr} (h : Arises cx whole st i) : ArisesAll cx whole st [i] :=
  List.forall_mem_singleton.mpr h

theorem of_others (h : code.all (!·.isCallOrAssignment) = true) : ArisesAll cx whole st code := by
  intro i hi
  exact .other (by simpa using List.all_eq_true.mp h i hi)

end ArisesAll

/-! ### Small steps -/

/-- What holds of a lowered expression. -/
structure Yields (cx : Context) (whole : Part) (st : State) (l : Lowered) (st' : State) : Prop where
  keeps : Keeps st st'
  operand : ∀ o, l.value = some o → OperandHasType st' l.ty o
  code : ArisesAll cx whole st' l.code

/-- What holds of an operand of the given type. -/
structure YieldsOperand (cx : Context) (whole : Part) (ty : ValueType) (st : State) (v : Loaded)
    (st' : State) : Prop where
  keeps : Keeps st st'
  ty_eq : v.ty = ty
  operand : OperandHasType st' v.ty v.operand
  code : ArisesAll cx whole st' v.code

theorem yields_ofOperand {o : Operand} {ty : ValueType} (h : OperandHasType st ty o) :
    Yields cx whole st (.ofOperand o ty) st where
  keeps := .refl st
  operand := by
    rintro _ ⟨⟩
    exact h
  code := .nil

theorem intoTemp_yields {ty : ValueType} {code : List Instr} {last : String → Instr} {l : Lowered}
    (h : intoTemp ty code last st₁ = .ok (l, st')) (hs : Sound cx whole st₁)
    (hkeeps : Keeps st st₁) (hcode : ArisesAll cx whole st₁ code)
    (hlast : ∀ dst, Keeps st₁ st' → Arises cx whole st' (last dst)) : Yields cx whole st l st' := by
  obtain ⟨dst, ht, rfl⟩ := intoTemp_ok h
  obtain ⟨hk, hty⟩ := temp_keeps ht hs
  refine ⟨hkeeps.trans hk, ?_, (hcode.mono hk).append (.singleton (hlast dst hk))⟩
  rintro _ ⟨⟩
  exact hty

theorem lowerName_yields {name : String} {l : Lowered} (h : lowerName cx name st = .ok (l, st'))
    (hs : Sound cx whole st) : Yields cx whole st l st' := by
  unfold lowerName at h
  rcases hr : cx.resolve name with _ | ⟨_ | _ | _, symbol⟩ <;> simp only [hr] at h
  case none =>
    by_cases hn : name = thisName
    · rw [if_pos (by simpa using hn)] at h
      cases pure_ok h
      exact yields_ofOperand (hs.receiver (.inr (hn ▸ hr)))
    · rw [if_neg (by simpa using hn)] at h
      exact absurd h fail_ne_ok
  case some.field => exact intoTemp_yields h hs (.refl st) .nil fun _ _ => .other rfl
  all_goals
    cases pure_ok h
    exact yields_ofOperand (hs.declared hr (by simp))

/-! ### Arrays and calls -/

theorem arisesAll_storeElements (array : String) (k : Nat) (os : List Operand) :
    ArisesAll cx whole st (storeElements array k os) := by
  induction os generalizing k with
  | nil => exact .nil
  | cons o os ih => exact (ArisesAll.singleton (.other rfl)).append (ih (k + 1))

theorem packArray_yields {os : List Operand} {array : String} {packing : List Instr}
    (h : packArray os st = .ok ((array, packing), st')) (hs : Sound cx whole st) :
    Keeps st st' ∧ HasType st' array .intArray ∧ ArisesAll cx whole st' packing := by
  obtain ⟨ht, rfl⟩ := packArray_ok h
  obtain ⟨hk, hty⟩ := temp_keeps ht hs
  exact ⟨hk, hty, (ArisesAll.singleton (.other rfl)).append (arisesAll_storeElements array 0 os)⟩

theorem length_valueTypes (cx : Context) (hints : List ValueType) (es : List Expr) :
    (cx.valueTypes hints es).length = es.length := by
  induction es generalizing hints with
  | nil => rfl
  | cons e es ih => rw [Context.valueTypes, List.length_cons, ih, List.length_cons]

theorem packArguments_yields {declared : Option Signature} {args : List Loaded} {es : List Expr}
    {os : List Operand} {packing : List Instr} (hs : Sound cx whole st)
    (htys : args.map (·.ty) = cx.valueTypes (argumentHints declared) es)
    (hargs : ∀ v ∈ args, OperandHasType st v.ty v.operand)
    (h : packArguments declared args st = .ok ((os, packing), st')) :
    Keeps st st' ∧ Passed cx st' declared es os ∧ ArisesAll cx whole st' packing := by
  have hfrom : cx.packedFrom? declared es = packedBy? declared (args.map (·.ty)) := by
    rw [cx.packedFrom?_eq, htys]
  rcases packArguments_ok h with ⟨hpacked, rfl, rfl, rfl⟩ | ⟨k, array, hpacked, ha, rfl⟩ <;>
    rw [← hfrom] at hpacked
  · refine ⟨.refl _, .each hpacked ?_, .nil⟩
    rw [← htys, List.forall₂_map_left_iff, List.forall₂_map_right_iff, List.forall₂_same]
    exact hargs
  · obtain ⟨hk, hty, hcode⟩ := packArray_yields ha hs
    refine ⟨hk, .packed hpacked ?_ hty, hcode⟩
    rw [List.length_map, ← length_valueTypes cx (argumentHints declared) es, ← htys,
      List.length_map]

/-- What holds of lowered arguments. -/
structure YieldsAll (cx : Context) (whole : Part) (tys : List ValueType) (st : State)
    (args : List Loaded) (st' : State) : Prop where
  keeps : Keeps st st'
  ty_eq : args.map (·.ty) = tys
  operands : ∀ v ∈ args, OperandHasType st' v.ty v.operand
  code : ArisesAll cx whole st' (codeOf args)

theorem finishCall_yields {method : String} {hint : ValueType} {callee : Callee} {es : List Expr}
    {code : List Instr} {args : List Loaded} {l : Lowered}
    (h : finishCall cx method hint callee code args st₁ = .ok (l, st')) (hs : Sound cx whole st₁)
    (hargs : YieldsAll cx whole (cx.valueTypes (argumentHints (callee.signature? cx method)) es) st
      args st₁)
    (hcode : ArisesAll cx whole st₁ code)
    (hcall : ∀ {dst os ret}, Passed cx st' (callee.signature? cx method) es os →
      ret = resultType (callee.signature? cx method) hint → dst.isSome = !ret.isVoid →
      Arises cx whole st' (callee.invoke method dst os ret)) :
    Yields cx whole st l st' := by
  unfold finishCall at h
  obtain ⟨⟨os, packing⟩, st₂, hp, h⟩ := bind_ok h
  obtain ⟨hk, hpassed, hpacking⟩ := packArguments_yields hs hargs.ty_eq hargs.operands hp
  have hall : ArisesAll cx whole st₂ (code ++ codeOf args ++ packing) :=
    ((hcode.append hargs.code).mono hk).append hpacking
  simp only at h
  split at h
  · next hvoid =>
    cases pure_ok h
    refine ⟨hargs.keeps.trans hk, by simp, hall.append (.singleton (hcall hpassed rfl ?_))⟩
    rw [hvoid]
    rfl
  · next hvoid =>
    refine intoTemp_yields h (hs.mono hk) (hargs.keeps.trans hk) hall fun dst hk' => ?_
    refine hcall (hpassed.mono hk') rfl ?_
    rw [Bool.eq_false_iff.mpr hvoid]
    rfl

/-! ### Expressions -/

/-- Lowering the nodes of an expression yields code that comes from the expression. -/
def LowersTyped (cx : Context) (whole : Part) (e : Expr) : Prop :=
  ∀ (b : Subtree) (hint : ValueType) (st : State) (l : Lowered) (st' : State), b.IsExpr e →
    (Part.expr e).Inside whole → Sound cx whole st →
    lowerExpr cx hint b.toShape st = .ok (l, st') → Yields cx whole st l st'

theorem lowers_of_ok {e : Expr} {b : Subtree} {hint : ValueType} {l : Lowered} (hb : b.IsExpr e)
    (h : lowerExpr cx hint b.toShape st = .ok (l, st')) :
    cx.lowers e = true ∧ l.ty = cx.valueType hint e := by
  obtain ⟨hlowers, hfits⟩ := (lowerExpr_ends cx (.expr e) e b hint st hb (.refl _)).of_ok h
  exact ⟨hlowers, hfits.ty_eq⟩

/-- An expression whose value is needed by what follows. -/
theorem LowersTyped.load {α : Type} {e : Expr} (h : LowersTyped cx whole e) {b : Subtree}
    {hint : ValueType} {id : NodeId} {f : Loaded → Lower α} {r : α × State} (hb : b.IsExpr e)
    (hin : (Part.expr e).Inside whole) (hs : Sound cx whole st)
    (hr : (lowerExpr cx hint b.toShape >>= fun l => liftM (l.loaded id) >>= f) st = .ok r) :
    ∃ v st₁, cx.lowers e = true ∧ YieldsOperand cx whole (cx.valueType hint e) st v st₁ ∧
      Sound cx whole st₁ ∧ f v st₁ = .ok r := by
  obtain ⟨l, st₁, hl, hr₁⟩ := bind_ok hr
  obtain ⟨v, st₂, hv, hr₂⟩ := bind_ok hr₁
  obtain ⟨rfl, rfl⟩ := loaded_ok hv
  obtain ⟨hlowers, hty⟩ := lowers_of_ok hb hl
  obtain ⟨hkeeps, hoperand, hcode⟩ := h b hint st _ _ hb hin hs hl
  exact ⟨v, st₂, hlowers, ⟨hkeeps, hty, hoperand _ rfl, hcode⟩, hs.mono hkeeps, hr₂⟩

theorem lowerArgs_yields {es : List Expr} (hes : ∀ e ∈ es, LowersTyped cx whole e)
    (hin : ∀ e ∈ es, (Part.expr e).Inside whole) {cs : List Subtree}
    (hcs : List.Forall₂ IsExpr cs es) {hints : List ValueType} {args : List Loaded}
    (hs : Sound cx whole st)
    (h : lowerArgs cx hints (cs.map fun c _ => c.toShape) st = .ok (args, st')) :
    YieldsAll cx whole (cx.valueTypes hints es) st args st' := by
  induction es generalizing cs hints st args with
  | nil =>
    cases hcs
    cases pure_ok h
    exact ⟨.refl _, rfl, by simp, .nil⟩
  | cons e es ih =>
    obtain ⟨c, cs, hc, hrest, rfl⟩ := List.forall₂_cons_right_iff.mp hcs
    rw [List.forall_mem_cons] at hes hin
    rw [List.map_cons, lowerArgs] at h
    obtain ⟨v, st₁, -, hv, hs₁, h⟩ := hes.1.load hc hin.1 hs h
    obtain ⟨rest, st₂, hr, h⟩ := bind_ok h
    cases pure_ok h
    obtain ⟨hk, htys, hoperands, hcode⟩ := ih hes.2 hin.2 hrest hs₁ hr
    refine ⟨hv.keeps.trans hk, ?_, ?_, (hv.code.mono hk).append hcode⟩
    · rw [List.map_cons, htys, hv.ty_eq, Context.valueTypes]
    · rw [List.forall_mem_cons]
      exact ⟨hv.operand.mono hk, hoperands⟩

/-- An expression of one operand, computed by one instruction. -/
theorem yields_of_operand {e operand : Expr} {b : Subtree} {hint : ValueType} {id : NodeId}
    {l : Lowered} (h : LowersTyped cx whole operand) (hb : b.IsExpr operand)
    (hin : (Part.expr e).Inside whole) (hpart : operand ∈ e.parts) (hs : Sound cx whole st)
    {ty : Loaded → ValueType} {last : Loaded → String → Instr}
    (hlast : ∀ v dst, (last v dst).isCallOrAssignment = false)
    (hl : (lowerExpr cx hint b.toShape >>= fun l => liftM (l.loaded id) >>= fun v =>
      intoTemp (ty v) v.code (last v)) st = .ok (l, st')) : Yields cx whole st l st' := by
  obtain ⟨v, st₁, -, hv, hs₁, hl⟩ := h.load hb (hin.operand hpart) hs hl
  exact intoTemp_yields hl hs₁ hv.keeps hv.code fun dst _ => .other (hlast v dst)

theorem lowersTyped_binary (op : BinaryOp) {lhs rhs : Expr} (hl : LowersTyped cx whole lhs)
    (hr : LowersTyped cx whole rhs) : LowersTyped cx whole (.binary op lhs rhs) := by
  intro b hint st l st' hb hin hs h
  obtain ⟨i, p, cs, rfl, hcs⟩ := isExpr_iff.mp hb
  obtain ⟨bl, br, rfl, hbl, hbr⟩ := forall₂_two hcs
  rw [Expr.kind, lowerExpr_binary hbr] at h
  obtain ⟨v₁, st₁, -, hv₁, hs₁, h⟩ := hl.load hbl (hin.operand (by simp [Expr.parts])) hs h
  obtain ⟨v₂, st₂, -, hv₂, hs₂, h⟩ := hr.load hbr (hin.operand (by simp [Expr.parts])) hs₁ h
  exact intoTemp_yields h hs₂ (hv₁.keeps.trans hv₂.keeps)
    ((hv₁.code.mono hv₂.keeps).append hv₂.code) fun _ _ => .other rfl

theorem lowersTyped_index {array position : Expr} (ha : LowersTyped cx whole array)
    (hp : LowersTyped cx whole position) : LowersTyped cx whole (.index array position) := by
  intro b hint st l st' hb hin hs h
  obtain ⟨i, p, cs, rfl, hcs⟩ := isExpr_iff.mp hb
  obtain ⟨ba, bp, rfl, hba, hbp⟩ := forall₂_two hcs
  rw [toShape_node, Expr.kind, List.map_cons, List.map_cons, lowerExpr] at h
  obtain ⟨v₁, st₁, -, hv₁, hs₁, h⟩ := ha.load hba (hin.operand (by simp [Expr.parts])) hs h
  obtain ⟨v₂, st₂, -, hv₂, hs₂, h⟩ := hp.load hbp (hin.operand (by simp [Expr.parts])) hs₁ h
  exact intoTemp_yields h hs₂ (hv₁.keeps.trans hv₂.keeps)
    ((hv₁.code.mono hv₂.keeps).append hv₂.code) fun _ _ => .other rfl

theorem lowersTyped_call (method : String) {receiver : Expr} {args : List Expr}
    (hr : LowersTyped cx whole receiver) (ha : ∀ e ∈ args, LowersTyped cx whole e) :
    LowersTyped cx whole (.call receiver method args) := by
  intro b hint st l st' hb hin hs h
  obtain ⟨i, p, cs, rfl, hcs⟩ := isExpr_iff.mp hb
  obtain ⟨c, ds, hc, hds, rfl⟩ := List.forall₂_cons_right_iff.mp hcs
  have hinArgs : ∀ e ∈ args, (Part.expr e).Inside whole := fun e he =>
    hin.operand (List.mem_cons_of_mem _ he)
  rw [toShape_node, Expr.kind, List.map_cons, lowerExpr,
    lift_bind (importedReceiver?_eq cx hc)] at h
  cases hname : importName? cx receiver with
  | some className =>
    rw [hname] at h
    obtain ⟨loaded, st₁, hl, h⟩ := bind_ok h
    have hargs := lowerArgs_yields ha hinArgs hds hs hl
    exact finishCall_yields h (hs.mono hargs.keeps) hargs .nil fun _ _ _ => .callStatic hin hname
  | none =>
    simp only [hname] at h
    rw [lift_bind (receiverHint_eq cx hc)] at h
    obtain ⟨v, st₁, hlowers, hv, hs₁, h⟩ := hr.load hc (hin.operand List.mem_cons_self) hs h
    have hty : v.ty = cx.receiverType receiver := hv.ty_eq
    rw [hty] at h
    obtain ⟨loaded, st₂, hl, h⟩ := bind_ok h
    have hargs := lowerArgs_yields ha hinArgs hds hs₁ hl
    refine finishCall_yields h (hs₁.mono hargs.keeps) ⟨hv.keeps.trans hargs.keeps, hargs.ty_eq,
      hargs.operands, hargs.code⟩ (hv.code.mono hargs.keeps) fun hpassed hret hdst => ?_
    exact .callVirtual hin hname hlowers hpassed hret hdst

theorem lowersTyped_arrayLit {elements : List Expr} (he : ∀ e ∈ elements, LowersTyped cx whole e) :
    LowersTyped cx whole (.arrayLit elements) := by
  intro b hint st l st' hb hin hs h
  obtain ⟨i, p, cs, rfl, hcs⟩ := isExpr_iff.mp hb
  rw [toShape_node, Expr.kind, lowerExpr] at h
  obtain ⟨loaded, st₁, hl, h⟩ := bind_ok h
  obtain ⟨hk, -, -, hcode⟩ := lowerArgs_yields he (fun e h => hin.operand h) hcs hs hl
  obtain ⟨⟨array, packing⟩, st₂, hp, h⟩ := bind_ok h
  cases pure_ok h
  obtain ⟨hk', hty, hpacking⟩ := packArray_yields hp (hs.mono hk)
  refine ⟨hk.trans hk', ?_, (hcode.mono hk').append hpacking⟩
  rintro _ ⟨⟩
  exact hty

theorem lowersTyped_newObject (className : String) :
    LowersTyped cx whole (.newObject className) := by
  intro b hint st l st' hb hin hs h
  obtain ⟨i, p, cs, rfl, hcs⟩ := isExpr_iff.mp hb
  rw [toShape_node, Expr.kind, lowerExpr] at h
  obtain ⟨dst, st₁, ht, h⟩ := bind_ok h
  cases pure_ok h
  obtain ⟨hk, hty⟩ := temp_keeps ht hs
  refine ⟨hk, ?_, (ArisesAll.singleton (.other rfl)).append (.singleton (.other rfl))⟩
  rintro _ ⟨⟩
  exact hty

/-- **The code of an expression comes from the expression**, and its value has its type. -/
theorem lowerExpr_yields (cx : Context) (whole : Part) (e : Expr) : LowersTyped cx whole e := by
  induction e with
  | int n =>
    intro b hint st l st' hb hin hs h
    obtain ⟨i, p, cs, rfl, hcs⟩ := isExpr_iff.mp hb
    rw [toShape_node, Expr.kind, lowerExpr] at h
    cases pure_ok h
    exact yields_ofOperand (.inl rfl)
  | bool v =>
    intro b hint st l st' hb hin hs h
    obtain ⟨i, p, cs, rfl, hcs⟩ := isExpr_iff.mp hb
    rw [toShape_node, Expr.kind, lowerExpr] at h
    cases pure_ok h
    exact yields_ofOperand (.inr rfl)
  | var name =>
    intro b hint st l st' hb hin hs h
    obtain ⟨i, p, cs, rfl, hcs⟩ := isExpr_iff.mp hb
    rw [toShape_node, Expr.kind, lowerExpr] at h
    exact lowerName_yields h hs
  | this =>
    intro b hint st l st' hb hin hs h
    obtain ⟨i, p, cs, rfl, hcs⟩ := isExpr_iff.mp hb
    rw [toShape_node, Expr.kind, lowerExpr] at h
    cases pure_ok h
    exact yields_ofOperand (hs.receiver (.inl hin))
  | paren inner ih =>
    intro b hint st l st' hb hin hs h
    obtain ⟨i, p, cs, rfl, hcs⟩ := isExpr_iff.mp hb
    obtain ⟨c, rfl, hc⟩ := forall₂_one hcs
    rw [toShape_node, Expr.kind, List.map_cons, lowerExpr_paren] at h
    exact ih c hint st l st' hc (hin.operand (by simp [Expr.parts])) hs h
  | unary op operand ih | length operand ih | newArray operand ih =>
    intro b hint st l st' hb hin hs h
    obtain ⟨i, p, cs, rfl, hcs⟩ := isExpr_iff.mp hb
    obtain ⟨c, rfl, hc⟩ := forall₂_one hcs
    rw [toShape_node, Expr.kind, List.map_cons, lowerExpr] at h
    exact yields_of_operand ih hc hin (by simp [Expr.parts]) hs (fun _ _ => rfl) h
  | field object name ih =>
    intro b hint st l st' hb hin hs h
    obtain ⟨i, p, cs, rfl, hcs⟩ := isExpr_iff.mp hb
    obtain ⟨c, rfl, hc⟩ := forall₂_one hcs
    rw [toShape_node, Expr.kind, List.map_cons, lowerExpr, lift_bind (receiverHint_eq cx hc)] at h
    exact yields_of_operand ih hc hin (by simp [Expr.parts]) hs (fun _ _ => rfl) h
  | binary op lhs rhs ihl ihr => exact lowersTyped_binary op ihl ihr
  | call receiver method args ihr iha => exact lowersTyped_call method ihr iha
  | index array position iha ihp => exact lowersTyped_index iha ihp
  | arrayLit elements ih => exact lowersTyped_arrayLit ih
  | newObject className => exact lowersTyped_newObject className

theorem load_yields {b : Subtree} {e : Expr} {hint : ValueType} {v : Loaded} (hb : b.IsExpr e)
    (hin : (Part.expr e).Inside whole) (hs : Sound cx whole st)
    (h : load cx hint b.toShape st = .ok (v, st')) :
    YieldsOperand cx whole (cx.valueType hint e) st v st' := by
  obtain ⟨l, st₁, hl, hv⟩ := bind_ok h
  obtain ⟨rfl, rfl⟩ := loaded_ok hv
  obtain ⟨hkeeps, hoperand, hcode⟩ := lowerExpr_yields cx whole e b hint st _ _ hb hin hs hl
  exact ⟨hkeeps, (lowers_of_ok hb hl).2, hoperand _ rfl, hcode⟩

/-! ### Statements -/

/-- What holds of the code of statements. -/
structure YieldsCode (cx : Context) (whole : Part) (st : State) (code : List Instr) (st' : State) :
    Prop where
  keeps : Keeps st st'
  code : ArisesAll cx whole st' code

/-- Lowering the nodes of a statement yields code that comes from the statement. -/
def StmtLowersTyped (cx : Context) (whole : Part) (s : Stmt) : Prop :=
  ∀ (b : Subtree) (st : State) (code : List Instr) (st' : State), b.IsStmt s →
    (Part.stmt s).Inside whole → Sound cx whole st →
    lowerStmt cx b.toShape st = .ok (code, st') → YieldsCode cx whole st code st'

theorem lowerAssign_yields {target : String} {value : Expr} {b : Subtree} {code : List Instr}
    (hb : b.IsExpr value) (hin : (Part.stmt (.assign target value)).Inside whole)
    (hs : Sound cx whole st) (h : lowerAssign cx target b.toShape st = .ok (code, st')) :
    YieldsCode cx whole st code st' := by
  have hvalue : (Part.expr value).Inside whole := hin.member List.mem_cons_self
  unfold lowerAssign at h
  rcases hr : cx.resolve target with _ | ⟨_ | _ | _, symbol⟩ <;> simp only [hr] at h
  case none => exact absurd h fail_ne_ok
  all_goals
    obtain ⟨v, st₁, hv, h⟩ := bind_ok h
    cases pure_ok h
    have hloaded := load_yields hb hvalue hs hv
    have hoperand := hloaded.operand
    rw [hloaded.ty_eq] at hoperand
    refine ⟨hloaded.keeps, hloaded.code.append (.singleton ?_)⟩
  case some.field => exact .assignField hin hr hoperand
  all_goals exact .assign hin hr (by simp) hoperand

theorem lowerTarget_yields {target : String} {array : Operand} {fetch : List Instr}
    (hs : Sound cx whole st) (h : lowerTarget cx target st = .ok ((array, fetch), st')) :
    YieldsCode cx whole st fetch st' := by
  unfold lowerTarget at h
  rcases hr : cx.resolve target with _ | ⟨_ | _ | _, symbol⟩ <;> simp only [hr] at h
  case none => exact absurd h fail_ne_ok
  case some.field =>
    obtain ⟨dst, st₁, ht, h⟩ := bind_ok h
    cases pure_ok h
    exact ⟨(temp_keeps ht hs).1, .singleton (.other rfl)⟩
  all_goals
    cases pure_ok h
    exact ⟨.refl _, .nil⟩

theorem arisesAll_conditional {n : Nat} {c : Loaded} {body otherwise : List Instr}
    (hc : ArisesAll cx whole st c.code) (hb : ArisesAll cx whole st body)
    (ho : ArisesAll cx whole st otherwise) :
    ArisesAll cx whole st (conditionalCode n c body otherwise) :=
  ((((hc.append (.of_others rfl)).append hb).append (.of_others rfl)).append ho).append
    (.of_others rfl)

theorem arisesAll_loop {n : Nat} {c : Loaded} {body : List Instr}
    (hc : ArisesAll cx whole st c.code) (hb : ArisesAll cx whole st body) :
    ArisesAll cx whole st (loopCode n c body) :=
  ((((ArisesAll.of_others rfl).append hc).append (.of_others rfl)).append hb).append
    (.of_others rfl)

theorem lowerStmts_yields {ss : List Stmt} (hss : ∀ s ∈ ss, StmtLowersTyped cx whole s)
    (hin : ∀ s ∈ ss, (Part.stmt s).Inside whole) {cs : List Subtree}
    (hcs : List.Forall₂ IsStmt cs ss) {code : List Instr} (hs : Sound cx whole st)
    (h : lowerStmts cx (cs.map fun c _ => c.toShape) st = .ok (code, st')) :
    YieldsCode cx whole st code st' := by
  induction ss generalizing cs st code with
  | nil =>
    cases hcs
    cases pure_ok h
    exact ⟨.refl _, .nil⟩
  | cons s ss ih =>
    obtain ⟨c, cs, hc, hrest, rfl⟩ := List.forall₂_cons_right_iff.mp hcs
    rw [List.forall_mem_cons] at hss hin
    rw [List.map_cons, lowerStmts] at h
    obtain ⟨first, st₁, hfirst, h⟩ := bind_ok h
    obtain ⟨more, st₂, hmore, h⟩ := bind_ok h
    cases pure_ok h
    obtain ⟨hk, hcode⟩ := hss.1 c st first st₁ hc hin.1 hs hfirst
    obtain ⟨hk', hcode'⟩ := ih hss.2 hin.2 hrest (hs.mono hk) hmore
    exact ⟨hk.trans hk', (hcode.mono hk').append hcode'⟩

/-- The number and the condition of a conditional or a loop, before what follows. -/
theorem condition_yields {α : Type} {stem : String} {cond : Expr} {b : Subtree}
    {f : Nat → Loaded → Lower α} {r : α × State} (hb : b.IsExpr cond)
    (hin : (Part.expr cond).Inside whole) (hs : Sound cx whole st)
    (h : (nextNumber stem >>= fun n => load cx .boolean b.toShape >>= f n) st = .ok r) :
    ∃ n v st₁, YieldsCode cx whole st v.code st₁ ∧ Sound cx whole st₁ ∧ f n v st₁ = .ok r := by
  obtain ⟨n, st₁, hn, h⟩ := bind_ok h
  obtain ⟨v, st₂, hv, h⟩ := bind_ok h
  have hk := nextNumber_keeps hn
  have hcond := load_yields hb hin (hs.mono hk) hv
  exact ⟨n, v, st₂, ⟨hk.trans hcond.keeps, hcond.code⟩, (hs.mono hk).mono hcond.keeps, h⟩

/-- A condition and the body it guards, from whose code that of the statement is assembled. -/
theorem guardedBody_yields {stem : String} {cond : Expr} {body : Stmt} {b d : Subtree}
    (assemble : Nat → Loaded → List Instr → List Instr) {code : List Instr}
    (hb : b.IsExpr cond) (hcond : (Part.expr cond).Inside whole) (hd : d.IsStmt body)
    (hin : (Part.stmt body).Inside whole) (hbody : StmtLowersTyped cx whole body)
    (hassemble : ∀ st n v inner, ArisesAll cx whole st v.code → ArisesAll cx whole st inner →
      ArisesAll cx whole st (assemble n v inner))
    (hs : Sound cx whole st)
    (h : (nextNumber stem >>= fun n => load cx .boolean b.toShape >>= fun v =>
      lowerStmt cx d.toShape >>= fun inner => pure (assemble n v inner)) st = .ok (code, st')) :
    YieldsCode cx whole st code st' := by
  obtain ⟨n, v, st₁, ⟨hk, hcode⟩, hs₁, h⟩ := condition_yields hb hcond hs h
  obtain ⟨inner, st₂, hl, h⟩ := bind_ok h
  cases pure_ok h
  obtain ⟨hk', hinner⟩ := hbody d st₁ inner _ hd hin hs₁ hl
  exact ⟨hk.trans hk', hassemble _ n v inner (hcode.mono hk') hinner⟩

theorem stmtLowersTyped_arrayAssign (target : String) (index value : Expr) :
    StmtLowersTyped cx whole (.arrayAssign target index value) := by
  intro b st code st' hb hin hs h
  obtain ⟨i, p, cs, rfl, hcs⟩ := isStmt_iff.mp hb
  obtain ⟨c, d, rfl, hc, hd⟩ := forall₂_two hcs
  rw [toShape_node, Stmt.kind, List.map_cons, List.map_cons, lowerStmt] at h
  obtain ⟨⟨array, fetch⟩, st₁, ht, h⟩ := bind_ok h
  obtain ⟨v₁, st₂, hv₁, h⟩ := bind_ok h
  obtain ⟨v₂, st₃, hv₂, h⟩ := bind_ok h
  cases pure_ok h
  obtain ⟨hk, hfetch⟩ := lowerTarget_yields hs ht
  have hindex := load_yields hc (hin.member (by simp [Stmt.parts])) (hs.mono hk) hv₁
  have hvalue := load_yields hd (hin.member (by simp [Stmt.parts]))
    ((hs.mono hk).mono hindex.keeps) hv₂
  have hoperands := (hfetch.mono hindex.keeps).append hindex.code
  exact ⟨(hk.trans hindex.keeps).trans hvalue.keeps,
    ((hoperands.mono hvalue.keeps).append hvalue.code).append (.singleton (.other rfl))⟩

theorem stmtLowersTyped_ret (value : Option Expr) : StmtLowersTyped cx whole (.ret value) := by
  intro b st code st' hb hin hs h
  obtain ⟨i, p, cs, rfl, hcs⟩ := isStmt_iff.mp hb
  cases value with
  | none =>
    cases hcs
    rw [toShape_node, Stmt.kind, List.map_nil, lowerStmt] at h
    cases pure_ok h
    exact ⟨.refl _, .singleton (.other rfl)⟩
  | some value =>
    obtain ⟨c, rfl, hc⟩ := forall₂_one hcs
    rw [toShape_node, Stmt.kind, List.map_cons, lowerStmt] at h
    obtain ⟨v, st₁, hv, h⟩ := bind_ok h
    cases pure_ok h
    have hvalue := load_yields hc (hin.member (by simp [Stmt.parts])) hs hv
    exact ⟨hvalue.keeps, hvalue.code.append (.singleton (.other rfl))⟩

theorem stmtLowersTyped_ifThen (cond : Expr) {body : Stmt} (hbody : StmtLowersTyped cx whole body) :
    StmtLowersTyped cx whole (.ifThen cond body) := by
  intro b st code st' hb hin hs h
  obtain ⟨i, p, cs, rfl, hcs⟩ := isStmt_iff.mp hb
  obtain ⟨c, d, rfl, hc, hd⟩ := forall₂_two hcs
  rw [toShape_node, Stmt.kind, List.map_cons, List.map_cons, List.map_nil, lowerStmt] at h
  exact guardedBody_yields (fun n v inner => conditionalCode n v inner []) hc
    (hin.member (by simp [Stmt.parts])) hd (hin.member (by simp [Stmt.parts])) hbody
    (fun _ _ _ _ hcode hinner => arisesAll_conditional hcode hinner .nil) hs h

theorem stmtLowersTyped_ifElse (cond : Expr) {body otherwise : Stmt}
    (hbody : StmtLowersTyped cx whole body) (hotherwise : StmtLowersTyped cx whole otherwise) :
    StmtLowersTyped cx whole (.ifElse cond body otherwise) := by
  intro b st code st' hb hin hs h
  obtain ⟨i, p, cs, rfl, hcs⟩ := isStmt_iff.mp hb
  obtain ⟨c, d, f, rfl, hc, hd, hf⟩ := forall₂_three hcs
  rw [toShape_node, Stmt.kind, List.map_cons, List.map_cons, List.map_cons, lowerStmt] at h
  obtain ⟨n, v, st₁, ⟨hk, hcond⟩, hs₁, h⟩ :=
    condition_yields hc (hin.member (by simp [Stmt.parts])) hs h
  obtain ⟨inner, st₂, hl, h⟩ := bind_ok h
  obtain ⟨other, st₃, hl', h⟩ := bind_ok h
  cases pure_ok h
  obtain ⟨hk₂, hinner⟩ := hbody d st₁ inner st₂ hd (hin.member (by simp [Stmt.parts])) hs₁ hl
  obtain ⟨hk₃, hother⟩ := hotherwise f st₂ other _ hf (hin.member (by simp [Stmt.parts]))
    (hs₁.mono hk₂) hl'
  exact ⟨(hk.trans hk₂).trans hk₃,
    arisesAll_conditional (hcond.mono (hk₂.trans hk₃)) (hinner.mono hk₃) hother⟩

theorem stmtLowersTyped_whileDo (cond : Expr) {body : Stmt}
    (hbody : StmtLowersTyped cx whole body) : StmtLowersTyped cx whole (.whileDo cond body) := by
  intro b st code st' hb hin hs h
  obtain ⟨i, p, cs, rfl, hcs⟩ := isStmt_iff.mp hb
  obtain ⟨c, d, rfl, hc, hd⟩ := forall₂_two hcs
  rw [toShape_node, Stmt.kind, List.map_cons, List.map_cons, lowerStmt] at h
  exact guardedBody_yields loopCode hc (hin.member (by simp [Stmt.parts])) hd
    (hin.member (by simp [Stmt.parts])) hbody (fun _ _ _ _ => arisesAll_loop) hs h

/-- **The code of a statement comes from the statement.** -/
theorem lowerStmt_yields (cx : Context) (whole : Part) (s : Stmt) : StmtLowersTyped cx whole s := by
  induction s with
  | assign target value =>
    intro b st code st' hb hin hs h
    obtain ⟨i, p, cs, rfl, hcs⟩ := isStmt_iff.mp hb
    obtain ⟨c, rfl, hc⟩ := forall₂_one hcs
    rw [toShape_node, Stmt.kind, List.map_cons, lowerStmt] at h
    exact lowerAssign_yields hc hin hs h
  | arrayAssign target index value => exact stmtLowersTyped_arrayAssign target index value
  | ret value => exact stmtLowersTyped_ret value
  | ifThen cond body ih => exact stmtLowersTyped_ifThen cond ih
  | ifElse cond body otherwise ihb iho => exact stmtLowersTyped_ifElse cond ihb iho
  | whileDo cond body ih => exact stmtLowersTyped_whileDo cond ih
  | block body ih =>
    intro b st code st' hb hin hs h
    obtain ⟨i, p, cs, rfl, hcs⟩ := isStmt_iff.mp hb
    rw [toShape_node, Stmt.kind, lowerStmt_block] at h
    rw [Stmt.parts, List.forall₂_map_right_iff] at hcs
    exact lowerStmts_yields ih (fun s hs => hin.member (List.mem_map_of_mem hs)) hcs hs h
  | expr value =>
    intro b st code st' hb hin hs h
    obtain ⟨i, p, cs, rfl, hcs⟩ := isStmt_iff.mp hb
    obtain ⟨c, rfl, hc⟩ := forall₂_one hcs
    rw [toShape_node, Stmt.kind, List.map_cons, lowerStmt] at h
    obtain ⟨l, st₁, hl, h⟩ := bind_ok h
    cases pure_ok h
    obtain ⟨hk, -, hcode⟩ := lowerExpr_yields cx whole value c .void st l _ hc
      (hin.member (by simp [Stmt.parts])) hs hl
    exact ⟨hk, hcode⟩

theorem lowerBody_yields {parts : List Part} (hin : ∀ part ∈ parts, part.Inside whole)
    {cs : List Subtree} (hcs : List.Forall₂ Reads cs parts) {code : List Instr}
    (hs : Sound cx whole st) (h : lowerBody cx (cs.map fun c _ => c.toShape) st = .ok (code, st')) :
    YieldsCode cx whole st code st' := by
  induction hcs generalizing st code with
  | nil =>
    cases pure_ok h
    exact ⟨.refl _, .nil⟩
  | @cons c part cs parts hc _ ih =>
    rw [List.forall_mem_cons] at hin
    rw [List.map_cons, lowerBody, lift_bind hc.kind_toShape, part.isStatement_kind] at h
    cases hstmt : part.stmt? with
    | none =>
      rw [hstmt] at h
      obtain ⟨none, st₁, hnone, h⟩ := bind_ok h
      cases pure_ok hnone
      obtain ⟨more, st₂, hmore, h⟩ := bind_ok h
      cases pure_ok h
      exact ih hin.2 hs hmore
    | some s =>
      obtain rfl := Part.stmt?_eq_some.mp hstmt
      obtain ⟨first, st₁, hfirst, h⟩ := bind_ok h
      obtain ⟨more, st₂, hmore, h⟩ := bind_ok h
      cases pure_ok h
      obtain ⟨hk, hcode⟩ := lowerStmt_yields cx whole s c st first st₁ hc hin.1 hs hfirst
      obtain ⟨hk', hcode'⟩ := ih hin.2 (hs.mono hk) hmore
      exact ⟨hk.trans hk', (hcode.mono hk').append hcode'⟩

/-! ### Methods and classes -/

/-- What holds of the code of a method, in the state in which lowering has left the variables: it
comes from the method, and its variables are in the table. -/
structure TypedCode (cx : Context) (m : MethodDecl) (method : MethodCode) (final : State) :
    Prop where
  vars_eq : final.vars = method.vars
  sound : Sound cx (.method m) final
  arises : ArisesAll cx (.method m) final method.instructions
  mem_names : ∀ i ∈ method.instructions, ∀ x ∈ i.vars, x ∈ method.vars.names

/-- **The code of a method comes from the method.** -/
theorem lowerMethod_typed {m : MethodDecl} {cs : List Subtree} {method : MethodCode}
    (hthis : cx.Undisputed (.method m)) (hcs : List.Forall₂ Reads cs m.parts)
    (h : lowerMethod cx (cs.map fun c _ => c.toShape) = .ok method) :
    ∃ final, TypedCode cx m method final := by
  obtain ⟨code, final, hbody, rfl, hverify⟩ := lowerMethod_ok h
  have hstart := sound_start hthis
  obtain ⟨hk, hcode⟩ := lowerBody_yields (fun part hp => .of_mem hp) hcs hstart hbody
  refine ⟨final, rfl, hstart.mono hk, ?_,
    fun i hi x hx => Registers.mem_names_of_verifyVars hverify hi hx⟩
  rw [Context.methodCode]
  rcases endWithReturn_cases (.ofTy cx.signature.returnType) code with ⟨heq, -⟩ | ⟨heq, -⟩
  · rw [heq]
    exact hcode
  · rw [heq]
    exact hcode.append (.singleton (.other rfl))

/-- **The code of a class comes from its methods**, each with its own signature. -/
theorem lower_typed {t : Tree} {b : Subtree} {imports : List String} {c : ClassDecl}
    {code : ClassCode} (h : t.Pictures ⟨imports, [c]⟩ b)
    (hthis : ∀ m ∈ c.methods, Context.Undisputed ⟨.ofDecls imports c, .ofDecl m⟩ (.method m))
    (hl : t.lower (.ofDecls imports c) = .ok code) :
    ∀ method ∈ code.methods, ∃ m ∈ c.methods, ∃ final,
      TypedCode ⟨.ofDecls imports c, .ofDecl m⟩ m method final := by
  intro method hmethod
  obtain ⟨q, hq, cs, hcs, hlower⟩ :=
    exists_of_mem_lower h (namedAlike_ofDecl c.methods) hl method hmethod
  obtain ⟨hm, hs⟩ := mem_zip_ofDecl.mp hq
  rw [hs] at hlower
  exact ⟨q.2, hm, lowerMethod_typed (hthis q.2 hm) hcs hlower⟩

namespace TypedCode

variable {m : MethodDecl} {method : MethodCode} (h : TypedCode cx m method st)
include h

theorem ty?_eq {i : Instr} (hi : i ∈ method.instructions) {x : String} (hx : x ∈ i.vars)
    {ty : ValueType} (hty : HasType st x ty) : method.vars.ty? x = some ty := by
  rw [← h.vars_eq]
  exact hty.ty?_eq (h.vars_eq ▸ h.mem_names i hi x hx)

end TypedCode

end Classlet.Lowering

namespace Classlet.Ir.Instr

theorem mem_vars_of_use {i : Instr} {x : String} (h : .var x ∈ i.uses) : x ∈ i.vars := by
  rw [vars, List.mem_eraseDups, List.mem_append]
  exact .inr (List.mem_filterMap.mpr ⟨_, h, rfl⟩)

theorem mem_vars_of_def {i : Instr} {x : String} (h : i.def? = some x) : x ∈ i.vars := by
  rw [vars, List.mem_eraseDups, List.mem_append, h]
  exact .inl (by simp)

end Classlet.Ir.Instr
