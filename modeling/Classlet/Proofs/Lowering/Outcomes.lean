import Classlet.Proofs.Analysis.Typing
import Classlet.Proofs.Ir.VarTable
import Classlet.Proofs.Lowering.Expressions
import Classlet.Proofs.Syntax.Inside

/-!
# When lowering succeeds

Whether a body can be lowered does not depend on the names given out so far.  It can if every name
that is read stands for a variable or is the receiver's, every name that is assigned stands for a
variable, and every operand has a value: `Context.lowers` and `Context.lowersStmt` decide this.

`Ends` states both outcomes of a step of lowering at once.  A step that fails does so because of a
name that is not readable or an operand without a value (`Context.Defect`); the code of a step that
succeeds uses only variables of the table and names that the body itself uses (`Covered`).
-/

namespace Classlet.Lowering

open Classlet.Ir Classlet.Semantics Subtree

/-! ### What has to hold -/

namespace Context

/-- The name is that of a variable or of the receiver. -/
def isReadable (cx : Context) (name : String) : Bool := (cx.resolve name).isSome || name == thisName

/-- The expression has a value where `hint` is expected: it is not a call that returns nothing. -/
def hasValue (cx : Context) (hint : ValueType) : Expr → Bool
  | .call receiver method args => !(cx.valueType hint (.call receiver method args)).isVoid
  | .paren inner => cx.hasValue hint inner
  | _ => true

/-- The type expected of the left operand of an operator. -/
def leftHint (cx : Context) (op : BinaryOp) (rhs : Expr) : ValueType :=
  (operandHint? op).getD (((rhs.typeOf cx.scope).known?.map ValueType.ofTy).getD .int)

/-- The type expected of the right operand of an operator. -/
def rightHint (cx : Context) (op : BinaryOp) (lhs rhs : Expr) : ValueType :=
  (operandHint? op).getD (cx.valueType (cx.leftHint op rhs) lhs)

mutual

/-- The expression can be lowered. -/
def lowers (cx : Context) : Expr → Bool
  | .int _ | .bool _ | .newObject _ | .this => true
  | .var name => cx.isReadable name
  | .binary op lhs rhs =>
    (lowers cx lhs && cx.hasValue (cx.leftHint op rhs) lhs)
      && (lowers cx rhs && cx.hasValue (cx.rightHint op lhs rhs) rhs)
  | .unary op operand => lowers cx operand && cx.hasValue (unaryType op) operand
  | .call receiver method args =>
    match importName? cx receiver with
    | some _ => loadsAll cx [] args
    | none =>
      (lowers cx receiver && cx.hasValue (cx.expected receiver) receiver)
        && loadsAll cx (argumentHints (cx.declaredOn? (cx.receiverType receiver) method)) args
  | .field object _ => lowers cx object && cx.hasValue (cx.expected object) object
  | .index array position =>
    (lowers cx array && cx.hasValue .intArray array)
      && (lowers cx position && cx.hasValue .int position)
  | .length array => lowers cx array && cx.hasValue .intArray array
  | .newArray size => lowers cx size && cx.hasValue .int size
  | .arrayLit elements => loadsAll cx [] elements
  | .paren inner => lowers cx inner

/-- The expressions can be lowered and have values, each where its hint is expected. -/
def loadsAll (cx : Context) : List ValueType → List Expr → Bool
  | _, [] => true
  | hints, e :: rest =>
    (lowers cx e && cx.hasValue (hints.head?.getD .int) e) && loadsAll cx hints.tail rest

end

/-- The expression can be lowered and has a value where `hint` is expected. -/
def loads (cx : Context) (hint : ValueType) (e : Expr) : Bool := cx.lowers e && cx.hasValue hint e

mutual

/-- The statement can be lowered. -/
def lowersStmt (cx : Context) : Stmt → Bool
  | .assign target value =>
    match cx.resolve target with
    | some (_, symbol) => cx.loads (.ofTy symbol.ty) value
    | none => false
  | .arrayAssign target index value =>
    (cx.resolve target).isSome && (cx.loads .int index && cx.loads .int value)
  | .ret none => true
  | .ret (some value) => cx.loads (.ofTy cx.signature.returnType) value
  | .ifThen cond body => cx.loads .boolean cond && lowersStmt cx body
  | .ifElse cond body otherwise =>
    cx.loads .boolean cond && (lowersStmt cx body && lowersStmt cx otherwise)
  | .whileDo cond body => cx.loads .boolean cond && lowersStmt cx body
  | .block body => lowersBody cx body
  | .expr value => cx.lowers value

/-- The statements can be lowered. -/
def lowersBody (cx : Context) : List Stmt → Bool
  | [] => true
  | s :: rest => lowersStmt cx s && lowersBody cx rest

end

/-- A reason why the body of `whole` cannot be lowered. -/
inductive Defect (cx : Context) (whole : Part) : Error → Prop where
  | read {name : String} (hin : (Part.expr (.var name)).Inside whole)
      (hname : cx.isReadable name = false) : Defect cx whole (cx.unresolved name)
  | assigned {s : Stmt} {target : String} (hin : (Part.stmt s).Inside whole)
      (hkind : s.kind = .assign target ∨ s.kind = .arrayAssign target)
      (hname : cx.resolve target = none) : Defect cx whole (cx.unresolved target)
  | noValue (node : NodeId) :
      Defect cx whole (.malformedTree node "void value used as an operand")

/-- A node of the kind uses the variable in the code. -/
def uses (cx : Context) (k : Kind) (x : String) : Prop :=
  match k with
  | .this => x = thisName
  | .varRef name | .assign name | .arrayAssign name =>
    match cx.resolve name with
    | some (.field, _) => x = thisName
    | some _ => x = name
    | none => name = thisName ∧ x = thisName
  | _ => False

end Context

/-! ### Variables of the code -/

section Covered

variable {cx : Context} {whole : Part} {st st' : State}

/-- The variable is in the table, or a part of `whole` uses it. -/
def Covered (cx : Context) (whole : Part) (st : State) (x : String) : Prop :=
  x ∈ st.vars.names ∨ ∃ part : Part, part.Inside whole ∧ cx.uses part.kind x

/-- The variable of an operand is covered. -/
def CoveredOperand (cx : Context) (whole : Part) (st : State) (o : Operand) : Prop :=
  ∀ x, o.var? = some x → Covered cx whole st x

/-- The variables of some code are covered. -/
def CoveredCode (cx : Context) (whole : Part) (st : State) (code : List Instr) : Prop :=
  ∀ i ∈ code, ∀ x ∈ i.vars, Covered cx whole st x

/-- The table keeps its variables. -/
def Grows (st st' : State) : Prop := st.vars.names ⊆ st'.vars.names

theorem Grows.refl (st : State) : Grows st st := fun _ h => h

theorem Grows.trans {st₁ st₂ st₃ : State} (h : Grows st₁ st₂) (h' : Grows st₂ st₃) :
    Grows st₁ st₃ := fun _ hx => h' (h hx)

theorem Covered.mono {x : String} (h : Covered cx whole st x) (hg : Grows st st') :
    Covered cx whole st' x := h.imp_left fun hx => hg hx

theorem CoveredOperand.mono {o : Operand} (h : CoveredOperand cx whole st o) (hg : Grows st st') :
    CoveredOperand cx whole st' o := fun x hx => (h x hx).mono hg

theorem CoveredCode.mono {code : List Instr} (h : CoveredCode cx whole st code)
    (hg : Grows st st') : CoveredCode cx whole st' code := fun i hi x hx => (h i hi x hx).mono hg

theorem CoveredCode.nil : CoveredCode cx whole st [] := fun _ hi => by cases hi

theorem CoveredCode.append {code more : List Instr} (h : CoveredCode cx whole st code)
    (h' : CoveredCode cx whole st more) : CoveredCode cx whole st (code ++ more) := by
  intro i hi
  rcases List.mem_append.mp hi with hi | hi
  · exact h i hi
  · exact h' i hi

theorem CoveredCode.instr {i : Instr} (hd : ∀ dst, i.def? = some dst → Covered cx whole st dst)
    (hu : ∀ o ∈ i.uses, CoveredOperand cx whole st o) : CoveredCode cx whole st [i] := by
  intro j hj x hx
  cases List.mem_singleton.mp hj
  rw [Instr.vars, List.mem_eraseDups, List.mem_append, Option.mem_toList, List.mem_filterMap] at hx
  rcases hx with hx | ⟨o, ho, hx⟩
  · exact hd x hx
  · exact hu o ho x hx

theorem CoveredOperand.var {x : String} (h : Covered cx whole st x) :
    CoveredOperand cx whole st (.var x) := by
  rintro _ ⟨⟩
  exact h

theorem CoveredOperand.const (n : Int32) : CoveredOperand cx whole st (.const n) := by
  rintro _ ⟨⟩

end Covered

/-! ### Both outcomes of a step -/

section Ends

variable {α β : Type} {st st' : State} {g g' : Bool} {bad : Error → Prop}

/-- The step succeeds with `post` if `good`, and else fails with an error in `bad`. -/
def Ends (x : Lower α) (st : State) (good : Bool) (post : α → State → Prop) (bad : Error → Prop) :
    Prop :=
  match good with
  | true => ∃ a st', x st = .ok (a, st') ∧ post a st'
  | false => ∃ e, x st = .error (.error e) ∧ bad e

namespace Ends

variable {x : Lower α} {post : α → State → Prop} {post' : β → State → Prop}

theorem pure {a : α} (h : post a st) : Ends (Pure.pure a) st true post bad := ⟨a, st, rfl, h⟩

theorem fail {e : Error} (h : bad e) : Ends (Lower.fail e) st false post bad := ⟨e, rfl, h⟩

theorem bind {f : α → Lower β} (h : Ends x st g post bad)
    (hf : ∀ a st', post a st' → Ends (f a) st' g' post' bad) :
    Ends (x >>= f) st (g && g') post' bad := by
  have hbind : (x >>= f) st = (x st).bind fun p => f p.1 p.2 := rfl
  cases g with
  | true =>
    obtain ⟨a, st', hx, ha⟩ := h
    have hnext := hf a st' ha
    rw [Bool.true_and]
    unfold Ends at hnext ⊢
    rwa [hbind, hx]
  | false =>
    obtain ⟨e, hx, he⟩ := h
    exact ⟨e, by rw [hbind, hx]; rfl, he⟩

theorem before {f : α → Lower β} (h : Ends x st true post bad)
    (hf : ∀ a st', post a st' → Ends (f a) st' g' post' bad) : Ends (x >>= f) st g' post' bad := by
  have hboth := h.bind hf
  rwa [Bool.true_and] at hboth

theorem after {f : α → Lower β} (h : Ends x st g post bad)
    (hf : ∀ a st', post a st' → Ends (f a) st' true post' bad) : Ends (x >>= f) st g post' bad := by
  have hboth := h.bind hf
  rwa [Bool.and_true] at hboth

theorem of_ok {a : α} (h : Ends x st g post bad) (hx : x st = .ok (a, st')) :
    g = true ∧ post a st' := by
  cases g with
  | true =>
    obtain ⟨a', st₁, hx', ha⟩ := h
    rw [hx'] at hx
    cases hx
    exact ⟨rfl, ha⟩
  | false =>
    obtain ⟨e, he, -⟩ := h
    rw [he] at hx
    cases hx

end Ends

theorem lift_bind {x : Except Halt α} {a : α} (h : x = .ok a) (f : α → Lower β) :
    ((liftM x : Lower α) >>= f) = f a := by
  subst h
  rfl

end Ends

/-! ### Small steps -/

section Steps

variable {cx : Context} {whole : Part} {st : State} {bad : Error → Prop}

theorem temp_ends (ty : ValueType) :
    Ends (temp ty) st true (fun dst st' => Grows st st' ∧ dst ∈ st'.vars.names) bad :=
  ⟨_, _, rfl, fun _ hx => (VarTable.mem_names_insert ..).mpr (.inl hx),
    (VarTable.mem_names_insert ..).mpr (.inr rfl)⟩

theorem nextNumber_ends (stem : String) :
    Ends (nextNumber stem) st true (fun _ st' => Grows st st') bad :=
  ⟨_, _, rfl, Grows.refl st⟩

/-- What holds of a lowered expression of the given type, which may have no value. -/
structure Fits (cx : Context) (whole : Part) (ty : ValueType) (hasValue : Bool) (st : State)
    (l : Lowered) (st' : State) : Prop where
  grows : Grows st st'
  ty_eq : l.ty = ty
  isSome_value : l.value.isSome = hasValue
  operand : ∀ o, l.value = some o → CoveredOperand cx whole st' o
  code : CoveredCode cx whole st' l.code

/-- What holds of an operand of the given type. -/
structure FitsOperand (cx : Context) (whole : Part) (ty : ValueType) (st : State) (v : Loaded)
    (st' : State) : Prop where
  grows : Grows st st'
  ty_eq : v.ty = ty
  operand : CoveredOperand cx whole st' v.operand
  code : CoveredCode cx whole st' v.code

theorem fits_ofOperand {o : Operand} {ty : ValueType} (h : CoveredOperand cx whole st o) :
    Fits cx whole ty true st (.ofOperand o ty) st where
  grows := .refl st
  ty_eq := rfl
  isSome_value := rfl
  operand := by
    rintro _ ⟨⟩
    exact h
  code := .nil

theorem intoTemp_ends {st₀ : State} {ty : ValueType} {code : List Instr} {last : String → Instr}
    (hgrows : Grows st₀ st) (hcode : CoveredCode cx whole st code)
    (hdef : ∀ dst, (last dst).def? = some dst)
    (huses : ∀ dst, ∀ o ∈ (last dst).uses, CoveredOperand cx whole st o) :
    Ends (intoTemp ty code last) st true (Fits cx whole ty true st₀) bad := by
  refine (temp_ends ty).before fun dst st' ⟨hg, hdst⟩ => .pure ⟨hgrows.trans hg, rfl, rfl, ?_, ?_⟩
  · rintro _ ⟨⟩
    exact .var (.inl hdst)
  · refine (hcode.mono hg).append (.instr ?_ fun o ho => (huses dst o ho).mono hg)
    intro x hx
    rw [hdef] at hx
    cases hx
    exact .inl hdst

theorem loaded_ends {st₀ : State} {l : Lowered} {ty : ValueType} {hasValue : Bool}
    (h : Fits cx whole ty hasValue st₀ l st) (id : NodeId) :
    Ends (liftM (l.loaded id) : Lower Loaded) st hasValue (FitsOperand cx whole ty st₀)
      (cx.Defect whole) := by
  obtain ⟨hgrows, hty, hvalue, hoperand, hcode⟩ := h
  obtain ⟨value, lty, code⟩ := l
  cases value with
  | some o =>
    cases hvalue
    exact ⟨⟨o, lty, code⟩, st, rfl, hgrows, hty, hoperand o rfl, hcode⟩
  | none =>
    cases hvalue
    exact ⟨_, rfl, .noValue id⟩

/-! ### Names -/

theorem lowerName_ends {name : String} {hint : ValueType}
    (hin : (Part.expr (.var name)).Inside whole) :
    Ends (lowerName cx name) st (cx.isReadable name)
      (Fits cx whole (cx.valueType hint (.var name)) true st) (cx.Defect whole) := by
  unfold lowerName Context.valueType
  rcases hr : cx.resolve name with _ | ⟨_ | _ | _, symbol⟩ <;> simp only
  case none =>
    by_cases hn : name = thisName
    · have hgood : cx.isReadable name = true := by simp [Context.isReadable, hn]
      rw [if_pos (by simpa using hn), hgood]
      refine .pure (fits_ofOperand (.var (.inr ⟨_, hin, ?_⟩)))
      simp only [Context.uses, Part.kind, Expr.kind, hr]
      exact ⟨hn, trivial⟩
    · have hbad : cx.isReadable name = false := by simp [Context.isReadable, hn, hr]
      rw [if_neg (by simpa using hn), hbad]
      exact .fail (.read hin hbad)
  all_goals have hgood : cx.isReadable name = true := by simp [Context.isReadable, hr]
  case some.field =>
    rw [hgood]
    refine intoTemp_ends (.refl st) .nil (fun dst => rfl) fun dst o ho => ?_
    cases List.mem_singleton.mp ho
    refine .var (.inr ⟨_, hin, ?_⟩)
    simp only [Context.uses, Part.kind, Expr.kind, hr]
  all_goals
    rw [hgood]
    refine .pure (fits_ofOperand (.var (.inr ⟨_, hin, ?_⟩)))
    simp only [Context.uses, Part.kind, Expr.kind, hr]

/-! ### Arrays and calls -/

theorem coveredCode_storeElements {array : String} {os : List Operand}
    (ha : Covered cx whole st array) (ho : ∀ o ∈ os, CoveredOperand cx whole st o) (k : Nat) :
    CoveredCode cx whole st (storeElements array k os) := by
  induction os generalizing k with
  | nil => exact .nil
  | cons o os ih =>
    rw [storeElements, ← List.singleton_append]
    refine .append (.instr (by simp [Instr.def?]) ?_)
      (ih (fun o ho' => ho o (List.mem_cons_of_mem _ ho')) (k + 1))
    simp only [Instr.uses, List.forall_mem_cons, List.not_mem_nil, false_imp_iff, implies_true,
      and_true]
    exact ⟨.var ha, .const _, ho o List.mem_cons_self⟩

theorem packArray_ends {os : List Operand} (ho : ∀ o ∈ os, CoveredOperand cx whole st o) :
    Ends (packArray os) st true (fun r st' => Grows st st' ∧ Covered cx whole st' r.1 ∧
      CoveredCode cx whole st' r.2) bad := by
  refine (temp_ends _).before fun dst st' ⟨hg, hdst⟩ => .pure ⟨hg, .inl hdst, ?_⟩
  rw [← List.singleton_append]
  refine .append (.instr ?_ ?_)
    (coveredCode_storeElements (.inl hdst) (fun o h => (ho o h).mono hg) 0)
  · rintro _ ⟨⟩
    exact .inl hdst
  · simp only [Instr.uses, List.forall_mem_cons, List.not_mem_nil, false_imp_iff, implies_true,
      and_true]
    exact .const _

/-- The arguments of a call can always be packed. -/
theorem packArguments_ends (m : Option Signature) {args : List Loaded}
    (ho : ∀ v ∈ args, CoveredOperand cx whole st v.operand) :
    Ends (packArguments m args) st true (fun r st' => Grows st st' ∧
      (∀ o ∈ r.1, CoveredOperand cx whole st' o) ∧ CoveredCode cx whole st' r.2) bad := by
  have hall : ∀ o ∈ args.map (·.operand), CoveredOperand cx whole st o :=
    List.forall_mem_map.mpr ho
  cases hpacked : packedBy? m (args.map (·.ty)) with
  | none =>
    rw [packArguments_of_none hpacked]
    exact .pure ⟨.refl st, hall, .nil⟩
  | some k =>
    rw [packArguments_of_some hpacked]
    have hdrop : ∀ o ∈ (args.map (·.operand)).drop k, CoveredOperand cx whole st o := fun o h =>
      hall o (List.mem_of_mem_drop h)
    refine (packArray_ends hdrop).before fun r st' ⟨hg, ha, hc⟩ => .pure ⟨hg, ?_, hc⟩
    rw [List.forall_mem_append, List.forall_mem_singleton]
    exact ⟨fun o h => (hall o (List.mem_of_mem_take h)).mono hg, .var ha⟩

theorem uses_invoke (callee : Callee) (method : String) (dst : Option String)
    (args : List Operand) (ty : ValueType) :
    (callee.invoke method dst args ty).uses = callee.operands ++ args := by
  cases callee <;> rfl

theorem finishCall_ends {st₀ : State} (method : String) (hint : ValueType) {callee : Callee}
    {m : Option Signature} (hm : callee.signature? cx method = m) {code : List Instr}
    {args : List Loaded} (hgrows : Grows st₀ st)
    (hobjects : ∀ o ∈ callee.operands, CoveredOperand cx whole st o)
    (hcode : CoveredCode cx whole st code)
    (hargs : ∀ v ∈ args, CoveredOperand cx whole st v.operand ∧ CoveredCode cx whole st v.code) :
    Ends (finishCall cx method hint callee code args) st true
      (Fits cx whole (resultType m hint) (!(resultType m hint).isVoid) st₀) bad := by
  subst hm
  have hargsCode : CoveredCode cx whole st (codeOf args) := by
    intro i hi
    obtain ⟨v, hv, hi⟩ := List.mem_flatMap.mp hi
    exact (hargs v hv).2 i hi
  refine (packArguments_ends _ fun v hv => (hargs v hv).1).before fun r st' ⟨hg, ho, hpacking⟩ => ?_
  have huses : ∀ o ∈ callee.operands ++ r.1, CoveredOperand cx whole st' o :=
    List.forall_mem_append.mpr ⟨fun o h => (hobjects o h).mono hg, ho⟩
  have hall : CoveredCode cx whole st' (code ++ codeOf args ++ r.2) :=
    ((hcode.mono hg).append (hargsCode.mono hg)).append hpacking
  simp only
  split
  · next hvoid =>
    rw [hvoid]
    refine .pure ⟨hgrows.trans hg, rfl, rfl, by simp, hall.append (.instr ?_ ?_)⟩
    · simp [def?_invoke]
    · rwa [uses_invoke]
  · next hvoid =>
    rw [Bool.not_eq_true] at hvoid
    rw [hvoid]
    refine intoTemp_ends (hgrows.trans hg) hall (fun dst => def?_invoke ..) fun dst => ?_
    rwa [uses_invoke]

end Steps

/-! ### Expressions -/

section Expressions

variable {cx : Context} {whole : Part}

/-- Lowering the nodes of an expression ends as `lowers` says. -/
def LowersAsSaid (cx : Context) (whole : Part) (e : Expr) : Prop :=
  ∀ (b : Subtree) (hint : ValueType) (st : State), b.IsExpr e → (Part.expr e).Inside whole →
    Ends (lowerExpr cx hint b.toShape) st (cx.lowers e)
      (Fits cx whole (cx.valueType hint e) (cx.hasValue hint e) st) (cx.Defect whole)

theorem LowersAsSaid.load {α : Type} {e : Expr} (h : LowersAsSaid cx whole e) {b : Subtree}
    {hint : ValueType} {st : State} (hb : b.IsExpr e) (hin : (Part.expr e).Inside whole)
    {f : Loaded → Lower α} {g : Bool} {post : α → State → Prop}
    (hf : ∀ v st', FitsOperand cx whole (cx.valueType hint e) st v st' →
      Ends (f v) st' g post (cx.Defect whole)) :
    Ends (lowerExpr cx hint b.toShape >>= fun l => liftM (l.loaded b.toShape.id) >>= f) st
      ((cx.lowers e && cx.hasValue hint e) && g) post (cx.Defect whole) := by
  rw [Bool.and_assoc]
  exact (h b hint st hb hin).bind fun l st' hl => (loaded_ends hl _).bind hf

theorem LowersAsSaid.load_last {α : Type} {e : Expr} (h : LowersAsSaid cx whole e) {b : Subtree}
    {hint : ValueType} {st : State} (hb : b.IsExpr e) (hin : (Part.expr e).Inside whole)
    {f : Loaded → Lower α} {post : α → State → Prop}
    (hf : ∀ v st', FitsOperand cx whole (cx.valueType hint e) st v st' →
      Ends (f v) st' true post (cx.Defect whole)) :
    Ends (lowerExpr cx hint b.toShape >>= fun l => liftM (l.loaded b.toShape.id) >>= f) st
      (cx.lowers e && cx.hasValue hint e) post (cx.Defect whole) := by
  have hload := h.load hb hin hf
  rwa [Bool.and_true] at hload

theorem lowerArgs_ends {es : List Expr} (hes : ∀ e ∈ es, LowersAsSaid cx whole e)
    (hin : ∀ e ∈ es, (Part.expr e).Inside whole) {cs : List Subtree}
    (hcs : List.Forall₂ IsExpr cs es) {hints : List ValueType} {st : State} :
    Ends (lowerArgs cx hints (cs.map fun c _ => c.toShape)) st (cx.loadsAll hints es)
      (fun args st' => Grows st st' ∧ args.map (·.ty) = cx.valueTypes hints es ∧ ∀ v ∈ args,
        CoveredOperand cx whole st' v.operand ∧ CoveredCode cx whole st' v.code)
      (cx.Defect whole) := by
  induction es generalizing cs hints st with
  | nil =>
    cases hcs
    exact .pure ⟨.refl st, rfl, by simp⟩
  | cons e es ih =>
    obtain ⟨c, cs, hc, hrest, rfl⟩ := List.forall₂_cons_right_iff.mp hcs
    rw [List.forall_mem_cons] at hes hin
    rw [List.map_cons, lowerArgs, Context.loadsAll]
    refine hes.1.load hc hin.1 fun v st₁ hv => ?_
    refine (ih hes.2 hin.2 hrest).after fun args st₂ hall => ?_
    obtain ⟨hg, htys, hargs⟩ := hall
    refine .pure ⟨hv.grows.trans hg, ?_, ?_⟩
    · rw [List.map_cons, htys, hv.ty_eq, Context.valueTypes]
    · rw [List.forall_mem_cons]
      exact ⟨⟨hv.operand.mono hg, hv.code.mono hg⟩, hargs⟩

theorem staticType?_eq {b : Subtree} {e : Expr} (h : b.IsExpr e) :
    cx.staticType? b.toShape = .ok ((e.typeOf cx.scope).known?.map ValueType.ofTy) := by
  rw [Context.staticType?, Shape.typeOf_ok h]
  rfl

theorem lowerExpr_binary {op : BinaryOp} {rhs : Expr} {bl br : Subtree}
    (hbr : br.IsExpr rhs) (hint : ValueType) (i : NodeId) (p : Position) :
    lowerExpr cx hint (node i (.binary op) p [bl, br]).toShape
      = (lowerExpr cx (cx.leftHint op rhs) bl.toShape >>= fun l => liftM (l.loaded bl.toShape.id)
        >>= fun l => lowerExpr cx ((operandHint? op).getD l.ty) br.toShape
        >>= fun r => liftM (r.loaded br.toShape.id)
        >>= fun r => intoTemp (binaryType op) (l.code ++ r.code)
          fun dst => .binary dst op l.operand r.operand) := by
  rw [toShape_node, List.map_cons, List.map_cons, List.map_nil, lowerExpr, Context.leftHint]
  cases operandHint? op with
  | some ty => rfl
  | none =>
    rw [staticType?_eq hbr]
    rfl

theorem lowersAsSaid_binary (op : BinaryOp) {lhs rhs : Expr} (hl : LowersAsSaid cx whole lhs)
    (hr : LowersAsSaid cx whole rhs) : LowersAsSaid cx whole (.binary op lhs rhs) := by
  intro b hint st hb hin
  obtain ⟨i, p, cs, rfl, hcs⟩ := isExpr_iff.mp hb
  obtain ⟨bl, br, rfl, hbl, hbr⟩ := forall₂_two hcs
  rw [Expr.kind, lowerExpr_binary hbr, Context.lowers]
  refine hl.load hbl (hin.operand (by simp [Expr.parts])) fun l st₁ hl => ?_
  have hhint : (operandHint? op).getD l.ty = cx.rightHint op lhs rhs := by
    rw [hl.ty_eq, Context.rightHint]
  rw [hhint]
  refine hr.load_last hbr (hin.operand (by simp [Expr.parts])) fun r st₂ hr => ?_
  refine intoTemp_ends (hl.grows.trans hr.grows) ((hl.code.mono hr.grows).append hr.code)
    (fun dst => rfl) fun dst => ?_
  simp only [Instr.uses, List.forall_mem_cons, List.not_mem_nil, false_imp_iff, implies_true,
    and_true]
  exact ⟨hl.operand.mono hr.grows, hr.operand⟩

/-- An expression of one operand, computed by one instruction. -/
theorem ends_of_operand {e operand : Expr} {b : Subtree} {hint ty : ValueType} {st : State}
    (h : LowersAsSaid cx whole operand) (hb : b.IsExpr operand)
    (hin : (Part.expr e).Inside whole) (hpart : operand ∈ e.parts)
    {resultTy : Loaded → ValueType}
    (hty : ∀ v : Loaded, v.ty = cx.valueType hint operand → resultTy v = ty)
    {last : Loaded → String → Instr} (hdef : ∀ v dst, (last v dst).def? = some dst)
    (huses : ∀ v dst, (last v dst).uses = [v.operand]) :
    Ends (lowerExpr cx hint b.toShape >>= fun l => liftM (l.loaded b.toShape.id) >>= fun v =>
        intoTemp (resultTy v) v.code (last v)) st
      (cx.lowers operand && cx.hasValue hint operand) (Fits cx whole ty true st)
      (cx.Defect whole) := by
  refine h.load_last hb (hin.operand hpart) fun v st₁ hv => ?_
  rw [hty v hv.ty_eq]
  refine intoTemp_ends hv.grows hv.code (hdef v) fun dst => ?_
  rw [huses, List.forall_mem_singleton]
  exact hv.operand

theorem lowersAsSaid_call (method : String) {receiver : Expr} {args : List Expr}
    (hr : LowersAsSaid cx whole receiver) (ha : ∀ e ∈ args, LowersAsSaid cx whole e) :
    LowersAsSaid cx whole (.call receiver method args) := by
  intro b hint st hb hin
  obtain ⟨i, p, cs, rfl, hcs⟩ := isExpr_iff.mp hb
  obtain ⟨c, ds, hc, hds, rfl⟩ := List.forall₂_cons_right_iff.mp hcs
  have hinArgs : ∀ e ∈ args, (Part.expr e).Inside whole := fun e he =>
    hin.operand (List.mem_cons_of_mem _ he)
  rw [toShape_node, Expr.kind, List.map_cons, lowerExpr, lift_bind (importedReceiver?_eq cx hc),
    Context.lowers, Context.hasValue, Context.valueType]
  cases importName? cx receiver with
  | some className =>
    refine (lowerArgs_ends ha hinArgs hds).after fun loaded st₁ hall => ?_
    obtain ⟨hg, -, hloaded⟩ := hall
    exact finishCall_ends method hint rfl hg (by simp [Callee.operands]) .nil hloaded
  | none =>
    rw [lift_bind (receiverHint_eq cx hc)]
    refine hr.load hc (hin.operand List.mem_cons_self) fun v st₁ hv => ?_
    have hsig : Callee.signature? cx method (.virtual v.operand (ownerName v.ty))
        = cx.declaredOn? (cx.receiverType receiver) method := by
      rw [Callee.signature?, Context.declaredOn?, hv.ty_eq, Context.receiverType]
    simp only [hsig]
    refine (lowerArgs_ends ha hinArgs hds).after fun loaded st₂ hall => ?_
    obtain ⟨hg, -, hloaded⟩ := hall
    refine finishCall_ends method hint hsig (hv.grows.trans hg) ?_ (hv.code.mono hg) hloaded
    rw [Callee.operands, List.forall_mem_singleton]
    exact hv.operand.mono hg

theorem lowersAsSaid_index {array position : Expr} (ha : LowersAsSaid cx whole array)
    (hp : LowersAsSaid cx whole position) : LowersAsSaid cx whole (.index array position) := by
  intro b hint st hb hin
  obtain ⟨i, p, cs, rfl, hcs⟩ := isExpr_iff.mp hb
  obtain ⟨ba, bp, rfl, hba, hbp⟩ := forall₂_two hcs
  rw [toShape_node, Expr.kind, List.map_cons, List.map_cons, lowerExpr, Context.lowers]
  refine ha.load hba (hin.operand (by simp [Expr.parts])) fun a st₁ ha => ?_
  refine hp.load_last hbp (hin.operand (by simp [Expr.parts])) fun n st₂ hn => ?_
  rw [ha.ty_eq]
  refine intoTemp_ends (ha.grows.trans hn.grows) ((ha.code.mono hn.grows).append hn.code)
    (fun dst => rfl) fun dst => ?_
  simp only [Instr.uses, List.forall_mem_cons, List.not_mem_nil, false_imp_iff, implies_true,
    and_true]
  exact ⟨ha.operand.mono hn.grows, hn.operand⟩

theorem lowersAsSaid_arrayLit {elements : List Expr}
    (he : ∀ e ∈ elements, LowersAsSaid cx whole e) :
    LowersAsSaid cx whole (.arrayLit elements) := by
  intro b hint st hb hin
  obtain ⟨i, p, cs, rfl, hcs⟩ := isExpr_iff.mp hb
  rw [toShape_node, Expr.kind, lowerExpr, Context.lowers]
  refine (lowerArgs_ends he (fun e h => hin.operand h) hcs).after fun loaded st₁ hall => ?_
  obtain ⟨hg, -, hloaded⟩ := hall
  refine (packArray_ends (List.forall_mem_map.mpr fun v hv => (hloaded v hv).1)).before
    fun r st₂ hpacked => ?_
  obtain ⟨hg', ha, hc⟩ := hpacked
  refine .pure ⟨hg.trans hg', rfl, rfl, ?_, .append ?_ hc⟩
  · rintro _ ⟨⟩
    exact .var ha
  · intro i hi
    obtain ⟨v, hv, hi⟩ := List.mem_flatMap.mp hi
    exact (hloaded v hv).2.mono hg' i hi

theorem lowersAsSaid_newObject (className : String) :
    LowersAsSaid cx whole (.newObject className) := by
  intro b hint st hb hin
  obtain ⟨i, p, cs, rfl, hcs⟩ := isExpr_iff.mp hb
  rw [toShape_node, Expr.kind, lowerExpr, Context.lowers]
  refine (temp_ends _).before fun dst st₁ htemp => ?_
  obtain ⟨hg, hdst⟩ := htemp
  refine .pure ⟨hg, rfl, rfl, ?_, ?_⟩
  · rintro _ ⟨⟩
    exact .var (.inl hdst)
  · rw [← List.singleton_append]
    refine .append (.instr ?_ (by simp [Instr.uses])) (.instr (by simp [Instr.def?]) ?_)
    · rintro _ ⟨⟩
      exact .inl hdst
    · rw [Instr.uses, List.forall_mem_singleton]
      exact .var (.inl hdst)

/-- **Lowering an expression ends as `lowers` says**, with the type that `valueType` says. -/
theorem lowerExpr_ends (cx : Context) (whole : Part) (e : Expr) : LowersAsSaid cx whole e := by
  induction e with
  | int n | bool v =>
    intro b hint st hb hin
    obtain ⟨i, p, cs, rfl, hcs⟩ := isExpr_iff.mp hb
    rw [toShape_node, Expr.kind, lowerExpr, Context.lowers]
    exact .pure (fits_ofOperand (.const _))
  | var name =>
    intro b hint st hb hin
    obtain ⟨i, p, cs, rfl, hcs⟩ := isExpr_iff.mp hb
    rw [toShape_node, Expr.kind, lowerExpr, Context.lowers]
    exact lowerName_ends hin
  | this =>
    intro b hint st hb hin
    obtain ⟨i, p, cs, rfl, hcs⟩ := isExpr_iff.mp hb
    rw [toShape_node, Expr.kind, lowerExpr, Context.lowers]
    exact .pure (fits_ofOperand (.var (.inr ⟨_, hin, rfl⟩)))
  | paren inner ih =>
    intro b hint st hb hin
    obtain ⟨i, p, cs, rfl, hcs⟩ := isExpr_iff.mp hb
    obtain ⟨c, rfl, hc⟩ := forall₂_one hcs
    rw [toShape_node, Expr.kind, List.map_cons, lowerExpr_paren, Context.lowers]
    exact ih c hint st hc (hin.operand (by simp [Expr.parts]))
  | unary op operand ih =>
    intro b hint st hb hin
    obtain ⟨i, p, cs, rfl, hcs⟩ := isExpr_iff.mp hb
    obtain ⟨c, rfl, hc⟩ := forall₂_one hcs
    rw [toShape_node, Expr.kind, List.map_cons, lowerExpr, Context.lowers]
    exact ends_of_operand ih hc hin (by simp [Expr.parts]) (fun _ _ => rfl) (fun _ _ => rfl)
      fun _ _ => rfl
  | field object name ih =>
    intro b hint st hb hin
    obtain ⟨i, p, cs, rfl, hcs⟩ := isExpr_iff.mp hb
    obtain ⟨c, rfl, hc⟩ := forall₂_one hcs
    rw [toShape_node, Expr.kind, List.map_cons, lowerExpr, lift_bind (receiverHint_eq cx hc),
      Context.lowers, Context.valueType]
    exact ends_of_operand ih hc hin (by simp [Expr.parts])
      (fun v hv => congrArg (fieldType cx name · hint) hv) (fun _ _ => rfl) fun _ _ => rfl
  | length array ih =>
    intro b hint st hb hin
    obtain ⟨i, p, cs, rfl, hcs⟩ := isExpr_iff.mp hb
    obtain ⟨c, rfl, hc⟩ := forall₂_one hcs
    rw [toShape_node, Expr.kind, List.map_cons, lowerExpr, Context.lowers]
    exact ends_of_operand ih hc hin (by simp [Expr.parts]) (fun _ _ => rfl) (fun _ _ => rfl)
      fun _ _ => rfl
  | newArray size ih =>
    intro b hint st hb hin
    obtain ⟨i, p, cs, rfl, hcs⟩ := isExpr_iff.mp hb
    obtain ⟨c, rfl, hc⟩ := forall₂_one hcs
    rw [toShape_node, Expr.kind, List.map_cons, lowerExpr, Context.lowers]
    exact ends_of_operand ih hc hin (by simp [Expr.parts]) (fun _ _ => rfl) (fun _ _ => rfl)
      fun _ _ => rfl
  | binary op lhs rhs ihl ihr => exact lowersAsSaid_binary op ihl ihr
  | call receiver method args ihr iha => exact lowersAsSaid_call method ihr iha
  | index array position iha ihp => exact lowersAsSaid_index iha ihp
  | arrayLit elements ih => exact lowersAsSaid_arrayLit ih
  | newObject className => exact lowersAsSaid_newObject className

theorem load_ends {b : Subtree} {e : Expr} (hb : b.IsExpr e) (hin : (Part.expr e).Inside whole)
    (hint : ValueType) (st : State) :
    Ends (load cx hint b.toShape) st (cx.loads hint e)
      (FitsOperand cx whole (cx.valueType hint e) st) (cx.Defect whole) :=
  (lowerExpr_ends cx whole e b hint st hb hin).bind fun _ _ hl => loaded_ends hl _

end Expressions

end Classlet.Lowering
