import Classlet.Proofs.Lowering.Meaning
import Classlet.Proofs.Lowering.Outcomes
import Classlet.Proofs.Symbols.Declarations

/-!
# When methods and classes can be lowered

The outcomes of lowering, from statements up to the tree of a program.

* `lowerMethod_cases`: a method is lowered, or its body has a defect, or the method is static and
  its body uses the receiver.
* `lower_cases`: the class of a pictured program is lowered, or the first method that is not gives
  the reason.
-/

namespace Classlet.Lowering

open Classlet.Ir Classlet.Semantics Subtree

/-! ### Statements -/

section Statements

variable {cx : Context} {whole : Part}

/-- What holds of the code of statements. -/
def FitsCode (cx : Context) (whole : Part) (st : State) (code : List Instr) (st' : State) : Prop :=
  Grows st st' ∧ CoveredCode cx whole st' code

/-- Lowering the nodes of a statement ends as `lowersStmt` says. -/
def StmtLowersAsSaid (cx : Context) (whole : Part) (s : Stmt) : Prop :=
  ∀ (b : Subtree) (st : State), b.IsStmt s → (Part.stmt s).Inside whole →
    Ends (lowerStmt cx b.toShape) st (cx.lowersStmt s) (FitsCode cx whole st) (cx.Defect whole)

theorem lowerAssign_ends {target : String} {value : Expr} {b : Subtree} {st : State}
    (hb : b.IsExpr value) (hin : (Part.stmt (.assign target value)).Inside whole) :
    Ends (lowerAssign cx target b.toShape) st (cx.lowersStmt (.assign target value))
      (FitsCode cx whole st) (cx.Defect whole) := by
  have hvalue : (Part.expr value).Inside whole := hin.member List.mem_cons_self
  unfold lowerAssign Context.lowersStmt
  rcases hr : cx.resolve target with _ | ⟨_ | _ | _, symbol⟩ <;> simp only
  case none => exact .fail (.assigned hin (.inl rfl) hr)
  case some.field =>
    refine (load_ends hb hvalue _ st).after fun v st' hv => .pure ⟨hv.grows, hv.code.append ?_⟩
    refine .instr (by simp [Instr.def?]) ?_
    simp only [Instr.uses, List.forall_mem_cons, List.not_mem_nil, false_imp_iff, implies_true,
      and_true]
    refine ⟨.var (.inr ⟨_, hin, ?_⟩), hv.operand⟩
    simp only [Context.uses, Part.kind, Stmt.kind, hr]
  all_goals
    refine (load_ends hb hvalue _ st).after fun v st' hv => .pure ⟨hv.grows, hv.code.append ?_⟩
    refine .instr ?_ ?_
    · rintro _ ⟨⟩
      refine .inr ⟨_, hin, ?_⟩
      simp only [Context.uses, Part.kind, Stmt.kind, hr]
    · rw [Instr.uses, List.forall_mem_singleton]
      exact hv.operand

theorem lowerTarget_ends {s : Stmt} {target : String} {st : State}
    (hin : (Part.stmt s).Inside whole) (hkind : s.kind = .arrayAssign target) :
    Ends (lowerTarget cx target) st (cx.resolve target).isSome
      (fun r st' => Grows st st' ∧ CoveredOperand cx whole st' r.1 ∧ CoveredCode cx whole st' r.2)
      (cx.Defect whole) := by
  unfold lowerTarget
  rcases hr : cx.resolve target with _ | ⟨_ | _ | _, symbol⟩ <;> simp only
  case none => exact .fail (.assigned hin (.inr hkind) hr)
  case some.field =>
    refine (temp_ends _).before fun dst st' ⟨hg, hdst⟩ =>
      .pure ⟨hg, .var (.inl hdst), .instr ?_ ?_⟩
    · rintro _ ⟨⟩
      exact .inl hdst
    · rw [Instr.uses, List.forall_mem_singleton]
      refine .var (.inr ⟨_, hin, ?_⟩)
      simp only [Context.uses, Part.kind, hkind, hr]
  all_goals
    refine .pure ⟨.refl st, .var (.inr ⟨_, hin, ?_⟩), .nil⟩
    simp only [Context.uses, Part.kind, hkind, hr]

theorem coveredCode_jumps {st : State} {i : Instr} (hdef : i.def? = none) (huses : i.uses = []) :
    CoveredCode cx whole st [i] :=
  .instr (by simp [hdef]) (by simp [huses])

theorem CoveredCode.cons {st : State} {i : Instr} {code : List Instr}
    (h : CoveredCode cx whole st [i]) (h' : CoveredCode cx whole st code) :
    CoveredCode cx whole st (i :: code) := h.append h'

theorem coveredCode_conditional {st : State} {n : Nat} {c : Loaded} {body otherwise : List Instr}
    (hc : CoveredOperand cx whole st c.operand) (hcode : CoveredCode cx whole st c.code)
    (hb : CoveredCode cx whole st body) (ho : CoveredCode cx whole st otherwise) :
    CoveredCode cx whole st (conditionalCode n c body otherwise) := by
  have hjump : CoveredCode cx whole st [.jumpIf c.operand ("then" ++ toString n)] := by
    refine .instr (by simp [Instr.def?]) ?_
    rw [Instr.uses, List.forall_mem_singleton]
    exact hc
  exact ((((hcode.append (.cons hjump (.cons (coveredCode_jumps rfl rfl)
    (coveredCode_jumps rfl rfl)))).append hb).append (.cons (coveredCode_jumps rfl rfl)
    (coveredCode_jumps rfl rfl))).append ho).append (coveredCode_jumps rfl rfl)

theorem coveredCode_loop {st : State} {n : Nat} {c : Loaded} {body : List Instr}
    (hc : CoveredOperand cx whole st c.operand) (hcode : CoveredCode cx whole st c.code)
    (hb : CoveredCode cx whole st body) : CoveredCode cx whole st (loopCode n c body) := by
  have hjump : CoveredCode cx whole st [.jumpIf c.operand ("whilebody" ++ toString n)] := by
    refine .instr (by simp [Instr.def?]) ?_
    rw [Instr.uses, List.forall_mem_singleton]
    exact hc
  exact ((((coveredCode_jumps rfl rfl).append hcode).append (.cons hjump
    (.cons (coveredCode_jumps rfl rfl) (coveredCode_jumps rfl rfl)))).append hb).append
    (.cons (coveredCode_jumps rfl rfl) (coveredCode_jumps rfl rfl))

theorem lowerStmts_ends {ss : List Stmt} (hs : ∀ s ∈ ss, StmtLowersAsSaid cx whole s)
    (hin : ∀ s ∈ ss, (Part.stmt s).Inside whole) {cs : List Subtree}
    (hcs : List.Forall₂ IsStmt cs ss) {st : State} :
    Ends (lowerStmts cx (cs.map fun c _ => c.toShape)) st (cx.lowersBody ss)
      (FitsCode cx whole st) (cx.Defect whole) := by
  induction ss generalizing cs st with
  | nil =>
    cases hcs
    exact .pure ⟨.refl st, .nil⟩
  | cons s ss ih =>
    obtain ⟨c, cs, hc, hrest, rfl⟩ := List.forall₂_cons_right_iff.mp hcs
    rw [List.forall_mem_cons] at hs hin
    rw [List.map_cons, lowerStmts, Context.lowersBody]
    refine (hs.1 c st hc hin.1).bind fun code st₁ hfirst => ?_
    obtain ⟨hg₁, hc₁⟩ := hfirst
    refine (ih hs.2 hin.2 hrest).after fun more st₂ hmore => ?_
    obtain ⟨hg₂, hc₂⟩ := hmore
    exact .pure ⟨hg₁.trans hg₂, (hc₁.mono hg₂).append hc₂⟩

/-- The number and the condition of a conditional or a loop, before what follows. -/
theorem condition_ends {α : Type} {stem : String} {cond : Expr} {b : Subtree} {st : State}
    {good : Bool} {post : α → State → Prop} {f : Nat → Loaded → Lower α} (hb : b.IsExpr cond)
    (hin : (Part.expr cond).Inside whole)
    (hf : ∀ n v st', FitsOperand cx whole (cx.valueType .boolean cond) st v st' →
      Ends (f n v) st' good post (cx.Defect whole)) :
    Ends (nextNumber stem >>= fun n => load cx .boolean b.toShape >>= f n) st
      (cx.loads .boolean cond && good) post (cx.Defect whole) := by
  refine (nextNumber_ends stem).before fun n st₁ hg => ?_
  exact (load_ends hb hin .boolean st₁).bind fun v st₂ hv =>
    hf n v st₂ { hv with grows := hg.trans hv.grows }

/-- A condition and the body it guards, from whose code that of the statement is assembled. -/
theorem guardedBody_ends {stem : String} {cond : Expr} {body : Stmt} {b d : Subtree} {st : State}
    (assemble : Nat → Loaded → List Instr → List Instr) (hb : b.IsExpr cond)
    (hcond : (Part.expr cond).Inside whole) (hd : d.IsStmt body)
    (hin : (Part.stmt body).Inside whole) (hbody : StmtLowersAsSaid cx whole body)
    (hassemble : ∀ st n v inner, CoveredOperand cx whole st v.operand →
      CoveredCode cx whole st v.code → CoveredCode cx whole st inner →
        CoveredCode cx whole st (assemble n v inner)) :
    Ends (nextNumber stem >>= fun n => load cx .boolean b.toShape >>= fun v =>
        lowerStmt cx d.toShape >>= fun inner => pure (assemble n v inner)) st
      (cx.loads .boolean cond && cx.lowersStmt body) (FitsCode cx whole st)
      (cx.Defect whole) := by
  refine condition_ends hb hcond fun n v st₁ hv => ?_
  refine (hbody d st₁ hd hin).after fun inner st₂ hfits => ?_
  obtain ⟨hg, hinner⟩ := hfits
  exact .pure ⟨hv.grows.trans hg,
    hassemble st₂ n v inner (hv.operand.mono hg) (hv.code.mono hg) hinner⟩

theorem stmtLowersAsSaid_arrayAssign (target : String) (index value : Expr) :
    StmtLowersAsSaid cx whole (.arrayAssign target index value) := by
  intro b st hb hin
  obtain ⟨i, p, cs, rfl, hcs⟩ := isStmt_iff.mp hb
  obtain ⟨c, d, rfl, hc, hd⟩ := forall₂_two hcs
  rw [toShape_node, Stmt.kind, List.map_cons, List.map_cons, lowerStmt, Context.lowersStmt]
  refine (lowerTarget_ends hin rfl).bind fun fetched st₁ htarget => ?_
  obtain ⟨array, fetch⟩ := fetched
  obtain ⟨hg₁, ha, hf⟩ := htarget
  refine (load_ends hc (hin.member (by simp [Stmt.parts])) _ st₁).bind fun n st₂ hn => ?_
  refine (load_ends hd (hin.member (by simp [Stmt.parts])) _ st₂).after
    fun v st₃ hv => .pure ⟨(hg₁.trans hn.grows).trans hv.grows, ?_⟩
  refine ((((hf.mono hn.grows).append hn.code).mono hv.grows).append hv.code).append ?_
  refine .instr (by simp [Instr.def?]) ?_
  simp only [Instr.uses, List.forall_mem_cons, List.not_mem_nil, false_imp_iff, implies_true,
    and_true]
  exact ⟨ha.mono (hn.grows.trans hv.grows), hn.operand.mono hv.grows, hv.operand⟩

theorem stmtLowersAsSaid_ret (value : Option Expr) : StmtLowersAsSaid cx whole (.ret value) := by
  intro b st hb hin
  obtain ⟨i, p, cs, rfl, hcs⟩ := isStmt_iff.mp hb
  cases value with
  | none =>
    cases hcs
    rw [toShape_node, Stmt.kind, List.map_nil, lowerStmt, Context.lowersStmt]
    exact .pure ⟨.refl st, coveredCode_jumps rfl rfl⟩
  | some value =>
    obtain ⟨c, rfl, hc⟩ := forall₂_one hcs
    rw [toShape_node, Stmt.kind, List.map_cons, lowerStmt, Context.lowersStmt]
    refine (load_ends hc (hin.member (by simp [Stmt.parts])) _ st).after
      fun v st₁ hv => .pure ⟨hv.grows, hv.code.append (.instr (by simp [Instr.def?]) ?_)⟩
    rw [Instr.uses, Option.toList_some, List.forall_mem_singleton]
    exact hv.operand

theorem stmtLowersAsSaid_ifThen (cond : Expr) {body : Stmt}
    (hbody : StmtLowersAsSaid cx whole body) : StmtLowersAsSaid cx whole (.ifThen cond body) := by
  intro b st hb hin
  obtain ⟨i, p, cs, rfl, hcs⟩ := isStmt_iff.mp hb
  obtain ⟨c, d, rfl, hc, hd⟩ := forall₂_two hcs
  rw [toShape_node, Stmt.kind, List.map_cons, List.map_cons, List.map_nil, lowerStmt,
    Context.lowersStmt]
  exact guardedBody_ends (fun n v inner => conditionalCode n v inner []) hc
    (hin.member (by simp [Stmt.parts])) hd (hin.member (by simp [Stmt.parts])) hbody
    fun _ _ _ _ hv hcode hinner => coveredCode_conditional hv hcode hinner .nil

theorem stmtLowersAsSaid_ifElse (cond : Expr) {body otherwise : Stmt}
    (hbody : StmtLowersAsSaid cx whole body) (hotherwise : StmtLowersAsSaid cx whole otherwise) :
    StmtLowersAsSaid cx whole (.ifElse cond body otherwise) := by
  intro b st hb hin
  obtain ⟨i, p, cs, rfl, hcs⟩ := isStmt_iff.mp hb
  obtain ⟨c, d, f, rfl, hc, hd, hf⟩ := forall₂_three hcs
  rw [toShape_node, Stmt.kind, List.map_cons, List.map_cons, List.map_cons, lowerStmt,
    Context.lowersStmt]
  refine condition_ends hc (hin.member (by simp [Stmt.parts])) fun n v st₁ hv => ?_
  refine (hbody d st₁ hd (hin.member (by simp [Stmt.parts]))).bind fun code st₂ hfits => ?_
  obtain ⟨hg, hcode⟩ := hfits
  refine (hotherwise f st₂ hf (hin.member (by simp [Stmt.parts]))).after fun other st₃ hfits' => ?_
  obtain ⟨hg', hother⟩ := hfits'
  refine .pure ⟨(hv.grows.trans hg).trans hg', ?_⟩
  exact coveredCode_conditional (hv.operand.mono (hg.trans hg')) (hv.code.mono (hg.trans hg'))
    (hcode.mono hg') hother

theorem stmtLowersAsSaid_whileDo (cond : Expr) {body : Stmt}
    (hbody : StmtLowersAsSaid cx whole body) : StmtLowersAsSaid cx whole (.whileDo cond body) := by
  intro b st hb hin
  obtain ⟨i, p, cs, rfl, hcs⟩ := isStmt_iff.mp hb
  obtain ⟨c, d, rfl, hc, hd⟩ := forall₂_two hcs
  rw [toShape_node, Stmt.kind, List.map_cons, List.map_cons, lowerStmt, Context.lowersStmt]
  exact guardedBody_ends loopCode hc (hin.member (by simp [Stmt.parts])) hd
    (hin.member (by simp [Stmt.parts])) hbody fun _ _ _ _ => coveredCode_loop

/-- **Lowering a statement ends as `lowersStmt` says.** -/
theorem lowerStmt_ends (cx : Context) (whole : Part) (s : Stmt) : StmtLowersAsSaid cx whole s := by
  induction s with
  | assign target value =>
    intro b st hb hin
    obtain ⟨i, p, cs, rfl, hcs⟩ := isStmt_iff.mp hb
    obtain ⟨c, rfl, hc⟩ := forall₂_one hcs
    rw [toShape_node, Stmt.kind, List.map_cons, lowerStmt]
    exact lowerAssign_ends hc hin
  | arrayAssign target index value => exact stmtLowersAsSaid_arrayAssign target index value
  | ret value => exact stmtLowersAsSaid_ret value
  | ifThen cond body ih => exact stmtLowersAsSaid_ifThen cond ih
  | ifElse cond body otherwise ihb iho => exact stmtLowersAsSaid_ifElse cond ihb iho
  | whileDo cond body ih => exact stmtLowersAsSaid_whileDo cond ih
  | block body ih =>
    intro b st hb hin
    obtain ⟨i, p, cs, rfl, hcs⟩ := isStmt_iff.mp hb
    rw [toShape_node, Stmt.kind, lowerStmt_block, Context.lowersStmt]
    rw [Stmt.parts, List.forall₂_map_right_iff] at hcs
    exact lowerStmts_ends ih (fun s hs => hin.member (List.mem_map_of_mem hs)) hcs
  | expr value =>
    intro b st hb hin
    obtain ⟨i, p, cs, rfl, hcs⟩ := isStmt_iff.mp hb
    obtain ⟨c, rfl, hc⟩ := forall₂_one hcs
    rw [toShape_node, Stmt.kind, List.map_cons, lowerStmt, Context.lowersStmt]
    exact (lowerExpr_ends cx whole value c .void st hc (hin.member (by simp [Stmt.parts]))).after
      fun l st₁ hl => .pure ⟨hl.grows, hl.code⟩

theorem lowerBody_ends {parts : List Part} (hin : ∀ part ∈ parts, part.Inside whole)
    {cs : List Subtree} (hcs : List.Forall₂ Reads cs parts) {st : State} :
    Ends (lowerBody cx (cs.map fun c _ => c.toShape)) st
      (cx.lowersBody (parts.filterMap Part.stmt?)) (FitsCode cx whole st) (cx.Defect whole) := by
  induction hcs generalizing st with
  | nil => exact .pure ⟨.refl st, .nil⟩
  | @cons c part cs parts hc _ ih =>
    rw [List.forall_mem_cons] at hin
    rw [List.map_cons, lowerBody, lift_bind hc.kind_toShape, part.isStatement_kind]
    cases hs : part.stmt? with
    | none =>
      rw [List.filterMap_cons_none hs]
      refine (ih hin.2).after fun more st₁ hmore => ?_
      obtain ⟨hg, hcode⟩ := hmore
      exact .pure ⟨hg, CoveredCode.nil.append hcode⟩
    | some s =>
      obtain rfl := Part.stmt?_eq_some.mp hs
      rw [List.filterMap_cons_some hs, Context.lowersBody]
      refine (lowerStmt_ends cx whole s c st hc hin.1).bind fun code st₁ hfirst => ?_
      obtain ⟨hg₁, hc₁⟩ := hfirst
      refine (ih hin.2).after fun more st₂ hmore => ?_
      obtain ⟨hg₂, hc₂⟩ := hmore
      exact .pure ⟨hg₁.trans hg₂, (hc₁.mono hg₂).append hc₂⟩

end Statements

/-! ### Methods -/

section Methods

variable {cx : Context}

theorem mem_names_foldl_insert (symbols : List Symbol) (vars : VarTable) {x : String} :
    x ∈ (symbols.foldl (fun vars s => (vars.insert s.name (.ofTy s.ty)).2) vars).names ↔
      x ∈ vars.names ∨ ∃ s ∈ symbols, s.name = x := by
  induction symbols generalizing vars with
  | nil => simp
  | cons s symbols ih =>
    rw [List.foldl_cons, ih, VarTable.mem_names_insert, or_assoc]
    simp [eq_comm]

/-- The names of the parameters and local variables. -/
def Context.Declared (cx : Context) (x : String) : Prop :=
  ∃ s ∈ cx.signature.params ++ cx.signature.locals, s.name = x

theorem mem_names_start {x : String} :
    x ∈ cx.start.vars.names ↔ (cx.signature.isStatic = false ∧ x = thisName) ∨ cx.Declared x := by
  have hreceiver : x ∈ (if cx.signature.isStatic then VarTable.empty
      else (VarTable.empty.insert thisName (.object cx.table.className)).2).names ↔
      cx.signature.isStatic = false ∧ x = thisName := by
    cases cx.signature.isStatic with
    | true => simp [VarTable.empty, VarTable.ofEntries, VarTable.names]
    | false =>
      rw [if_neg Bool.false_ne_true, VarTable.mem_names_insert]
      simp [VarTable.empty, VarTable.ofEntries, VarTable.names]
  rw [Context.start]
  simp only
  rw [mem_names_foldl_insert, hreceiver]
  rfl

theorem Context.declared_of_resolve {name : String} {origin : Origin} {symbol : Symbol}
    (h : cx.resolve name = some (origin, symbol)) (ho : origin ≠ .field) : cx.Declared name := by
  unfold Context.resolve SymbolTable.resolveIn Signature.param? Signature.localVar?
    Symbol.find? at h
  split at h
  · next p hp =>
    exact ⟨p, List.mem_append_left _ (List.mem_of_find?_eq_some hp),
      by simpa using List.find?_some hp⟩
  · split at h
    · next l hl =>
      exact ⟨l, List.mem_append_right _ (List.mem_of_find?_eq_some hl),
        by simpa using List.find?_some hl⟩
    · obtain ⟨f, -, hf⟩ := Option.map_eq_some_iff.mp h
      cases hf
      exact absurd rfl ho

theorem Context.uses_cases {k : Kind} {x : String} (h : cx.uses k x) :
    x = thisName ∨ cx.Declared x := by
  unfold Context.uses at h
  split at h
  · exact .inl h
  all_goals try exact absurd h id
  all_goals
    next name =>
    split at h
    · exact .inl h
    · next p hne hr =>
      obtain ⟨origin, symbol⟩ := p
      subst h
      exact .inr (declared_of_resolve hr fun ho => hne symbol (by rw [ho]))
    · exact .inl h.2

/-- The method is static, and its body uses the receiver. -/
structure Context.LacksReceiver (cx : Context) (whole : Part) : Prop where
  isStatic : cx.signature.isStatic = true
  not_declared : ¬ cx.Declared thisName
  used : ∃ part : Part, part.Inside whole ∧ cx.uses part.kind thisName

theorem verifyVars_cases {m : MethodCode} :
    m.verifyVars = .ok () ∨ ∃ i ∈ m.instructions, ∃ x ∈ i.vars, x ∉ m.vars.names ∧
      m.verifyVars = .error (.error (MethodCode.unresolved x m.name)) := by
  rw [MethodCode.verifyVars]
  split
  · next x hx =>
    obtain ⟨i, hi, hmem⟩ := List.mem_flatMap.mp (List.mem_of_find?_eq_some hx)
    have hnot := List.find?_some hx
    rw [Bool.not_eq_true', ← Bool.not_eq_true, VarTable.contains_iff_mem_names] at hnot
    exact .inr ⟨i, hi, x, hmem, hnot, rfl⟩
  · exact .inl rfl

/-- **The outcomes of lowering the body of a method.** -/
theorem lowerBody_method {m : MethodDecl} {cs : List Subtree}
    (hcs : List.Forall₂ Reads cs m.parts) :
    Ends (lowerBody cx (cs.map fun c _ => c.toShape)) cx.start (cx.lowersBody m.body)
      (FitsCode cx (.method m) cx.start) (cx.Defect (.method m)) := by
  have hbody : m.parts.filterMap Part.stmt? = m.body := by
    simp [MethodDecl.parts, List.filterMap_append, List.filterMap_map, Function.comp_def,
      Part.stmt?]
  have hends := @lowerBody_ends cx (.method m) m.parts (fun part hp => .of_mem hp) cs hcs cx.start
  rwa [hbody] at hends

/-- A method whose body has been lowered passes the check of its variables, unless it lacks the
receiver. -/
theorem verifyVars_of_lowerBody {m : MethodDecl} {code : List Instr} {final : State}
    (h : FitsCode cx (.method m) cx.start code final) :
    (cx.methodCode code final.vars).verifyVars = .ok () ∨ cx.LacksReceiver (.method m) ∧
      (cx.methodCode code final.vars).verifyVars = .error (.error (cx.unresolved thisName)) := by
  obtain ⟨hgrows, hcode⟩ := h
  rcases verifyVars_cases (m := cx.methodCode code final.vars) with hv | ⟨i, hi, x, hx, hnot, hv⟩
  · exact .inl hv
  · have hcovered : CoveredCode cx (.method m) final
        (endWithReturn (.ofTy cx.signature.returnType) code) := by
      rw [endWithReturn]
      split
      · exact hcode.append (coveredCode_jumps rfl rfl)
      · exact hcode
    have hstart : x ∉ cx.start.vars.names := fun h => hnot (hgrows h)
    rw [mem_names_start, not_or, not_and] at hstart
    obtain ⟨part, hpart, huses⟩ := (hcovered i hi x hx).resolve_left hnot
    obtain rfl := (Context.uses_cases huses).resolve_right hstart.2
    refine .inr ⟨⟨?_, hstart.2, part, hpart, huses⟩, hv⟩
    cases hs : cx.signature.isStatic with
    | true => rfl
    | false => exact absurd rfl (hstart.1 hs)

/-- **The outcomes of lowering a method.** -/
theorem lowerMethod_cases {m : MethodDecl} {cs : List Subtree}
    (hcs : List.Forall₂ Reads cs m.parts) :
    (cx.lowersBody m.body = true ∧
      ∃ code, lowerMethod cx (cs.map fun c _ => c.toShape) = .ok code) ∨
    ∃ e, lowerMethod cx (cs.map fun c _ => c.toShape) = .error (.error e) ∧
      ((cx.lowersBody m.body = false ∧ cx.Defect (.method m) e) ∨
        (cx.LacksReceiver (.method m) ∧ e = cx.unresolved thisName)) := by
  have hends := @lowerBody_method cx m cs hcs
  cases hl : cx.lowersBody m.body with
  | false =>
    rw [hl] at hends
    obtain ⟨e, he, hdefect⟩ := hends
    refine .inr ⟨e, ?_, .inl ⟨rfl, hdefect⟩⟩
    have hrun : (lowerBody cx (cs.map fun c _ => c.toShape)).run cx.start = .error (.error e) := he
    rw [lowerMethod_eq, hrun]
    rfl
  | true =>
    rw [hl] at hends
    obtain ⟨code, final, hrun, hfits⟩ := hends
    have hrun : (lowerBody cx (cs.map fun c _ => c.toShape)).run cx.start = .ok (code, final) :=
      hrun
    rw [lowerMethod_eq, hrun]
    simp only [bind, Except.bind]
    rcases verifyVars_of_lowerBody hfits with hv | ⟨hlacks, hv⟩
    · rw [hv]
      exact .inl ⟨trivial, _, rfl⟩
    · rw [hv]
      exact .inr ⟨_, rfl, .inr ⟨hlacks, rfl⟩⟩

end Methods

/-! ### Classes -/

section Classes

variable {table : SymbolTable}

/-- Why a method cannot be lowered with a signature. -/
def Refused (table : SymbolTable) (s : Signature) (m : MethodDecl) (e : Error) : Prop :=
  (Context.lowersBody ⟨table, s⟩ m.body = false ∧ Context.Defect ⟨table, s⟩ (.method m) e) ∨
    (Context.LacksReceiver ⟨table, s⟩ (.method m) ∧ e = Context.unresolved ⟨table, s⟩ thisName)

theorem declared_of_drop {s : Signature} {m : MethodDecl} {signatures : List Signature}
    {index : Nat} (hname : s.name = m.name)
    (hdrop : table.signatures.drop index = s :: signatures) :
    table.declared index m.name = .ok s ∧ table.signatures.drop (index + 1) = signatures := by
  have hs : table.signatures[index]? = some s := by
    rw [← List.head?_drop, hdrop, List.head?_cons]
  refine ⟨hname ▸ SymbolTable.declared_ok hs, ?_⟩
  rw [← List.drop_drop, hdrop, List.drop_one, List.tail_cons]

/-- **The outcomes of lowering methods in order**, `index` of which came before. -/
theorem lowerMethods_cases {todo : List Subtree} {methods : List MethodDecl}
    {signatures : List Signature} (index : Nat)
    (htodo : List.Forall₂ Reads todo (methods.map .method))
    (hnames : NamedAlike signatures methods) (hdrop : table.signatures.drop index = signatures) :
    (∃ codes, lowerMethods table index (todo.map fun c _ => c.toShape) = .ok codes ∧
      ∀ p ∈ signatures.zip methods, Context.lowersBody ⟨table, p.1⟩ p.2.body = true) ∨
    ∃ p ∈ signatures.zip methods, ∃ e,
      lowerMethods table index (todo.map fun c _ => c.toShape) = .error (.error e) ∧
      Refused table p.1 p.2 e := by
  induction hnames generalizing todo index with
  | nil =>
    cases htodo
    exact .inl ⟨[], rfl, by simp⟩
  | @cons s m signatures methods hname hrest ih =>
    obtain ⟨c, todo, hc, hothers, rfl⟩ := List.forall₂_cons_right_iff.mp htodo
    obtain ⟨i, p, cs, rfl, hcs⟩ := reads_iff.mp hc
    obtain ⟨hdeclared, hnext⟩ := declared_of_drop hname hdrop
    rw [List.map_cons, lowerMethods, toShape_node, Part.kind]
    simp only [hdeclared, bind, Except.bind]
    rw [List.zip_cons_cons]
    rcases @lowerMethod_cases ⟨table, s⟩ m cs hcs with ⟨hgood, code, hcode⟩ | ⟨e, he, hwhy⟩
    · rw [hcode]
      rcases ih (index + 1) hothers hnext with ⟨codes, hcodes, hall⟩ | ⟨q, hq, e, he, hwhy⟩
      · rw [hcodes]
        exact .inl ⟨_, rfl, List.forall_mem_cons.mpr ⟨hgood, hall⟩⟩
      · rw [he]
        exact .inr ⟨q, List.mem_cons_of_mem _ hq, e, rfl, hwhy⟩
    · rw [he]
      exact .inr ⟨(s, m), List.mem_cons_self, e, rfl, hwhy⟩

theorem lowerMethods_fields {fs todo : List Subtree} {fields : List (String × TypeExpr)}
    (hfs : List.Forall₂ Reads fs (fields.map .varDecl)) (index : Nat) :
    lowerMethods table index ((fs ++ todo).map fun c _ => c.toShape)
      = lowerMethods table index (todo.map fun c _ => c.toShape) := by
  rw [List.forall₂_map_right_iff] at hfs
  induction hfs with
  | nil => rfl
  | cons hc _ ih =>
    obtain ⟨i, p, cs, rfl, -⟩ := reads_iff.mp hc
    rw [List.cons_append, List.map_cons, lowerMethods, toShape_node, ← ih]
    rfl

theorem lower_eq {t : Tree} {b : Subtree} {imports : List String} {c : ClassDecl}
    {rest : List ClassDecl} (h : t.Pictures ⟨imports, c :: rest⟩ b) :
    ∃ ms : List Subtree, List.Forall₂ Reads ms (c.methods.map .method) ∧
      t.lower table = (lowerMethods table 0 (ms.map fun c _ => c.toShape)).bind fun methods => .ok {
        name := table.className
        superclass := table.superclass.getD defaultSuperclass
        imports := table.imports
        fields := table.fields.map Variable.ofSymbol
        methods } := by
  obtain ⟨r, pos, is, i, p, fs, ms, after, rfl, his, hfs, hms, -⟩ := h.exists_firstClass
  refine ⟨ms, hms, ?_⟩
  have hshape : (t.shape t.root).children = .ok ((is
      ++ Subtree.node i (.classDecl c.name c.superclass) p (fs ++ ms) :: after).map
        fun c _ => c.toShape) :=
    h.children_eq
  rw [Tree.lower, hshape, ← lowerMethods_fields hfs 0]
  simp only [bind, Except.bind]
  rw [Shape.firstClass_ok his]
  rfl

/-- **The outcomes of lowering a pictured program.** -/
theorem lower_cases {t : Tree} {b : Subtree} {imports : List String} {c : ClassDecl}
    {rest : List ClassDecl} (h : t.Pictures ⟨imports, c :: rest⟩ b)
    (hnames : NamedAlike table.signatures c.methods) :
    (∃ code, t.lower table = .ok code ∧ ∀ p ∈ table.signatures.zip c.methods,
      Context.lowersBody ⟨table, p.1⟩ p.2.body = true) ∨
    ∃ p ∈ table.signatures.zip c.methods, ∃ e, t.lower table = .error (.error e) ∧
      Refused table p.1 p.2 e := by
  obtain ⟨ms, hms, hlower⟩ := @lower_eq table _ _ _ _ _ h
  rw [hlower]
  rcases lowerMethods_cases 0 hms hnames List.drop_zero with
    ⟨codes, hcodes, hall⟩ | ⟨q, hq, e, he, hwhy⟩
  · rw [hcodes]
    exact .inl ⟨_, rfl, hall⟩
  · rw [he]
    exact .inr ⟨q, hq, e, rfl, hwhy⟩

/-- The code is that of a declaration with its signature. -/
def CodeOf (table : SymbolTable) (code : MethodCode) (q : Signature × MethodDecl) : Prop :=
  ∃ cs : List Subtree, List.Forall₂ Reads cs q.2.parts ∧
    lowerMethod ⟨table, q.1⟩ (cs.map fun c _ => c.toShape) = .ok code

/-- The lowered methods are those of the declarations in their order, each with the signature of its
place. -/
theorem forall₂_lowerMethods {todo : List Subtree} {methods : List MethodDecl}
    {signatures : List Signature} (index : Nat) {codes : List MethodCode}
    (htodo : List.Forall₂ Reads todo (methods.map .method)) (hnames : NamedAlike signatures methods)
    (hdrop : table.signatures.drop index = signatures)
    (h : lowerMethods table index (todo.map fun c _ => c.toShape) = .ok codes) :
    List.Forall₂ (CodeOf table) codes (signatures.zip methods) := by
  induction hnames generalizing todo index codes with
  | nil =>
    cases htodo
    cases h
    exact .nil
  | @cons s m signatures methods hname hrest ih =>
    obtain ⟨c, todo, hc, hothers, rfl⟩ := List.forall₂_cons_right_iff.mp htodo
    obtain ⟨i, p, cs, rfl, hcs⟩ := reads_iff.mp hc
    obtain ⟨hdeclared, hnext⟩ := declared_of_drop hname hdrop
    rw [List.map_cons, lowerMethods, toShape_node, Part.kind] at h
    obtain ⟨signature, hsignature, h⟩ := Halt.bind_ok h
    cases hdeclared.symm.trans hsignature
    obtain ⟨first, hfirst, h⟩ := Halt.bind_ok h
    obtain ⟨more, hmore, h⟩ := Halt.bind_ok h
    cases h
    exact .cons ⟨cs, hcs, hfirst⟩ (ih (index + 1) hothers hnext hmore)

theorem forall₂_lower {t : Tree} {b : Subtree} {imports : List String} {c : ClassDecl}
    {rest : List ClassDecl} {code : ClassCode} (h : t.Pictures ⟨imports, c :: rest⟩ b)
    (hnames : NamedAlike table.signatures c.methods) (hl : t.lower table = .ok code) :
    List.Forall₂ (CodeOf table) code.methods (table.signatures.zip c.methods) := by
  obtain ⟨ms, hms, hlower⟩ := @lower_eq table _ _ _ _ _ h
  rw [hlower] at hl
  obtain ⟨codes, hcodes, hl⟩ := Halt.bind_ok hl
  cases hl
  exact forall₂_lowerMethods 0 hms hnames List.drop_zero hcodes

theorem exists_of_mem_lower {t : Tree} {b : Subtree} {imports : List String} {c : ClassDecl}
    {code : ClassCode} (h : t.Pictures ⟨imports, [c]⟩ b)
    (hnames : NamedAlike table.signatures c.methods) (hl : t.lower table = .ok code) :
    ∀ method ∈ code.methods, ∃ q ∈ table.signatures.zip c.methods, ∃ cs : List Subtree,
      List.Forall₂ Reads cs q.2.parts ∧
        lowerMethod ⟨table, q.1⟩ (cs.map fun c _ => c.toShape) = .ok method :=
  fun _ hmethod => forall₂_of_mem_left (forall₂_lower h hnames hl) hmethod

end Classes

end Classlet.Lowering
