import Classlet.Proofs.Lowering.Straight

/-!
# What lowering emits

Whatever the tree, statements become straight code, returns, conditionals and loops, one after the
other (`Emits`), and a lowered method is what its body emits with a return at the end where nothing
is returned.  Properties of lowered methods are then proved by induction on `Emits`, without a look
at the trees.

Main statements: `lowerStmt_emits`, `emits_of_lowerMethod`.
-/

namespace Classlet.Lowering

open Classlet.Ir Classlet.Semantics

variable {cx : Context} {st st' : State} {code : List Instr}

/-! ### Statements -/

/-- Code that is emitted for statements between two states. -/
inductive Emits (cx : Context) : State → List Instr → State → Prop
  | straight {st st' : State} {code : List Instr} (h : Straight cx st code st') :
      Emits cx st code st'
  | ret {st st' : State} {code : List Instr} {value : Option Operand}
      (h : Prepares cx st value.toList code st') : Emits cx st (code ++ [.ret value]) st'
  | append {st st₁ st' : State} {a b : List Instr} (h : Emits cx st a st₁)
      (h' : Emits cx st₁ b st') : Emits cx st (a ++ b) st'
  | conditional {st st₁ st₂ st₃ st' : State} {n : Nat} {cond : Loaded}
      {body otherwise : List Instr} (hn : nextNumber "if" st = .ok (n, st₁))
      (hc : Prepares cx st₁ [cond.operand] cond.code st₂) (hb : Emits cx st₂ body st₃)
      (ho : Emits cx st₃ otherwise st') : Emits cx st (conditionalCode n cond body otherwise) st'
  | loop {st st₁ st₂ st' : State} {n : Nat} {cond : Loaded} {body : List Instr}
      (hn : nextNumber "while" st = .ok (n, st₁))
      (hc : Prepares cx st₁ [cond.operand] cond.code st₂) (hb : Emits cx st₂ body st') :
      Emits cx st (loopCode n cond body) st'

theorem Emits.advances (h : Emits cx st code st') : Advances st st' := by
  induction h with
  | straight h => exact h.advances
  | ret h => exact h.straight.advances
  | append _ _ ih ih' => exact ih.trans ih'
  | conditional hn hc _ _ ihb iho =>
    exact (nextNumber_advances hn).trans (hc.straight.advances.trans (ihb.trans iho))
  | loop hn hc _ ihb => exact (nextNumber_advances hn).trans (hc.straight.advances.trans ihb)

theorem load_prepares {s : Shape} {hint : ValueType} {v : Loaded} (hr : cx.Reserves st)
    (h : load cx hint s st = .ok (v, st')) : Prepares cx st [v.operand] v.code st' := by
  obtain ⟨l, st₁, hl, hv⟩ := bind_ok h
  obtain ⟨rfl, rfl⟩ := loaded_ok hv
  exact lowerExpr_prepares cx s hint st _ _ hr hl

theorem lowerAssign_emits {target : String} {value : Shape} (hr : cx.Reserves st)
    (h : lowerAssign cx target value st = .ok (code, st')) : Emits cx st code st' := by
  unfold lowerAssign at h
  rcases ht : cx.resolve target with _ | ⟨_ | _ | _, symbol⟩ <;> simp only [ht] at h
  case none => exact absurd h fail_ne_ok
  case some.field =>
    obtain ⟨v, st₁, hv, h⟩ := bind_ok h
    cases pure_ok h
    have hall := (Prepares.var hr (thisName_mem_reserved cx)).append (load_prepares hr hv)
    exact .straight (hall.effect (i := .putField (.var thisName) target (.ofTy symbol.ty) v.operand)
      rfl (by simp [Instr.def?]) fun _ hx => hx).straight
  all_goals
    obtain ⟨v, st₁, hv, h⟩ := bind_ok h
    cases pure_ok h
    refine .straight ((load_prepares hr hv).effect (i := .move target v.operand) rfl ?_
      fun _ hx => hx).straight
    rintro _ ⟨⟩
    exact mem_reserved_of_declared (cx.declared_of_resolve ht (by decide))

theorem lowerTarget_prepares {target : String} {array : Operand} {fetch : List Instr}
    (hr : cx.Reserves st) (h : lowerTarget cx target st = .ok ((array, fetch), st')) :
    Prepares cx st [array] fetch st' := by
  unfold lowerTarget at h
  rcases ht : cx.resolve target with _ | ⟨_ | _ | _, symbol⟩ <;> simp only [ht] at h
  case none => exact absurd h fail_ne_ok
  case some.field =>
    obtain ⟨dst, st₁, hd, h⟩ := bind_ok h
    cases pure_ok h
    exact prepares_ownField hr hd
  all_goals
    cases pure_ok h
    exact .var hr (mem_reserved_of_declared (cx.declared_of_resolve ht (by decide)))

/-- Lowering the statement emits its code. -/
def LowersToCode (cx : Context) (s : Shape) : Prop :=
  ∀ (st : State) (code : List Instr) (st' : State), cx.Reserves st →
    lowerStmt cx s st = .ok (code, st') → Emits cx st code st'

theorem lowersToCode_arrayAssign {id : NodeId} {target : String} {p : Position}
    {children : Shapes} : LowersToCode cx (.node id (.arrayAssign target) p children) := by
  intro st code st' hr h
  simp only [lowerStmt] at h
  obtain ⟨⟨array, fetch⟩, st₁, ht, h⟩ := bind_ok h
  have hfetch := lowerTarget_prepares hr ht
  rcases children with _ | ⟨index, _ | ⟨value, rest⟩⟩
  · exact absurd h fail_ne_ok
  · obtain ⟨i, st₂, -, h⟩ := bind_ok h
    exact absurd h fail_ne_ok
  · obtain ⟨i, st₂, hi, h⟩ := bind_ok h
    obtain ⟨v, st₃, hv, h⟩ := bind_ok h
    cases pure_ok h
    have hindex := load_prepares hfetch.straight.reserves_end hi
    have hvalue := load_prepares hindex.straight.reserves_end hv
    have hall := (hfetch.append hindex).append hvalue
    exact .straight (hall.effect (i := .arrayStore array i.operand v.operand) rfl
      (by simp [Instr.def?]) fun _ hx => hx).straight

theorem lowersToCode_ret {id : NodeId} {p : Position} {children : Shapes} :
    LowersToCode cx (.node id .returnStmt p children) := by
  intro st code st' hr h
  simp only [lowerStmt] at h
  rcases children with _ | ⟨value, rest⟩
  · cases pure_ok h
    have hnone : Prepares cx st (none : Option Operand).toList [] st := .nil hr
    exact .ret hnone
  · obtain ⟨v, st₁, hv, h⟩ := bind_ok h
    cases pure_ok h
    exact .ret (load_prepares hr hv)

/-- A condition and the body it guards, before what follows. -/
theorem LowersToCode.guarded_ok {α : Type} {cond body : Shape} (hb : LowersToCode cx body)
    {f : Loaded → List Instr → Lower α} {r : α × State} (hr : cx.Reserves st)
    (h : (load cx .boolean cond >>= fun v => lowerStmt cx body >>= f v) st = .ok r) :
    ∃ v inner st₁ st₂, Prepares cx st [v.operand] v.code st₁ ∧ Emits cx st₁ inner st₂ ∧
      cx.Reserves st₂ ∧ f v inner st₂ = .ok r := by
  obtain ⟨v, st₁, hv, h⟩ := bind_ok h
  obtain ⟨inner, st₂, hl, h⟩ := bind_ok h
  have hcond := load_prepares hr hv
  have hr₁ := hcond.straight.reserves_end
  have hbody := hb st₁ inner st₂ hr₁ hl
  exact ⟨v, inner, st₁, st₂, hcond, hbody, hr₁.mono hbody.advances, h⟩

theorem lowersToCode_if {id : NodeId} {p : Position} {children : Shapes}
    (ih : ∀ c ∈ children, LowersToCode cx (c ())) :
    LowersToCode cx (.node id .ifStmt p children) := by
  intro st code st' hr h
  simp only [lowerStmt] at h
  obtain ⟨n, st₁, hn, h⟩ := bind_ok h
  have hr₁ := hr.mono (nextNumber_advances hn)
  rcases children with _ | ⟨cond, _ | ⟨body, rest⟩⟩
  · exact absurd h fail_ne_ok
  · obtain ⟨c, st₂, -, h⟩ := bind_ok h
    exact absurd h fail_ne_ok
  obtain ⟨c, b, st₂, st₃, hcond, hbody, hr₃, h⟩ := (ih body (by simp)).guarded_ok hr₁ h
  rcases rest with _ | ⟨otherwise, rest⟩
  · obtain ⟨o, st₄, ho, h⟩ := bind_ok h
    cases pure_ok ho
    cases pure_ok h
    exact .conditional hn hcond hbody (.straight (.nil hr₃))
  · obtain ⟨o, st₄, ho, h⟩ := bind_ok h
    cases pure_ok h
    exact .conditional hn hcond hbody (ih otherwise (by simp) _ _ _ hr₃ ho)

theorem lowersToCode_while {id : NodeId} {p : Position} {children : Shapes}
    (ih : ∀ c ∈ children, LowersToCode cx (c ())) :
    LowersToCode cx (.node id .whileStmt p children) := by
  intro st code st' hr h
  simp only [lowerStmt] at h
  obtain ⟨n, st₁, hn, h⟩ := bind_ok h
  have hr₁ := hr.mono (nextNumber_advances hn)
  rcases children with _ | ⟨cond, _ | ⟨body, rest⟩⟩
  · exact absurd h fail_ne_ok
  · obtain ⟨c, st₂, -, h⟩ := bind_ok h
    exact absurd h fail_ne_ok
  obtain ⟨c, b, st₂, st₃, hcond, hbody, -, h⟩ := (ih body (by simp)).guarded_ok hr₁ h
  cases pure_ok h
  exact .loop hn hcond hbody

theorem lowerStmts_emits {children : Shapes} (ih : ∀ c ∈ children, LowersToCode cx (c ()))
    (hr : cx.Reserves st) (h : lowerStmts cx children st = .ok (code, st')) :
    Emits cx st code st' := by
  induction children generalizing st code with
  | nil =>
    rw [lowerStmts] at h
    cases pure_ok h
    exact .straight (.nil hr)
  | cons c rest ihrest =>
    rw [List.forall_mem_cons] at ih
    rw [lowerStmts] at h
    obtain ⟨a, st₁, ha, h⟩ := bind_ok h
    obtain ⟨b, st₂, hb, h⟩ := bind_ok h
    cases pure_ok h
    have hfirst := ih.1 st a st₁ hr ha
    exact hfirst.append (ihrest ih.2 (hr.mono hfirst.advances) hb)

/-- **Statements become straight code, returns, conditionals and loops.** -/
theorem lowerStmt_emits (cx : Context) (s : Shape) : LowersToCode cx s := by
  induction s using Shape.ind with
  | broken id fault =>
    intro st code st' hr h
    rw [lowerStmt] at h
    cases h
  | node id kind p children ih =>
    cases kind with
    | arrayAssign target => exact lowersToCode_arrayAssign
    | returnStmt => exact lowersToCode_ret
    | ifStmt => exact lowersToCode_if ih
    | whileStmt => exact lowersToCode_while ih
    | block =>
      intro st code st' hr h
      rw [lowerStmt_block] at h
      exact lowerStmts_emits ih hr h
    | assign target =>
      intro st code st' hr h
      rcases children with _ | ⟨value, rest⟩ <;> simp only [lowerStmt] at h
      · exact absurd h fail_ne_ok
      · exact lowerAssign_emits hr h
    | exprStmt =>
      intro st code st' hr h
      rcases children with _ | ⟨e, rest⟩ <;> simp only [lowerStmt] at h
      · exact absurd h fail_ne_ok
      · obtain ⟨l, st₁, hl, h⟩ := bind_ok h
        cases pure_ok h
        exact .straight (lowerExpr_prepares cx (e ()) .void st l st' hr hl).straight
    | _ =>
      intro st code st' hr h
      simp only [lowerStmt] at h
      exact absurd h fail_ne_ok

/-! ### Methods -/

theorem lowerBody_emits {members : Shapes} (hr : cx.Reserves st)
    (h : lowerBody cx members st = .ok (code, st')) : Emits cx st code st' := by
  induction members generalizing st code with
  | nil =>
    cases pure_ok h
    exact .straight (.nil hr)
  | cons s rest ih =>
    rw [lowerBody] at h
    obtain ⟨kind, st₀, hk, h⟩ := bind_ok h
    obtain ⟨_, -, hst⟩ := lift_ok hk
    cases hst
    split at h
    · obtain ⟨a, st₁, ha, h⟩ := bind_ok h
      obtain ⟨b, st₂, hb, h⟩ := bind_ok h
      cases pure_ok h
      have hfirst := lowerStmt_emits cx (s ()) st a st₁ hr ha
      exact hfirst.append (ih (hr.mono hfirst.advances) hb)
    · obtain ⟨a, st₁, ha, h⟩ := bind_ok h
      cases pure_ok ha
      obtain ⟨b, st₂, hb, h⟩ := bind_ok h
      cases pure_ok h
      exact ih hr hb

/-- **The code and the table of a lowered method.** -/
theorem emits_of_lowerMethod {members : Shapes} {m : MethodCode}
    (h : lowerMethod cx members = .ok m) : ∃ code final, Emits cx cx.start code final ∧
      m.returnType = .ofTy cx.signature.returnType ∧
      m.instructions = endWithReturn m.returnType code ∧ m.vars = final.vars := by
  obtain ⟨code, final, hb, rfl, -⟩ := lowerMethod_ok h
  exact ⟨code, final, lowerBody_emits rfl hb, rfl, rfl, rfl⟩

end Classlet.Lowering
