import Classlet.Proofs.Lowering.Expressions
import Classlet.Proofs.Lowering.Labels

/-!
# Lowered statements do what the statements do

The machine *follows* the execution of a statement: where the statement is done, it arrives behind
the code of the statement with the same values in the declared variables; where the method has
ended, it ends in the same way; and where a loop takes more rounds than allowed, it has not ended
after as many steps.

`Executes` is the specification of the code of a statement inside any larger code whose labels are
all different.  It is kept by sequences (`Executes.append`), conditionals (`Executes.conditional`)
and loops (`Executes.loop`), and so holds of every lowered statement (`lowerStmt_executes`).
-/

namespace Classlet.Lowering

open Classlet.Ir Classlet.Semantics

variable {R W : Type} [DecidableEq R]
variable {cx : Context} {world : World R W} {st st₁ st₂ st₃ st' : State}

/-! ### Following an execution -/

/-- The machine does from a configuration what an execution does, and arrives at `rest` where that
is done. -/
def Follows (cx : Context) (m : Machine String R W) (n : Nat) (c : Config String R W)
    (rest : List Instr) : Progress R W → Prop
  | .done σ w => ∃ k cells, m.Leads k c ⟨rest, cells, w⟩ ∧ cx.Matches σ cells
  | .stopped o w => ∃ k, m.run k c = some (o, w)
  | .unfinished => m.run n c = none

namespace Follows

variable {m : Machine String R W} {n : Nat} {c : Config String R W} {mid rest : List Instr}
  {p : Progress R W}

theorem of_leads {c' : Config String R W} {j k : Nat} (hl : m.Leads k c c')
    (h : Follows cx m n c' rest p) (hj : j ≤ k + n) : Follows cx m j c rest p := by
  rcases p with ⟨σ, w⟩ | ⟨o, w⟩ | _
  · obtain ⟨k', cells, hl', hm⟩ := h
    exact ⟨k + k', cells, hl.trans hl', hm⟩
  · obtain ⟨k', hr⟩ := h
    exact ⟨k + k', hl.run_some hr⟩
  · exact hl.run_none h hj

theorem mono {j : Nat} (h : Follows cx m n c rest p) (hj : j ≤ n) : Follows cx m j c rest p :=
  of_leads (.refl m c) h (by omega)

theorem andThen {next : Store R → W → Progress R W} (h : Follows cx m n c mid p)
    (hn : ∀ σ cells w, cx.Matches σ cells →
      Follows cx m n ⟨mid, cells, w⟩ rest (next σ w)) :
    Follows cx m n c rest (p.andThen next) := by
  rcases p with ⟨σ, w⟩ | ⟨o, w⟩ | _
  · obtain ⟨k, cells, hl, hm⟩ := h
    exact of_leads hl (hn σ cells w hm) (by omega)
  · exact h
  · exact h

theorem then_leads (h : Follows cx m n c mid p)
    (hl : ∀ cells w, ∃ k, m.Leads k ⟨mid, cells, w⟩ ⟨rest, cells, w⟩) :
    Follows cx m n c rest p := by
  rcases p with ⟨σ, w⟩ | ⟨o, w⟩ | _
  · obtain ⟨k, cells, hl', hm⟩ := h
    obtain ⟨k', hl⟩ := hl cells w
    exact ⟨k + k', cells, hl'.trans hl, hm⟩
  · exact h
  · exact h

theorem after {α : Type} {cells : Store R} {w : W} {code : List Instr} {x : Eval W α}
    {post : α → Store R → Prop} {next : α → W → Progress R W}
    (hp : ∀ i ∈ code, isPlain i = true) (hd : Delivers m st cells w code x post)
    (hn : ∀ a cells' w', Agree st cells cells' → post a cells' →
      Follows cx m n ⟨mid, cells', w'⟩ rest (next a w')) :
    Follows cx m n ⟨code ++ mid, cells, w⟩ rest (.after x w next) := by
  unfold Delivers at hd
  unfold Progress.after
  rcases hx : x w with ⟨_ | a, w'⟩ <;> rw [hx] at hd
  · exact ⟨code.length, m.run_runPlain_none mid hp hd⟩
  · obtain ⟨cells', hr, hag, hpost⟩ := hd
    exact of_leads (m.leads_runPlain mid hp hr) (hn a cells' w' hag hpost) (by omega)

end Follows

/-! ### Code of statements -/

/-- The code made between two states does what an execution does, wherever it stands. -/
structure Executes (cx : Context) (world : World R W) (st st' : State) (code : List Instr)
    (run : Nat → Store R → W → Progress R W) : Prop where
  advances : Advances st st'
  labelled : Labelled st st' code
  /-- Nothing comes behind a return. -/
  returns : code.getLast?.any Instr.isReturn = true → ∀ n σ w σ' w', run n σ w ≠ .done σ' w'
  follows : ∀ n whole before rest, whole = before ++ code ++ rest → (labels whole).Nodup →
    ∀ σ cells w, cx.Matches σ cells →
      Follows cx (.named world whole) n ⟨code ++ rest, cells, w⟩ rest (run n σ w)

theorem Executes.nil : Executes cx world st st [] fun _ => Progress.done where
  advances := .refl st
  labelled := labelled_of_plain (by simp)
  returns := by simp
  follows _ _ _ _ _ _ _ cells _ hm := ⟨0, cells, .refl _ _, hm⟩

/-- **One statement after the other.** -/
theorem Executes.append {a b : List Instr} {f g : Nat → Store R → W → Progress R W}
    (hf : Executes cx world st st₁ a f) (hg : Executes cx world st₁ st₂ b g) :
    Executes cx world st st₂ (a ++ b) fun n σ w => (f n σ w).andThen (g n) where
  advances := hf.advances.trans hg.advances
  labelled := hf.labelled.append hg.labelled hf.advances hg.advances
  returns := by
    intro hret n σ w σ' w' hdone
    rcases hr : f n σ w with ⟨σ₁, w₁⟩ | _ | _ <;> simp only [hr, Progress.andThen] at hdone
    · rcases List.eq_nil_or_concat b with rfl | ⟨b', i, rfl⟩
      · rw [List.append_nil] at hret
        exact hf.returns hret n σ w σ₁ w₁ hr
      · exact hg.returns (by simpa using hret) n σ₁ w₁ σ' w' hdone
    all_goals cases hdone
  follows n whole before rest hw hl σ cells w hm := by
    rw [List.append_assoc]
    refine (hf.follows n whole before (b ++ rest) (by simp [hw]) hl σ cells w hm).andThen ?_
    intro σ₁ cells₁ w₁ hm₁
    exact hg.follows n whole (before ++ a) rest (by simp [hw]) hl σ₁ cells₁ w₁ hm₁

/-- **Conditionals.** -/
theorem Executes.conditional {n : Nat} {cond : Loaded} {x : Store R → Eval W (Value R)}
    {body otherwise : List Instr} {f g : Nat → Store R → W → Progress R W} (hcv : cx.Covers st₁)
    (hn : nextNumber "if" st = .ok (n, st₁))
    (hc : Computes cx world st₁ st₂ (some cond.operand) cond.code x)
    (hf : Executes cx world st₂ st₃ body f) (hg : Executes cx world st₃ st' otherwise g) :
    Executes cx world st st' (conditionalCode n cond body otherwise) fun k σ w =>
      .after (x σ) w fun v w => if v.isTrue then f k σ w else g k σ w where
  advances := (nextNumber_advances hn).trans (hc.advances.trans (hf.advances.trans hg.advances))
  labelled := by
    have hlab : Labelled st₁ st₃ body := hf.labelled.mono hc.advances (.refl st₃)
    exact labelled_conditional hn hc.plain (hc.advances.trans hf.advances) hlab hg.advances
      hg.labelled
  returns := by
    rw [conditionalCode, List.getLast?_concat]
    exact fun h => by cases h
  follows k whole before rest hw hl σ cells w hm := by
    obtain ⟨t, ht⟩ : ∃ t, t = "then" ++ toString n := ⟨_, rfl⟩
    obtain ⟨e, he⟩ : ∃ e, e = "else" ++ toString n := ⟨_, rfl⟩
    obtain ⟨d, hd⟩ : ∃ d, d = "endif" ++ toString n := ⟨_, rfl⟩
    simp only [conditionalCode, ← ht, ← he, ← hd] at hw ⊢
    simp only [List.append_assoc, List.cons_append, List.nil_append] at hw ⊢
    -- where the three labels lead
    have hthen : codeBehind t whole
        = some (body ++ .jump d :: .label e :: (otherwise ++ .label d :: rest)) :=
      codeBehind_of_nodup (before ++ cond.code ++ [.jumpIf cond.operand t, .jump e]) hl
        (by simp [hw])
    have helse : codeBehind e whole = some (otherwise ++ .label d :: rest) :=
      codeBehind_of_nodup (before ++ cond.code ++ [.jumpIf cond.operand t, .jump e, .label t]
        ++ body ++ [.jump d]) hl (by simp [hw])
    have hend : codeBehind d whole = some rest :=
      codeBehind_of_nodup (before ++ cond.code ++ [.jumpIf cond.operand t, .jump e, .label t]
        ++ body ++ [.jump d, .label e] ++ otherwise) hl (by simp [hw])
    refine .after hc.plain (hc.delivers whole σ cells w hm) fun v cells₁ w₁ hag hv => ?_
    have hm₁ := hm.of_agree hcv hag
    obtain ⟨j, htest⟩ := (Machine.named world whole).leads_test hthen helse cells₁ w₁
    have hcond : readOperand (Machine.named world whole).loc cells₁ cond.operand = v :=
      hv cond.operand rfl
    refine .of_leads (n := k) htest ?_ (by omega)
    rw [hcond]
    split
    · have hbody := hf.follows k whole (before ++ cond.code
        ++ [.jumpIf cond.operand t, .jump e, .label t])
        (.jump d :: .label e :: (otherwise ++ .label d :: rest)) (by simp [hw]) hl σ cells₁ w₁ hm₁
      refine hbody.then_leads fun cells₂ w₂ => ⟨1, ?_⟩
      exact (Machine.named world whole).leads_jump hend cells₂ w₂
    · have hother := hg.follows k whole (before ++ cond.code
        ++ [.jumpIf cond.operand t, .jump e, .label t] ++ body ++ [.jump d, .label e])
        (.label d :: rest) (by simp [hw]) hl σ cells₁ w₁ hm₁
      refine hother.then_leads fun cells₂ w₂ => ⟨1, ?_⟩
      exact (Machine.named world whole).leads_label d rest cells₂ w₂

/-- **Loops.**  Every round takes at least one step, so a loop that is not through after `k` rounds
is not through after `k` steps. -/
theorem Executes.loop {n : Nat} {cond : Loaded} {x : Store R → Eval W (Value R)}
    {body : List Instr} {f : Nat → Store R → W → Progress R W} (hcv : cx.Covers st₁)
    (hn : nextNumber "while" st = .ok (n, st₁))
    (hc : Computes cx world st₁ st₂ (some cond.operand) cond.code x)
    (hf : Executes cx world st₂ st' body f) :
    Executes cx world st st' (loopCode n cond body) fun k => repeatWhile x (f k) k where
  advances := (nextNumber_advances hn).trans (hc.advances.trans hf.advances)
  labelled := by
    have hlab : Labelled st₁ st' body := hf.labelled.mono hc.advances (.refl st')
    exact labelled_loop hn hc.plain (hc.advances.trans hf.advances) hlab
  returns := by
    have hlast : (loopCode n cond body).getLast? = some (.label ("endwhile" ++ toString n)) := by
      rw [loopCode, List.getLast?_append]
      rfl
    rw [hlast]
    exact fun h => by cases h
  follows k whole before rest hw hl σ cells w hm := by
    obtain ⟨t, ht⟩ : ∃ t, t = "whilecond" ++ toString n := ⟨_, rfl⟩
    obtain ⟨e, he⟩ : ∃ e, e = "whilebody" ++ toString n := ⟨_, rfl⟩
    obtain ⟨d, hd⟩ : ∃ d, d = "endwhile" ++ toString n := ⟨_, rfl⟩
    simp only [loopCode, ← ht, ← he, ← hd] at hw ⊢
    simp only [List.append_assoc, List.cons_append, List.nil_append] at hw ⊢
    obtain ⟨again, hagain⟩ : ∃ again, again = cond.code ++ .jumpIf cond.operand e :: .jump d
      :: .label e :: (body ++ .jump t :: .label d :: rest) := ⟨_, rfl⟩
    -- where the three labels lead
    have hstart : codeBehind t whole = some again :=
      codeBehind_of_nodup before hl (by rw [hagain, hw])
    have hbody : codeBehind e whole = some (body ++ .jump t :: .label d :: rest) :=
      codeBehind_of_nodup (before ++ .label t :: cond.code ++ [.jumpIf cond.operand e, .jump d]) hl
        (by simp [hw])
    have hend : codeBehind d whole = some rest :=
      codeBehind_of_nodup (before ++ .label t :: cond.code
        ++ [.jumpIf cond.operand e, .jump d, .label e] ++ body ++ [.jump t]) hl (by simp [hw])
    -- at most `j` rounds from behind the first label
    have hrounds : ∀ j, j ≤ k → ∀ σ cells w, cx.Matches σ cells →
        Follows cx (.named world whole) j ⟨again, cells, w⟩ rest (repeatWhile x (f k) j σ w) := by
      intro j
      induction j with
      | zero => intro _ σ cells w _; rfl
      | succ j ih =>
        intro hj σ cells w hm
        rw [hagain]
        refine .after hc.plain (hc.delivers whole σ cells w hm) fun v cells₁ w₁ hag hv => ?_
        have hm₁ := hm.of_agree hcv hag
        obtain ⟨i, htest⟩ := (Machine.named world whole).leads_test hbody hend cells₁ w₁
        have hcond : readOperand (Machine.named world whole).loc cells₁ cond.operand = v :=
          hv cond.operand rfl
        rw [hcond] at htest
        split
        · next hvt =>
          rw [if_pos hvt] at htest
          have hround := hf.follows k whole (before ++ .label t :: cond.code
            ++ [.jumpIf cond.operand e, .jump d, .label e]) (.jump t :: .label d :: rest)
            (by simp [hw]) hl σ cells₁ w₁ hm₁
          refine .of_leads htest ((hround.mono (Nat.le_of_succ_le hj)).andThen ?_) (by omega)
          intro σ₂ cells₂ w₂ hm₂
          exact .of_leads ((Machine.named world whole).leads_jump hstart cells₂ w₂)
            (ih (Nat.le_of_succ_le hj) σ₂ cells₂ w₂ hm₂) (by omega)
        · next hvt =>
          rw [if_neg hvt] at htest
          exact ⟨i + 1, cells₁, htest, hm₁⟩
    refine .of_leads (n := k) ((Machine.named world whole).leads_label t _ cells w) ?_ (by omega)
    rw [← hagain]
    exact hrounds k (Nat.le_refl k) σ cells w hm

/-! ### Statements without others inside -/

theorem getLast?_not_return {code : List Instr} (h : ∀ i ∈ code, isPlain i = true) :
    code.getLast?.any Instr.isReturn = false := by
  rcases hc : code.getLast? with _ | i
  · rfl
  · have hp := h i (List.mem_of_getLast? hc)
    cases i <;> first | rfl | cases hp

theorem Computes.executes {value : Option Operand} {code : List Instr}
    {x : Store R → Eval W (Value R)} (h : Computes cx world st st' value code x)
    (hc : cx.Covers st) :
    Executes cx world st st' code fun _ σ w => .after (x σ) w fun _ w => .done σ w where
  advances := h.advances
  labelled := labelled_of_plain h.plain
  returns := by simp [getLast?_not_return h.plain]
  follows _ whole _ _ _ _ σ cells w hm :=
    .after h.plain (h.delivers whole σ cells w hm) fun _ cells' _ hag _ =>
      ⟨0, cells', .refl _ _, hm.of_agree hc hag⟩

theorem Computes.executes_move {o : Operand} {code : List Instr} {target : String}
    {x : Store R → Eval W (Value R)} (h : Computes cx world st st' (some o) code x)
    (hc : cx.Covers st) :
    Executes cx world st st' (code ++ [.move target o]) fun _ σ w =>
      .after (x σ) w fun v w => .done (σ.set target v) w where
  advances := h.advances
  labelled := labelled_of_plain fun i hi => by
    rcases List.mem_append.mp hi with hi | hi
    · exact h.plain i hi
    · rw [List.mem_singleton.mp hi]
      rfl
  returns := by simp [Instr.isReturn]
  follows n whole before rest hw hl σ cells w hm := by
    rw [List.append_assoc]
    refine .after h.plain (h.delivers whole σ cells w hm) fun v cells' w' hag hv => ?_
    refine ⟨1, _, .of_step rfl, fun name hn => ?_⟩
    have hread : readOperand (Machine.named world whole).loc cells' o = v := hv o rfl
    have hrest := hm.of_agree hc hag name hn
    simp only [Machine.store, Machine.named, Instr.def?, Store.set_apply, id_eq, hrest]
    split
    · exact hread
    · rfl

theorem Computes.executes_ret {o : Operand} {code : List Instr} {x : Store R → Eval W (Value R)}
    (h : Computes cx world st st' (some o) code x) :
    Executes cx world st st' (code ++ [.ret (some o)]) fun _ σ w =>
      .after (x σ) w fun v w => .stopped (.returned (some v)) w where
  advances := h.advances
  labelled := (labelled_of_plain h.plain).perm (by simp [labels_cons, labelName?])
  returns _ n σ w σ' w' hdone := by
    unfold Progress.after at hdone
    split at hdone <;> cases hdone
  follows n whole before rest hw hl σ cells w hm := by
    rw [List.append_assoc]
    refine .after h.plain (h.delivers whole σ cells w hm) fun v cells' w' hag hv => ?_
    have hread : readOperand (Machine.named world whole).loc cells' o = v := hv o rfl
    refine ⟨1, Machine.run_of_step ?_⟩
    simp only [List.singleton_append, Machine.step, Option.map_some, hread]

theorem executes_ret_none :
    Executes cx world st st [.ret none] fun _ _ w => .stopped (.returned none) w where
  advances := .refl st
  labelled := ⟨by simp [labels_cons, labelName?], by simp [labels_cons, labelName?]⟩
  returns _ n σ w σ' w' hdone := by cases hdone
  follows _ _ _ _ _ _ _ _ _ _ := ⟨1, Machine.run_of_step rfl⟩

/-! ### Statements -/

theorem load_computes {e : Expr} {b : Subtree} {hint : ValueType} {v : Loaded} (hb : b.IsExpr e)
    (hc : cx.Covers st) (h : load cx hint b.toShape st = .ok (v, st')) :
    Computes cx world st st' (some v.operand) v.code
      fun σ => eval (cx.setting world) σ e := by
  obtain ⟨l, st₁, hl, hv⟩ := bind_ok h
  obtain ⟨rfl, rfl⟩ := loaded_ok hv
  exact ((lowerExpr_computes cx world e).of_isExpr hb hc hl).2

theorem lowerTarget_computes {target : String} {array : Operand} {fetch : List Instr}
    (hc : cx.Covers st) (h : lowerTarget cx target st = .ok ((array, fetch), st')) :
    Computes cx world st st' (some array) fetch
      fun σ => evalName (cx.setting world) σ target := by
  unfold lowerTarget at h
  unfold evalName
  simp only [Context.setting]
  rcases hr : cx.resolve target with _ | ⟨_ | _ | _, symbol⟩ <;> simp only [hr] at h ⊢
  case none => exact absurd h fail_ne_ok
  case some.field =>
    obtain ⟨dst, _, ht, h⟩ := bind_ok h
    cases pure_ok h
    exact computes_ownField hc ht
  all_goals
    have hdecl : cx.Declares target := .inl (by simp [hr])
    cases pure_ok h
    refine .of_operand ?_ fun σ cells hm => hm target hdecl
    rintro _ ⟨⟩
    exact hc target hdecl

omit [DecidableEq R] in
theorem after_bind {α β : Type} (x : Eval W α) (f : α → Eval W β) (w : W)
    (next : β → W → Progress R W) :
    Progress.after (x >>= f) w next
      = .after x w fun a w => .after (f a) w next := by
  unfold Progress.after
  rw [Eval.bind_apply]
  rcases x w with ⟨_ | a, w'⟩ <;> rfl

theorem lowerAssign_executes {target : String} {e : Expr} {b : Subtree} {code : List Instr}
    (hb : b.IsExpr e) (hc : cx.Covers st)
    (h : lowerAssign cx target b.toShape st = .ok (code, st')) :
    Executes cx world st st' code fun n => exec (cx.setting world) n (.assign target e) := by
  unfold lowerAssign at h
  have he : (fun n => exec (cx.setting world) n (.assign target e)) = fun _ σ w =>
      .after (eval (cx.setting world) σ e) w fun v w =>
        assignName (cx.setting world) σ target v w := by
    funext n σ w
    rw [exec]
  rw [he]
  simp only [assignName, Context.setting]
  rcases hr : cx.resolve target with _ | ⟨_ | _ | _, symbol⟩ <;> simp only [hr] at h ⊢
  case none => exact absurd h fail_ne_ok
  case some.field =>
    obtain ⟨v, st₁, hv, h⟩ := bind_ok h
    cases pure_ok h
    have hcomp : Computes cx world st st' _ _ _ := load_computes hb hc hv
    have hall := (computes_this hc).cons hc (hcomp.cons hc .nil)
    rw [List.append_nil, List.nil_append] at hall
    have hput :=
      (hall.for_effect (i := .putField (.var thisName) target (.ofTy symbol.ty) v.operand)
      rfl rfl (f := world.perform (.putField target)) fun cells => rfl).executes hc
    simpa [after_bind, Context.setting] using hput
  all_goals
    obtain ⟨v, st₁, hv, h⟩ := bind_ok h
    cases pure_ok h
    exact (load_computes hb hc hv).executes_move hc

/-- What lowering makes of the node of a statement: code that does what the statement does. -/
def ExecutesRight (cx : Context) (world : World R W) (s : Stmt) : Prop :=
  ∀ (i : NodeId) (p : Position) (cs : List Subtree) (st : State) (code : List Instr) (st' : State),
    List.Forall₂ Subtree.Reads cs s.parts → cx.Covers st →
    lowerStmt cx (.node i s.kind p (cs.map fun c _ => c.toShape)) st = .ok (code, st') →
    Executes cx world st st' code fun n => exec (cx.setting world) n s

theorem ExecutesRight.of_isStmt {s : Stmt} (h : ExecutesRight cx world s) {b : Subtree}
    {code : List Instr} (hb : b.IsStmt s) (hc : cx.Covers st)
    (hl : lowerStmt cx b.toShape st = .ok (code, st')) :
    Executes cx world st st' code fun n => exec (cx.setting world) n s := by
  obtain ⟨i, p, cs, rfl, hcs⟩ := Subtree.isStmt_iff.mp hb
  rw [Subtree.toShape_node] at hl
  exact h i p cs st code st' hcs hc hl

/-- **Statements one after the other.** -/
theorem lowerStmts_executes {ss : List Stmt} (hss : ∀ s ∈ ss, ExecutesRight cx world s) :
    ∀ {cs : List Subtree} {st st' : State} {code : List Instr},
      List.Forall₂ Subtree.IsStmt cs ss → cx.Covers st →
      lowerStmts cx (cs.map fun c _ => c.toShape) st = .ok (code, st') →
      Executes cx world st st' code fun n => execAll (cx.setting world) n ss := by
  induction ss with
  | nil =>
    intro cs st st' code hcs hc h
    cases hcs
    cases pure_ok h
    exact .nil
  | cons s ss ih =>
    intro cs st st' code hcs hc h
    obtain ⟨c, cs, hcs', hrest, rfl⟩ := List.forall₂_cons_right_iff.mp hcs
    simp only [List.map_cons, lowerStmts] at h
    obtain ⟨a, st₁, ha, h₁⟩ := bind_ok h
    obtain ⟨b, st₂, hb, h₂⟩ := bind_ok h₁
    cases pure_ok h₂
    have hfirst := (hss s (by simp)).of_isStmt hcs' hc ha
    exact hfirst.append (ih (fun s hs => hss s (by simp [hs])) hrest (hc.mono hfirst.advances) hb)

theorem executesRight_arrayAssign (target : String) (index value : Expr) :
    ExecutesRight cx world (.arrayAssign target index value) := by
  intro i p cs st code st' hcs hc h
  obtain ⟨bi, bv, rfl, hbi, hbv⟩ := Subtree.forall₂_two hcs
  simp only [Stmt.kind, List.map_cons, lowerStmt] at h
  obtain ⟨⟨array, fetch⟩, st₁, ht, h⟩ := bind_ok h
  obtain ⟨vi, st₂, hi, h⟩ := bind_ok h
  obtain ⟨vv, st₃, hv, h⟩ := bind_ok h
  cases pure_ok h
  have hct : Computes cx world st st₁ _ _ _ := lowerTarget_computes hc ht
  have hc₁ := hc.mono hct.advances
  have hci : Computes cx world st₁ st₂ _ _ _ := load_computes hbi hc₁ hi
  have hc₂ := hc₁.mono hci.advances
  have hcv : Computes cx world st₂ st' _ _ _ := load_computes hbv hc₂ hv
  have hall := hct.cons hc (hci.cons hc₁ (hcv.cons hc₂ .nil))
  rw [List.append_nil, ← List.append_assoc] at hall
  have hstore := (hall.for_effect (i := .arrayStore array vi.operand vv.operand) rfl rfl
    (f := world.perform .arrayStore) fun cells => rfl).executes hc
  simpa [exec, Context.setting] using hstore

theorem executesRight_ret (value : Option Expr) : ExecutesRight cx world (.ret value) := by
  intro i p cs st code st' hcs hc h
  rcases value with _ | e
  · cases hcs
    simp only [Stmt.kind, List.map_nil, lowerStmt] at h
    cases pure_ok h
    simp only [exec]
    exact executes_ret_none
  · obtain ⟨c, rfl, hce⟩ := Subtree.forall₂_one hcs
    simp only [Stmt.kind, List.map_cons, lowerStmt] at h
    obtain ⟨v, st₁, hv, h⟩ := bind_ok h
    cases pure_ok h
    simp only [exec]
    exact (load_computes hce hc hv).executes_ret

/-- The number, the condition and the body of a conditional or a loop, before what follows. -/
theorem ExecutesRight.guarded_ok {α : Type} {body : Stmt} (hb : ExecutesRight cx world body)
    {stem : String} {cond : Expr} {bc bb : Subtree} {f : Nat → Loaded → List Instr → Lower α}
    {r : α × State} (hbc : bc.IsExpr cond) (hbb : bb.IsStmt body) (hc : cx.Covers st)
    (h : (nextNumber stem >>= fun n => load cx .boolean bc.toShape >>= fun v =>
      lowerStmt cx bb.toShape >>= f n v) st = .ok r) :
    ∃ n v inner st₁ st₂ st₃, nextNumber stem st = .ok (n, st₁) ∧ cx.Covers st₁ ∧
      Computes cx world st₁ st₂ (some v.operand) v.code
        (fun σ => eval (cx.setting world) σ cond) ∧
      Executes cx world st₂ st₃ inner (fun n => exec (cx.setting world) n body) ∧
      cx.Covers st₃ ∧ f n v inner st₃ = .ok r := by
  obtain ⟨n, st₁, hn, h⟩ := bind_ok h
  have hc₁ := hc.mono (nextNumber_advances hn)
  obtain ⟨v, st₂, hv, h⟩ := bind_ok h
  obtain ⟨inner, st₃, hl, h⟩ := bind_ok h
  have hcond : Computes cx world st₁ st₂ _ _ _ := load_computes hbc hc₁ hv
  have hc₂ := hc₁.mono hcond.advances
  have hbody := hb.of_isStmt hbb hc₂ hl
  exact ⟨n, v, inner, st₁, st₂, st₃, hn, hc₁, hcond, hbody, hc₂.mono hbody.advances, h⟩

theorem executesRight_ifThen {body : Stmt} (cond : Expr) (hb : ExecutesRight cx world body) :
    ExecutesRight cx world (.ifThen cond body) := by
  intro i p cs st code st' hcs hc h
  obtain ⟨bc, bb, rfl, hbc, hbb⟩ := Subtree.forall₂_two hcs
  simp only [Stmt.kind, List.map_cons, List.map_nil, lowerStmt] at h
  obtain ⟨n, v, inner, st₁, st₂, st₃, hn, hc₁, hcond, hbody, -, h⟩ := hb.guarded_ok hbc hbb hc h
  cases pure_ok h
  simp only [exec]
  exact .conditional hc₁ hn hcond hbody .nil

theorem executesRight_ifElse {body otherwise : Stmt} (cond : Expr)
    (hb : ExecutesRight cx world body) (ho : ExecutesRight cx world otherwise) :
    ExecutesRight cx world (.ifElse cond body otherwise) := by
  intro i p cs st code st' hcs hc h
  obtain ⟨bc, bb, bo, rfl, hbc, hbb, hbo⟩ := Subtree.forall₂_three hcs
  simp only [Stmt.kind, List.map_cons, List.map_nil, lowerStmt] at h
  obtain ⟨n, v, inner, st₁, st₂, st₃, hn, hc₁, hcond, hbody, hc₃, h⟩ := hb.guarded_ok hbc hbb hc h
  obtain ⟨other, st₄, hl, h⟩ := bind_ok h
  cases pure_ok h
  simp only [exec]
  exact .conditional hc₁ hn hcond hbody (ho.of_isStmt hbo hc₃ hl)

theorem executesRight_whileDo {body : Stmt} (cond : Expr) (hb : ExecutesRight cx world body) :
    ExecutesRight cx world (.whileDo cond body) := by
  intro i p cs st code st' hcs hc h
  obtain ⟨bc, bb, rfl, hbc, hbb⟩ := Subtree.forall₂_two hcs
  simp only [Stmt.kind, List.map_cons, List.map_nil, lowerStmt] at h
  obtain ⟨n, v, inner, st₁, st₂, st₃, hn, hc₁, hcond, hbody, -, h⟩ := hb.guarded_ok hbc hbb hc h
  cases pure_ok h
  have hloop : Executes cx world st st' _ _ := .loop hc₁ hn hcond hbody
  have he : (fun n => exec (cx.setting world) n (.whileDo cond body))
      = fun k => repeatWhile (fun σ => eval (cx.setting world) σ cond)
        (exec (cx.setting world) k body) k := by
    funext k σ w
    rw [exec]
  rw [he]
  exact hloop

/-- **The code of a statement does what the statement does.** -/
theorem lowerStmt_executes (cx : Context) (world : World R W) (s : Stmt) :
    ExecutesRight cx world s := by
  induction s with
  | assign target value =>
    intro i p cs st code st' hcs hc h
    obtain ⟨c, rfl, hce⟩ := Subtree.forall₂_one hcs
    simp only [Stmt.kind, List.map_cons, lowerStmt] at h
    exact lowerAssign_executes hce hc h
  | arrayAssign target index value => exact executesRight_arrayAssign target index value
  | ret value => exact executesRight_ret value
  | ifThen cond body ih => exact executesRight_ifThen cond ih
  | ifElse cond body otherwise ihb iho => exact executesRight_ifElse cond ihb iho
  | whileDo cond body ih => exact executesRight_whileDo cond ih
  | block body ih =>
    intro i p cs st code st' hcs hc h
    rw [Stmt.kind, lowerStmt_block] at h
    simp only [exec_block]
    rw [Stmt.parts, List.forall₂_map_right_iff] at hcs
    exact lowerStmts_executes ih hcs hc h
  | expr value =>
    intro i p cs st code st' hcs hc h
    obtain ⟨c, rfl, hce⟩ := Subtree.forall₂_one hcs
    simp only [Stmt.kind, List.map_cons, lowerStmt] at h
    obtain ⟨l, st₁, hl, h⟩ := bind_ok h
    cases pure_ok h
    simp only [exec]
    exact ((lowerExpr_computes cx world value).of_isExpr hce hc hl).2.executes hc

end Classlet.Lowering
