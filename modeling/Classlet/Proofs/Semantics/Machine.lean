import Classlet.Ir.Instr
import Classlet.Proofs.Semantics.World

/-!
# Meaning of instruction lists

A machine runs a list of instructions.  Its variables live in cells, and a map `loc` says which
variable lives in which: with the identity every name has a cell of its own, with a register
assignment some names share one.  A jump goes on behind the first label of its name.

* `run_mono`: a machine that has ended stays ended.
* `Leads`, `Leads.trans`: one configuration leads to another in a number of steps.
* `effect_congr`: what an instruction computes depends on the operands it reads only.
* `leads_runPlain`, `run_runPlain_none`: instructions without jumps run one after the other.
-/

namespace Classlet.Semantics

open Classlet.Ir

/-- The instructions that compute something and go on with the next one. -/
def isPlain : Instr → Bool
  | .ret _ | .label _ | .jump _ | .jumpIf _ _ => false
  | _ => true

/-- The value of an operand, with the variables in their cells. -/
def readOperand {κ R : Type} (loc : String → κ) (cells : κ → Value R) : Operand → Value R
  | .var name => cells (loc name)
  | .const n => .word n

/-- The code behind the first label of a name. -/
def codeBehind (target : String) : List Instr → Option (List Instr)
  | [] => none
  | i :: rest => if i = .label target then some rest else codeBehind target rest

section Effect

variable {R W : Type} [DecidableEq R]

/-- What a plain instruction computes from the values of its operands. -/
def effect (world : World R W) (read : Operand → Value R) : Instr → Eval W (Value R)
  | .move _ src => return read src
  | .binary _ op lhs rhs => .ofOption (applyBinary op (read lhs) (read rhs))
  | .unary _ op src => .ofOption (applyUnary op (read src))
  | .getField _ object field _ => world.perform (.getField field) [read object]
  | .putField object field _ value => world.perform (.putField field) [read object, read value]
  | .newObject _ className => world.perform (.newObject className) []
  | .invokeSpecial object className method =>
    world.perform (.construct className method) [read object]
  | .invokeStatic _ className method args _ =>
    world.perform (.callStatic className method) (args.map read)
  | .invokeVirtual _ object className method args _ =>
    world.perform (.callVirtual className method) (read object :: args.map read)
  | .newArray _ size => world.perform .newArray [read size]
  | .arrayLength _ array => world.perform .arrayLength [read array]
  | .arrayLoad _ array index => world.perform .arrayLoad [read array, read index]
  | .arrayStore array index value =>
    world.perform .arrayStore [read array, read index, read value]
  | .ret _ | .label _ | .jump _ | .jumpIf _ _ => .trap

end Effect

/-! ### The machine -/

/-- The instructions still to be run, the cells and the world. -/
structure Config (κ R W : Type) where
  rest : List Instr
  cells : κ → Value R
  world : W

/-- A machine: the world it acts on, the cells of its variables and the whole code. -/
structure Machine (κ R W : Type) where
  world : World R W
  loc : String → κ
  code : List Instr

namespace Machine

variable {κ R W : Type} [DecidableEq κ] [DecidableEq R]

/-- The cells after an instruction that writes `dst?` has computed a value. -/
def store (m : Machine κ R W) (cells : κ → Value R) (dst? : Option String) (v : Value R) :
    κ → Value R :=
  match dst? with
  | some dst => fun cell => if cell = m.loc dst then v else cells cell
  | none => cells

/-- Goes on behind a label; a label that is not there traps. -/
def goto (m : Machine κ R W) (c : Config κ R W) (target : String) :
    Config κ R W ⊕ Outcome R × W :=
  match codeBehind target m.code with
  | some rest => .inl { c with rest }
  | none => .inr (.trapped, c.world)

/-- The machine with a cell of its own for every name. -/
def named (world : World R W) (code : List Instr) : Machine String R W := ⟨world, id, code⟩

/-- One step: the next configuration, or how the run ends and in which world. -/
def step (m : Machine κ R W) (c : Config κ R W) : Config κ R W ⊕ Outcome R × W :=
  match c.rest with
  | [] => .inr (.completed, c.world)
  | i :: rest =>
    match i with
    | .ret value => .inr (.returned (value.map (readOperand m.loc c.cells)), c.world)
    | .label _ => .inl { c with rest }
    | .jump target => m.goto c target
    | .jumpIf cond target =>
      if (readOperand m.loc c.cells cond).isTrue then m.goto c target else .inl { c with rest }
    | i =>
      match effect m.world (readOperand m.loc c.cells) i c.world with
      | (some v, w) => .inl ⟨rest, m.store c.cells i.def? v, w⟩
      | (none, w) => .inr (.trapped, w)

/-- How the run ends and in which world, if it does so within `n` steps. -/
def run (m : Machine κ R W) : Nat → Config κ R W → Option (Outcome R × W)
  | 0, _ => none
  | n + 1, c =>
    match m.step c with
    | .inl c' => m.run n c'
    | .inr result => some result

/-- The whole code, started with the given cells, ends with an outcome and leaves the world in a
state. -/
def Ends (m : Machine κ R W) (cells : κ → Value R) (w : W) (o : Outcome R) (w' : W) : Prop :=
  ∃ n, m.run n ⟨m.code, cells, w⟩ = some (o, w')

theorem step_plain (m : Machine κ R W) {i : Instr} (h : isPlain i = true) (rest : List Instr)
    (cells : κ → Value R) (w : W) :
    m.step ⟨i :: rest, cells, w⟩ = match effect m.world (readOperand m.loc cells) i w with
      | (some v, w') => .inl ⟨rest, m.store cells i.def? v, w'⟩
      | (none, w') => .inr (.trapped, w') := by
  cases i <;> first | rfl | simp [isPlain] at h

theorem run_succ (m : Machine κ R W) (n : Nat) (c : Config κ R W) :
    m.run (n + 1) c = match m.step c with
      | .inl c' => m.run n c'
      | .inr result => some result := rfl

/-- **A machine that has ended stays ended.** -/
theorem run_mono (m : Machine κ R W) : ∀ {n k : Nat} {c : Config κ R W} {r : Outcome R × W},
    m.run n c = some r → n ≤ k → m.run k c = some r
  | 0, _, _, _, h, _ => by simp [run] at h
  | n + 1, 0, _, _, _, hk => by omega
  | n + 1, k + 1, c, r, h, hk => by
    rw [run_succ] at h ⊢
    rcases hs : m.step c with c' | r' <;> rw [hs] at h
    · exact m.run_mono (n := n) h (by omega)
    · exact h

theorem run_eq_none_of_le (m : Machine κ R W) {n k : Nat} {c : Config κ R W}
    (h : m.run k c = none) (hn : n ≤ k) : m.run n c = none := by
  rcases hr : m.run n c with _ | r
  · rfl
  · rw [m.run_mono hr hn] at h
    cases h

theorem Ends.unique {m : Machine κ R W} {cells : κ → Value R} {w w₁ w₂ : W} {o₁ o₂ : Outcome R}
    (h₁ : m.Ends cells w o₁ w₁) (h₂ : m.Ends cells w o₂ w₂) : o₁ = o₂ ∧ w₁ = w₂ := by
  obtain ⟨n₁, h₁⟩ := h₁
  obtain ⟨n₂, h₂⟩ := h₂
  have e₁ := m.run_mono h₁ (Nat.le_max_left n₁ n₂)
  have e₂ := m.run_mono h₂ (Nat.le_max_right n₁ n₂)
  rw [e₁] at e₂
  simpa using e₂

/-! ### Runs of a number of steps -/

/-- The machine gets from one configuration to another in `n` steps. -/
def Leads (m : Machine κ R W) (n : Nat) (c c' : Config κ R W) : Prop :=
  ∀ k, m.run (n + k) c = m.run k c'

theorem Leads.refl (m : Machine κ R W) (c : Config κ R W) : m.Leads 0 c c := fun k => by
  rw [Nat.zero_add]

theorem Leads.trans {m : Machine κ R W} {n₁ n₂ : Nat} {c₁ c₂ c₃ : Config κ R W}
    (h₁ : m.Leads n₁ c₁ c₂) (h₂ : m.Leads n₂ c₂ c₃) : m.Leads (n₁ + n₂) c₁ c₃ := fun k => by
  rw [Nat.add_assoc, h₁, h₂]

theorem Leads.of_step {m : Machine κ R W} {c c' : Config κ R W} (h : m.step c = .inl c') :
    m.Leads 1 c c' := fun k => by
  rw [Nat.add_comm, run_succ, h]

theorem Leads.run_some {m : Machine κ R W} {n k : Nat} {c c' : Config κ R W} {r : Outcome R × W}
    (h : m.Leads n c c') (hr : m.run k c' = some r) : m.run (n + k) c = some r := by
  rw [h, hr]

/-- A run that is not at its end after `k` steps from a later configuration is not at its end after
as many from an earlier one. -/
theorem Leads.run_none {m : Machine κ R W} {n k j : Nat} {c c' : Config κ R W}
    (h : m.Leads n c c') (hr : m.run k c' = none) (hj : j ≤ n + k) : m.run j c = none :=
  m.run_eq_none_of_le ((h k).trans hr) hj

theorem run_of_step {m : Machine κ R W} {c : Config κ R W} {r : Outcome R × W}
    (h : m.step c = .inr r) : m.run 1 c = some r := by
  rw [run_succ, h]

theorem leads_label (m : Machine κ R W) (name : String) (rest : List Instr) (cells : κ → Value R)
    (w : W) : m.Leads 1 ⟨.label name :: rest, cells, w⟩ ⟨rest, cells, w⟩ :=
  Leads.of_step rfl

theorem leads_jump (m : Machine κ R W) {target : String} {rest behind : List Instr}
    (h : codeBehind target m.code = some behind) (cells : κ → Value R) (w : W) :
    m.Leads 1 ⟨.jump target :: rest, cells, w⟩ ⟨behind, cells, w⟩ :=
  Leads.of_step (by simp only [step, goto, h])

theorem leads_jumpIf (m : Machine κ R W) {cond : Operand} {target : String}
    {rest behind : List Instr} (h : codeBehind target m.code = some behind) (cells : κ → Value R)
    (w : W) : m.Leads 1 ⟨.jumpIf cond target :: rest, cells, w⟩
      ⟨if (readOperand m.loc cells cond).isTrue then behind else rest, cells, w⟩ :=
  Leads.of_step (by
    simp only [step, goto, h]
    split <;> rfl)

theorem leads_test (m : Machine κ R W) {cond : Operand} {yes no : String}
    {rest whenTrue whenFalse : List Instr} (hy : codeBehind yes m.code = some whenTrue)
    (hn : codeBehind no m.code = some whenFalse) (cells : κ → Value R) (w : W) :
    ∃ n, m.Leads (n + 1) ⟨.jumpIf cond yes :: .jump no :: rest, cells, w⟩
      ⟨if (readOperand m.loc cells cond).isTrue then whenTrue else whenFalse, cells, w⟩ := by
  have hl : m.Leads 1 ⟨.jumpIf cond yes :: .jump no :: rest, cells, w⟩ _ :=
    m.leads_jumpIf hy cells w
  split at hl
  · next ht => exact ⟨0, by rw [if_pos ht]; exact hl⟩
  · next ht => exact ⟨1, by rw [if_neg ht]; exact hl.trans (m.leads_jump hn cells w)⟩

/-! ### Instructions without jumps -/

/-- Runs instructions one after the other, taking each for a plain one. -/
def runPlain (m : Machine κ R W) : List Instr → (κ → Value R) → Eval W (κ → Value R)
  | [], cells => return cells
  | i :: rest, cells => do
    let v ← effect m.world (readOperand m.loc cells) i
    m.runPlain rest (m.store cells i.def? v)

theorem runPlain_append (m : Machine κ R W) : ∀ (a b : List Instr) (cells : κ → Value R) (w : W),
    m.runPlain (a ++ b) cells w = (do m.runPlain b (← m.runPlain a cells) : Eval W _) w
  | [], b, cells, w => rfl
  | i :: a, b, cells, w => by
    simp only [List.cons_append, runPlain]
    rcases h : effect m.world (readOperand m.loc cells) i w with ⟨_ | v, w'⟩
    · rw [Eval.bind_none h, Eval.bind_none (Eval.bind_none h)]
    · rw [Eval.bind_some h, runPlain_append m a b]
      simp only [Eval.bind_apply, h]

theorem leads_runPlain (m : Machine κ R W) : ∀ {code : List Instr} (rest : List Instr)
    {cells cells' : κ → Value R} {w w' : W}, (∀ i ∈ code, isPlain i = true) →
      m.runPlain code cells w = (some cells', w') →
      m.Leads code.length ⟨code ++ rest, cells, w⟩ ⟨rest, cells', w'⟩
  | [], rest, cells, cells', w, w', _, h => by
    have hc : (some cells, w) = (some cells', w') := h
    cases hc
    exact .refl m _
  | i :: code, rest, cells, cells', w, w', hp, h => by
    simp only [runPlain, Eval.bind_apply] at h
    have hs := m.step_plain (hp i (by simp)) (code ++ rest) cells w
    rcases he : effect m.world (readOperand m.loc cells) i w with ⟨_ | v, w₁⟩ <;>
      rw [he] at h hs
    · cases h
    · have hl := leads_runPlain m rest (fun j hj => hp j (by simp [hj])) h
      have := (Leads.of_step hs).trans hl
      rwa [Nat.add_comm] at this

theorem run_runPlain_none (m : Machine κ R W) : ∀ {code : List Instr} (rest : List Instr)
    {cells : κ → Value R} {w w' : W}, (∀ i ∈ code, isPlain i = true) →
      m.runPlain code cells w = (none, w') →
      m.run code.length ⟨code ++ rest, cells, w⟩ = some (.trapped, w')
  | [], rest, cells, w, w', _, h => by cases h
  | i :: code, rest, cells, w, w', hp, h => by
    simp only [runPlain, Eval.bind_apply] at h
    have hs := m.step_plain (hp i (by simp)) (code ++ rest) cells w
    rw [List.length_cons, List.cons_append, run_succ, hs]
    rcases he : effect m.world (readOperand m.loc cells) i w with ⟨_ | v, w₁⟩ <;> rw [he] at h
    · cases h; rfl
    · exact run_runPlain_none m rest (fun j hj => hp j (by simp [hj])) h

end Machine

/-! ### Labels -/

/-- The name a label instruction gives its place. -/
def labelName? : Instr → Option String
  | .label name => some name
  | _ => none

/-- The labels of a list of instructions. -/
def labels (code : List Instr) : List String := code.filterMap labelName?

@[simp]
theorem labels_nil : labels [] = [] := rfl

@[simp]
theorem labels_append (a b : List Instr) : labels (a ++ b) = labels a ++ labels b :=
  List.filterMap_append

theorem labels_cons (i : Instr) (code : List Instr) :
    labels (i :: code) = (labelName? i).toList ++ labels code := by
  cases h : labelName? i <;> simp [labels, h]

/-- A jump to a label that does not occur before goes on right behind it. -/
theorem codeBehind_append {target : String} {behind : List Instr} :
    ∀ {before : List Instr}, target ∉ labels before →
      codeBehind target (before ++ .label target :: behind) = some behind
  | [], _ => by simp [codeBehind]
  | i :: before, h => by
    rw [labels_cons, List.mem_append, not_or] at h
    have hi : i ≠ .label target := fun e => h.1 (by simp [e, labelName?])
    rw [List.cons_append, codeBehind, if_neg hi, codeBehind_append h.2]

end Classlet.Semantics
