import Classlet.Proofs.Analysis.FailFast
import Classlet.Proofs.Compilation.Causes
import Classlet.Proofs.Registers.Execution

/-!
# Results of compilations

A compilation that comes to an end does so in one of five ways (`Compilation.Arises`): without a
symbol table, with reports of the declarations or of the analysis, stopped in the optimizer, stopped
in lowering, or with code.  Every stage reports errors only, and register allocation reports exactly
the methods it leaves without registers.  So the parts of a result and the tree that is left agree
with each other.

Main statement: `compile_result`.
-/

namespace Classlet

open Ir

/-! ### Registers -/

namespace Registers

/-- The report that a method was left without registers. -/
def ReportsBudget (mode : Mode) (r : Report) (m : MethodCode) : Prop :=
  ∃ required available, mode = .limit available ∧ available < required ∧
    r = .ofError .optimization .unknown (.registerBudget m.name required available)

/-- A method has its registers and no report, or no registers and one report. -/
theorem allocateMethod_cases {mode : Mode} (h : mode ≠ .disabled) (m : MethodCode) :
    ((allocateMethod mode m).1.registers.isSome = true ∧ (allocateMethod mode m).2 = []) ∨
      (allocateMethod mode m).1.registers = none ∧
        ∃ r, (allocateMethod mode m).2 = [r] ∧ ReportsBudget mode r (allocateMethod mode m).1 := by
  cases mode with
  | disabled => exact absurd rfl h
  | minimize => exact .inl ⟨rfl, rfl⟩
  | limit available =>
    by_cases hb : available < colorCount (localColors m).bound
    · have halloc : allocate (.limit available) m
          = .error (.registerBudget m.name (colorCount (localColors m).bound) available) := by
        simp only [allocate, if_pos hb]
        rfl
      rw [allocateMethod, halloc]
      exact .inr ⟨rfl, _, rfl, _, _, rfl, hb, rfl⟩
    · have halloc : allocate (.limit available) m = .ok (some (layout m (localColors m))) := by
        simp only [allocate, if_neg hb]
        rfl
      rw [allocateMethod, halloc]
      exact .inl ⟨rfl, rfl⟩

/-- **One report for each method without registers, in their order.** -/
theorem forall₂_allocateClass {mode : Mode} (h : mode ≠ .disabled) (c : ClassCode) :
    List.Forall₂ (ReportsBudget mode) (allocateClass mode c).2
      ((allocateClass mode c).1.methods.filter (·.registers.isNone)) := by
  simp only [allocateClass]
  induction c.methods with
  | nil => exact .nil
  | cons m ms ih =>
    simp only [List.map_cons, List.flatMap_cons, List.filter_cons]
    rcases allocateMethod_cases h m with ⟨hsome, hnone⟩ | ⟨hnone, r, hr, hreports⟩
    · have hkeep : ¬(allocateMethod mode m).1.registers.isNone = true := by
        rw [← Option.not_isSome, hsome]
        simp
      rw [hnone, if_neg hkeep]
      exact ih
    · rw [hr, if_pos (Option.isNone_iff_eq_none.mpr hnone)]
      exact .cons hreports ih

theorem allocateClass_disabled (c : ClassCode) : (allocateClass .disabled c).2 = [] := by
  simp only [allocateClass]
  induction c.methods with
  | nil => rfl
  | cons m ms ih =>
    rw [List.map_cons, List.flatMap_cons, ih]
    rfl

theorem isError_of_mem_allocateClass {mode : Mode} {c : ClassCode} :
    ∀ r ∈ (allocateClass mode c).2, r.isError = true := by
  intro r hr
  by_cases h : mode = .disabled
  · rw [h, allocateClass_disabled] at hr
    cases hr
  · obtain ⟨m, -, required, available, -, -, rfl⟩ :=
      Subtree.forall₂_of_mem_left (forall₂_allocateClass h c) hr
    rfl

end Registers

/-! ### The ways a compilation ends -/

namespace Compilation

variable {options : Options} {t t' : Tree} {c : Compilation}

/-- How a compilation of `t` with the given result comes about, and the tree it leaves. -/
inductive Arises (options : Options) (t : Tree) : Compilation → Tree → Prop
  | noTable {e : Error} (h : t.symbolTable = .error (.error e)) :
      Arises options t (withoutTable t e) t
  | rejected {table : SymbolTable} {found : List Report} (h : t.symbolTable = .ok (table, found))
      (hne : found ++ analyze options.externalTypes t table ≠ []) :
      Arises options t ⟨some table, none, found ++ analyze options.externalTypes t table⟩ t
  | notOptimized {table : SymbolTable} {e : Error} {t' : Tree}
      (h : t.symbolTable = .ok (table, [])) (ha : analyze options.externalTypes t table = [])
      (ho : optimizeIf options table t = (.error (.error e), t')) :
      Arises options t (stopped t' table [] e) t'
  | notLowered {table : SymbolTable} {e : Error} {t' : Tree}
      (h : t.symbolTable = .ok (table, [])) (ha : analyze options.externalTypes t table = [])
      (ho : optimizeIf options table t = (.ok (), t')) (hl : t'.lower table = .error (.error e)) :
      Arises options t (stopped t' table [] e) t'
  | lowered {table : SymbolTable} {code : ClassCode} {t' : Tree}
      (h : t.symbolTable = .ok (table, [])) (ha : analyze options.externalTypes t table = [])
      (ho : optimizeIf options table t = (.ok (), t')) (hl : t'.lower table = .ok code) :
      Arises options t ⟨some table, some (Registers.allocateClass options.registers code).1,
        (Registers.allocateClass options.registers code).2⟩ t'

theorem isSemanticError_of_mem_checked (options : Options) {table : SymbolTable}
    {found : List Report} (h : t.symbolTable = .ok (table, found)) :
    ∀ r ∈ found ++ analyze options.externalTypes t table, r.IsSemanticError := by
  refine List.forall_mem_append.mpr ⟨fun r hr => ?_, isSemanticError_of_mem_analyzeWith⟩
  obtain ⟨f, rfl⟩ := Tree.symbolTable_findings h r hr
  exact ⟨rfl, rfl⟩

/-- **The five ways in which a compilation comes to an end.** -/
theorem arises_of_compile (h : compile options t = .ok (c, t')) : Arises options t c t' := by
  unfold compile at h
  rcases ht : t.symbolTable with (e | f) | ⟨table, found⟩ <;> rw [ht] at h
  · cases h
    exact .noTable ht
  · cases h
  · rw [ofTable] at h
    have herrors := fun r hr => (isSemanticError_of_mem_checked options ht r hr).2
    split at h
    · next herror =>
      cases h
      refine .rejected ht ?_
      rw [Ne, ← Report.anyError_eq_false_iff herrors, herror]
      simp
    · next hno =>
      -- from here on nothing has been reported
      have hnil := (Report.anyError_eq_false_iff herrors).mp (Bool.eq_false_iff.mpr hno)
      obtain ⟨rfl, ha⟩ := List.append_eq_nil_iff.mp hnil
      rcases ho : optimizeIf options table t with ⟨(e | f) | ⟨⟩, t₁⟩ <;> rw [ho, hnil] at h
      · cases h
        exact .notOptimized ht ha ho
      · cases h
      · simp only [ofOptimized] at h
        rcases hl : t₁.lower table with (e | f) | code <;> rw [hl] at h
        · cases h
          exact .notLowered ht ha ho hl
        · cases h
        · cases h
          exact .lowered ht ha ho hl

namespace Arises

theorem symbols_eq_none_iff (h : Arises options t c t') :
    c.symbols = none ↔ ∃ e, t.symbolTable = .error (.error e) := by
  cases h with
  | noTable h => exact ⟨fun _ => ⟨_, h⟩, fun _ => rfl⟩
  | rejected h | notOptimized h | notLowered h | lowered h =>
    rw [h]
    simp [stopped]

theorem of_symbols_eq_none (h : Arises options t c t') (hnone : c.symbols = none) :
    c.ir = none ∧ ∃ r, c.reports = [r] := by
  cases h with
  | noTable => exact ⟨rfl, _, rfl⟩
  | _ => cases hnone

theorem of_ir_eq_some {code : ClassCode} (h : Arises options t c t') (hcode : c.ir = some code) :
    c.symbols.isSome = true ∧ (options.registers = .disabled → c.reports = []) ∧
      (options.registers ≠ .disabled → List.Forall₂ (Registers.ReportsBudget options.registers)
        c.reports (code.methods.filter (·.registers.isNone))) := by
  cases h with
  | lowered =>
    cases hcode
    refine ⟨rfl, fun hdisabled => ?_, fun hmode => Registers.forall₂_allocateClass hmode _⟩
    rw [hdisabled]
    exact Registers.allocateClass_disabled _
  | _ => cases hcode

theorem isError_of_mem_reports (h : Arises options t c t') : ∀ r ∈ c.reports, r.isError = true := by
  cases h with
  | noTable | notOptimized | notLowered => exact List.forall_mem_singleton.mpr rfl
  | rejected h => exact fun r hr => (isSemanticError_of_mem_checked options h r hr).2
  | lowered => exact Registers.isError_of_mem_allocateClass

theorem anyError_iff (h : Arises options t c t') :
    Report.anyError c.reports = false ↔ c.reports = [] :=
  Report.anyError_eq_false_iff h.isError_of_mem_reports

theorem anyError_of_ir_eq_none (h : Arises options t c t') (hnone : c.ir = none) :
    Report.anyError c.reports = true := by
  rw [← Bool.not_eq_false, h.anyError_iff]
  cases h with
  | rejected _ hne => exact hne
  | lowered => cases hnone
  | _ => simp [withoutTable, stopped]

theorem isSuccess_iff (h : Arises options t c t') :
    c.isSuccess = true ↔ c.ir.isSome = true ∧ c.reports = [] := by
  rw [isSuccess, Bool.and_eq_true, Bool.not_eq_true', h.anyError_iff]

theorem optimizeIf_of_not_optimize {table : SymbolTable} (h : options.optimize = false) :
    optimizeIf options table t = (.ok (), t) := by
  rw [optimizeIf, h]
  rfl

theorem optimizeIf_of_optimize {table : SymbolTable} {stats : Optimize.Stats}
    (h : options.optimize = true) (hrun : Optimize.optimize table t = (.ok stats, t')) :
    optimizeIf options table t = (.ok (), t') := by
  rw [optimizeIf, if_pos h, show (Optimize.optimize table).run.run t = (.ok stats, t') from hrun]
  rfl

/-- The optimizer is run only if it is asked for and nothing was reported before. -/
theorem tree_eq (h : Arises options t c t')
    (hcase : options.optimize = false ∨ (∃ e, t.symbolTable = .error (.error e)) ∨
      ∃ table found, t.symbolTable = .ok (table, found) ∧
        (found ≠ [] ∨ analyze options.externalTypes t table ≠ [])) : t' = t := by
  have hrun : ∀ {table : SymbolTable} {result : Except Halt Unit},
      t.symbolTable = .ok (table, []) → analyze options.externalTypes t table = [] →
      optimizeIf options table t = (result, t') → t' = t := by
    intro table result h ha ho
    rcases hcase with hoff | ⟨e, he⟩ | ⟨table, found, hfound, hne⟩
    · rw [optimizeIf_of_not_optimize hoff] at ho
      exact (Prod.mk.inj ho).2.symm
    · rw [h] at he
      cases he
    · rw [h] at hfound
      cases hfound
      exact absurd ha (hne.resolve_left (not_not_intro rfl))
  cases h with
  | noTable | rejected => rfl
  | notOptimized h ha ho | notLowered h ha ho | lowered h ha ho => exact hrun h ha ho

end Arises

end Compilation

/-- **The parts of a result agree.**  If a compilation comes to an end, then it has no symbol table
exactly where none could be built, and then there is one report and no code.  With code there is a
symbol table, and one report of too few registers for each method left without any, in the order of
the methods; none where no registers are asked for.  Without code there is an error.  It is a success
exactly if there is code and no report.  The tree is left as it was, unless the optimizer was asked
for and nothing was reported before it. -/
theorem compile_result {options : Options} {t t' : Tree} {c : Compilation}
    (h : compile options t = .ok (c, t')) :
    (c.symbols = none ↔ ∃ e, t.symbolTable = .error (.error e)) ∧
    (c.symbols = none → c.ir = none ∧ ∃ r, c.reports = [r]) ∧
    (∀ code, c.ir = some code → c.symbols.isSome = true ∧
      (options.registers = .disabled → c.reports = []) ∧
      (options.registers ≠ .disabled → List.Forall₂ (Registers.ReportsBudget options.registers)
        c.reports (code.methods.filter (·.registers.isNone)))) ∧
    (c.ir = none → Report.anyError c.reports = true) ∧
    (c.isSuccess = true ↔ c.ir.isSome = true ∧ c.reports = []) ∧
    (options.optimize = false ∨ (∃ e, t.symbolTable = .error (.error e)) ∨
      (∃ table found, t.symbolTable = .ok (table, found) ∧
        (found ≠ [] ∨ analyze options.externalTypes t table ≠ [])) → t' = t) := by
  have harises := Compilation.arises_of_compile h
  exact ⟨harises.symbols_eq_none_iff, harises.of_symbols_eq_none,
    fun code hcode => harises.of_ir_eq_some hcode, harises.anyError_of_ir_eq_none,
    harises.isSuccess_iff, harises.tree_eq⟩

/-- Without registers for local variables the one method of a program is left without any and
reported, and its code is kept. -/
theorem compile_result_oneByOne :
    ∃ c t' code, compile { optimize := true, registers := .limit 0 } Registers.oneByOne.build
        = .ok (c, t') ∧ c.ir = some code ∧
      List.Forall₂ (Registers.ReportsBudget (.limit 0)) c.reports
        (code.methods.filter (·.registers.isNone)) ∧
      c.reports.length = 1 ∧ (c.isSuccess = true ↔ c.ir.isSome = true ∧ c.reports = []) := by
  have hrun : (Registers.onlyMethod? (compile { optimize := true, registers := .limit 0 }
      Registers.oneByOne.build)).any (fun r => decide (r.1.reports.length = 1)) = true := by
    decide +kernel
  obtain ⟨⟨c, method⟩, honly, hone⟩ := (Option.any_eq_true _ _).mp hrun
  obtain ⟨t', code, hcompile, hcode, -⟩ := Registers.exists_of_onlyMethod? honly
  obtain ⟨-, -, hreports, -, hsuccess, -⟩ := compile_result hcompile
  exact ⟨c, t', code, hcompile, hcode, (hreports code hcode).2.2 (by decide),
    of_decide_eq_true hone, hsuccess⟩

end Classlet
