import Classlet.Proofs.Analysis.Acceptance
import Classlet.Proofs.Compilation.Results
import Classlet.Proofs.Symbols.Places

/-!
# Repeated declarations

A name that is declared twice in one place, be it among the fields, the methods, or the parameters
or local variables of a method, is complained about; a repeated import is found by the analysis:
what a pass before the one over the imports reports ends the compilation as well.  So no program
with a repetition gets any code.

Main statement: `declarations_reported`.
-/

namespace Classlet

/-! ### Programs without complaints -/

/-- No name is declared twice in one place. -/
structure ClassDecl.NamesOnce (c : ClassDecl) : Prop where
  fields : (c.fields.map (·.1)).Nodup
  methods : (c.methods.map (·.name)).Nodup
  params : ∀ m ∈ c.methods, (m.params.map (·.1)).Nodup
  locals : ∀ m ∈ c.methods, (m.locals.map (·.1)).Nodup

theorem Text.seconds_eq_nil_iff {names : List String} : seconds names = [] ↔ names.Nodup := by
  rw [← repeated_eq_nil_iff, ← map_fst_seconds, List.map_eq_nil_iff]

theorem Complaint.ofRepeated_eq_nil_iff {path : List Nat} {first : Nat} {kind : String → Kind}
    {message : String → String} {names : List String} :
    ofRepeated path first kind message names = [] ↔ names.Nodup := by
  rw [ofRepeated, List.map_eq_nil_iff, Text.seconds_eq_nil_iff]

theorem MethodDecl.nodup_of_complaints {m : MethodDecl} {path : List Nat}
    (h : m.complaints path = []) : (m.params.map (·.1)).Nodup ∧ (m.locals.map (·.1)).Nodup := by
  rw [complaints, List.append_eq_nil_iff, List.append_eq_nil_iff, Complaint.ofRepeated_eq_nil_iff,
    Complaint.ofRepeated_eq_nil_iff] at h
  exact ⟨h.1.2, h.2⟩

/-- **A repeated name is complained about**, so without complaints there is none. -/
theorem ClassDecl.namesOnce_of_complaints {c : ClassDecl} {path : List Nat}
    (h : c.complaints path = []) : c.NamesOnce := by
  rw [complaints, List.append_eq_nil_iff, Complaint.ofRepeated_eq_nil_iff,
    List.flatMap_eq_nil_iff] at h
  obtain ⟨hfields, hmethods⟩ := h
  have heach : ∀ q ∈ c.methods.zipIdx, q.1.complaints (path ++ [c.fields.length + q.2]) = [] ∧
      Text.isSecond (c.methods.map (·.name)) (q.1.name, q.2) = false := fun q hq => by
    have hat := hmethods q hq
    rw [MethodDecl.complaintsAt, List.append_eq_nil_iff] at hat
    refine ⟨hat.1, Bool.eq_false_iff.mpr fun hsecond => ?_⟩
    rw [if_pos hsecond] at hat
    cases hat.2
  have hof : ∀ m ∈ c.methods, ∃ k, (m, k) ∈ c.methods.zipIdx := fun m hm => by
    obtain ⟨k, hk⟩ := List.mem_iff_getElem?.mp hm
    exact ⟨k, List.mem_zipIdx_iff_getElem?.mpr hk⟩
  refine ⟨hfields, ?_, fun m hm => ?_, fun m hm => ?_⟩
  · rw [← Text.seconds_eq_nil_iff, Text.seconds, List.filter_eq_nil_iff, List.zipIdx_map]
    intro q hq
    obtain ⟨⟨m, k⟩, hm, rfl⟩ := List.mem_map.mp hq
    exact Bool.eq_false_iff.mp (heach (m, k) hm).2
  · obtain ⟨k, hk⟩ := hof m hm
    exact (MethodDecl.nodup_of_complaints (heach _ hk).1).1
  · obtain ⟨k, hk⟩ := hof m hm
    exact (MethodDecl.nodup_of_complaints (heach _ hk).1).2

/-! ### Repeated imports -/

/-- **Where analysis reports nothing, no import is repeated**, however many classes there are. -/
theorem nodup_imports_of_analyze {policy : ExternalPolicy} {t : Tree} {table : SymbolTable}
    (h : analyze policy t table = []) : table.imports.Nodup := by
  rw [analyze, analyzeWith_eq_nil_iff] at h
  have hclean := h Names.importPass (by simp [Pass.standard])
  rw [Pass.run, Check.stepwise_clean.bind_iff] at hclean
  have hfound := congrArg Check.findings hclean.2
  rw [← Text.repeated_eq_nil_iff]
  exact List.map_eq_nil_iff.mp hfound

/-! ### The end of a compilation -/

theorem Compilation.compile_eq_rejected {options : Options} {t : Tree} {table : SymbolTable}
    {found : List Report} (h : t.symbolTable = .ok (table, found))
    (hne : found ++ analyze options.externalTypes t table ≠ []) :
    compile options t
      = .ok (⟨some table, none, found ++ analyze options.externalTypes t table⟩, t) := by
  have herror : Report.anyError (found ++ analyze options.externalTypes t table) = true := by
    rw [← Bool.not_eq_false, Report.anyError_eq_false_iff fun r hr =>
      (isSemanticError_of_mem_checked options h r hr).2]
    exact hne
  rw [compile, h, ofTable, if_pos herror]

/-- **Declarations are read exactly, and every repetition is reported once.**  The table of a
program that has a class lists what the program declares.  There is one report for each complaint
about the first class, in their order and at their places: one for each name that is repeated in a
list, where it stands for the second time, and one for each method that lacks a return type.  If a
list or the imports repeat a name, there is no code, whatever is asked for. -/
theorem declarations_reported (imports : List String) (c : ClassDecl) (rest : List ClassDecl) :
    (∃ reports, (Program.mk imports (c :: rest)).build.symbolTable
        = .ok (.ofDecls imports c, reports) ∧
      List.Forall₂ (Complaint.IsReported (Program.mk imports (c :: rest)).build) reports
        (c.complaints [imports.length]) ∧
      (¬ c.NamesOnce ∨ ¬ (imports.map Text.importedName).Nodup →
        ∀ options, ∃ more, compile options (Program.mk imports (c :: rest)).build
          = .ok (⟨some (.ofDecls imports c), none, reports ++ more⟩,
            (Program.mk imports (c :: rest)).build))) ∧
    ∀ names : List String,
      (∀ name, ((Text.seconds names).map Prod.fst).count name
        = if 2 ≤ names.count name then 1 else 0) ∧
      ∀ q, q ∈ Text.seconds names ↔ names[q.2]? = some q.1 ∧ (names.take q.2).count q.1 = 1 := by
  obtain ⟨b, hb⟩ := (Program.mk imports (c :: rest)).pictures_build
  obtain ⟨reports, htable, hsaid⟩ := hb.symbolTable_reported
  refine ⟨⟨reports, htable, hsaid, fun hrepeated options => ?_⟩,
    fun names => ⟨fun name => Text.count_seconds name names, fun q => Text.mem_seconds⟩⟩
  refine ⟨_, Compilation.compile_eq_rejected htable fun hnil => ?_⟩
  obtain ⟨hreports, hanalysis⟩ := List.append_eq_nil_iff.mp hnil
  rcases hrepeated with hnames | himports
  · rw [hreports, List.forall₂_nil_left_iff] at hsaid
    exact hnames (ClassDecl.namesOnce_of_complaints hsaid)
  · exact himports (nodup_imports_of_analyze hanalysis)

/-- A class that repeats a field twice, a parameter, a local variable and a method. -/
def repetitiveClass : ClassDecl where
  name := "Twice"
  superclass := none
  fields := [("x", ⟨"int", false, false⟩), ("x", ⟨"int", true, false⟩), ("x", ⟨"int", false, true⟩)]
  methods := [
    ⟨"f", true, false, some ⟨"int", false, false⟩,
      [("a", ⟨"int", false, false⟩), ("b", ⟨"int", false, false⟩), ("a", ⟨"int", false, false⟩)],
      [("c", ⟨"int", false, false⟩), ("c", ⟨"int", false, false⟩)], []⟩,
    ⟨"f", true, false, none, [], [], []⟩]

/-- All that is wrong with this class is reported, and there is no code for it. -/
theorem declarations_reported_repetitive :
    (repetitiveClass.complaints [2]).map (fun q => (q.path, q.message))
      = [([2, 1], "Duplicate field `x`"),
        ([2, 3, 3], "Duplicate parameter `a` in method `f`"),
        ([2, 3, 5], "Duplicate local variable `c` in method `f`"),
        ([2, 4], "Method `f` has no return type"), ([2, 4], "Duplicate method `f`")] ∧
    ∃ reports, List.Forall₂ (Complaint.IsReported
        (Program.mk ["java.util", "java.\"util\""] [repetitiveClass]).build) reports
          (repetitiveClass.complaints [2]) ∧
      ∃ more, compile { optimize := true, registers := .minimize }
          (Program.mk ["java.util", "java.\"util\""] [repetitiveClass]).build
        = .ok (⟨some (.ofDecls ["java.util", "java.\"util\""] repetitiveClass), none,
            reports ++ more⟩,
          (Program.mk ["java.util", "java.\"util\""] [repetitiveClass]).build) := by
  refine ⟨by decide +kernel, ?_⟩
  obtain ⟨⟨reports, -, hsaid, hrejected⟩, -⟩ :=
    declarations_reported ["java.util", "java.\"util\""] repetitiveClass []
  have himports : ¬ (["java.util", "java.\"util\""].map Text.importedName).Nodup := by
    decide +kernel
  exact ⟨reports, hsaid, hrejected (.inr himports) _⟩

end Classlet
