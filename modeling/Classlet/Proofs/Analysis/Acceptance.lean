import Classlet.Proofs.Analysis.Declarations
import Classlet.Proofs.Analysis.Steps

/-!
# Acceptance

Analysis of the tree of a program with one class comes to an end in every pass (`standard_spec`), and
whether it reports something can be read off the program: `Accepts` lists what has to hold of the
parts of its methods and of the types it writes, and `analyze_eq_nil_iff` says that nothing is
reported if that holds, and only then.
-/

namespace Classlet

open Subtree
open WrittenTypes (Slot declarationPass)

/-! ### The tree of a program with one class -/

theorem Tree.Pictures.exists_units {t : Tree} {b : Subtree} {imports : List String} {c : ClassDecl}
    (h : t.Pictures ⟨imports, [c]⟩ b) : ∃ r pos is i p fs ms,
      b = Subtree.node r .program pos
        (is ++ [Subtree.node i (.classDecl c.name c.superclass) p (fs ++ ms)]) ∧
      List.Forall₂ Reads is (imports.map .importDecl) ∧
      List.Forall₂ Reads fs (c.fields.map .varDecl) ∧
      List.Forall₂ Reads ms (c.methods.map .method) := by
  obtain ⟨r, pos, is, i, p, fs, ms, after, rfl, his, hfs, hms, hafter⟩ := h.exists_firstClass
  obtain rfl := List.forall₂_nil_right_iff.mp hafter
  exact ⟨r, pos, is, i, p, fs, ms, rfl, his, hfs, hms⟩

theorem mem_zip_reads {signatures : List Signature} {ms : List Subtree} {methods : List MethodDecl}
    (h : List.Forall₂ Reads ms (methods.map .method)) {s : Signature} {b : Subtree}
    (hq : (s, b) ∈ signatures.zip ms) :
    ∃ m, (s, m) ∈ signatures.zip methods ∧ b.Reads (.method m) :=
  exists_mem_zip (List.forall₂_map_right_iff.mp h) hq

theorem exists_mem_zip_reads {signatures : List Signature} {ms : List Subtree}
    {methods : List MethodDecl} (h : List.Forall₂ Reads ms (methods.map .method)) {s : Signature}
    {m : MethodDecl} (hq : (s, m) ∈ signatures.zip methods) :
    ∃ b : Subtree, (s, b) ∈ signatures.zip ms ∧ b.Reads (.method m) :=
  exists_mem_zip (List.forall₂_map_right_iff.mp h).flip hq

/-! ### What has to hold of a program -/

/-- The judgements of the passes over method bodies. -/
def judgements : List (Scope → Kind → List ExprType → List String) :=
  [Names.messages, Operands.operationMessages, Operands.conditionMessages, Operands.arrayMessages,
    Values.returnMessages, Values.assignmentMessages, Values.argumentMessages]

/-- No judgement finds anything wrong with a part in a scope. -/
def Part.Fine (scope : Scope) (part : Part) : Prop :=
  ∀ messages ∈ judgements, messages scope part.kind (part.types scope) = []

/-- The class is accepted with the given table. -/
structure Accepts (policy : ExternalPolicy) (table : SymbolTable) (c : ClassDecl) : Prop where
  bodies : ∀ q ∈ table.signatures.zip c.methods, ∀ part : Part, part.Inside (.method q.2) →
    part.Fine ⟨table, some q.1, policy⟩
  imports : Text.repeated [] table.imports = []
  fieldTypes : ∀ f ∈ c.fields, WrittenTypes.messages (.ofTable table policy) .field f.2 = []
  types : ∀ q ∈ table.signatures.zip c.methods, ∀ slot ty, q.2.Writes slot ty →
    WrittenTypes.messages ⟨table, some q.1, policy⟩ slot ty = []

namespace Check

theorem ends_of_eq {c : Check Unit} {found : List Finding} (h : c = ⟨found, .ok ()⟩) : c.Ends := by
  rw [h]
  rfl

theorem clean_iff_nil {c : Check Unit} {msgs : List String} {p : Position}
    (h : c = ⟨msgs.map (Finding.mk p), .ok ()⟩) : c.Clean ↔ msgs = [] := by
  rw [h, Clean]
  simp [pure]

end Check

namespace Pass

variable {t : Tree} {b : Subtree} {imports : List String} {c : ClassDecl} {table : SymbolTable}
  (policy : ExternalPolicy) {pass : Pass} {messages : Scope → Kind → List ExprType → List String}

/-! ### Passes over method bodies -/

/-- The judgement finds nothing at the declarations of a class. -/
def OnBodies (messages : Scope → Kind → List ExprType → List String) : Prop :=
  ∀ scope k types, k.isExpression = false → k.isStatement = false → messages scope k types = []

theorem onBodies_judgements : ∀ messages ∈ judgements, OnBodies messages := by
  simp only [judgements, List.forall_mem_cons, List.not_mem_nil, false_imp_iff, implies_true,
    and_true]
  refine ⟨?_, ?_, ?_, ?_, ?_, ?_, ?_⟩ <;>
  · intro scope k types he hs
    cases k <;> simp only [Kind.isExpression, Kind.isStatement, Bool.true_eq_false] at he hs <;> rfl

/-- A pass over bodies comes to an end, and finds nothing if its judgement finds nothing at any part
of a method. -/
theorem JudgesBy.run_spec (hjudges : pass.JudgesBy messages) (hbodies : OnBodies messages)
    (hfinish : ∀ scope, pass.finish scope = pure ()) (h : t.Pictures ⟨imports, [c]⟩ b)
    (hnames : NamedAlike table.signatures c.methods) :
    (pass.run t (.ofTable table policy)).Ends ∧
      ((pass.run t (.ofTable table policy)).Clean ↔
        ∀ q ∈ table.signatures.zip c.methods, ∀ part : Part, part.Inside (.method q.2) →
          messages ⟨table, some q.1, policy⟩ part.kind (part.types ⟨table, some q.1, policy⟩)
            = []) := by
  obtain ⟨r, pos, is, i, p, fs, ms, rfl, his, hfs, hms⟩ := h.exists_units
  have hends : ∀ scope (d : Subtree), d.Within (node r .program pos
      (is ++ [node i (.classDecl c.name c.superclass) p (fs ++ ms)])) →
      (pass.visit t scope d.toShape).Ends := by
    intro scope d hd
    obtain ⟨part, hread, -⟩ := h.reads.within hd
    obtain ⟨_, hvisit⟩ := hjudges t scope hread
    exact Check.ends_of_eq hvisit
  have houter : ∀ scope (d : Subtree) (part : Part), d.Reads part →
      part.kind.isExpression = false → part.kind.isStatement = false →
      (pass.visit t scope d.toShape).Clean := by
    intro scope d part hread he hs
    obtain ⟨_, hvisit⟩ := hjudges t scope hread
    exact (Check.clean_iff_nil hvisit).mpr (hbodies _ _ _ he hs)
  have hclass : (node i (.classDecl c.name c.superclass) p (fs ++ ms)).Reads (.classDecl c) :=
    reads_iff.mpr ⟨i, p, fs ++ ms, rfl, List.rel_append hfs hms⟩
  have hin : ∀ {d : Subtree}, d ∈ fs ++ ms → d.Within (node r .program pos
      (is ++ [node i (.classDecl c.name c.superclass) p (fs ++ ms)])) := fun hd =>
    .child (List.mem_append_right _ List.mem_cons_self) (.child hd (.refl _))
  constructor
  · rw [run_iff Check.stepwise_ends h his hfs hms hnames, hfinish]
    refine ⟨hends _ _ (.refl _),
      fun d hd => hends _ _ (.child (List.mem_append_left _ hd) (.refl _)),
      hends _ _ (.child (List.mem_append_right _ List.mem_cons_self) (.refl _)),
      fun f hf d hd => ?_, fun q hq d hd => ?_, rfl⟩
    · exact hends _ _ (hd.trans (hin (List.mem_append_left _ hf)))
    · exact hends _ _ (hd.trans (hin (List.mem_append_right _ (List.of_mem_zip hq).2)))
  · rw [run_iff Check.stepwise_clean h his hfs hms hnames, hfinish]
    constructor
    · rintro ⟨-, -, -, -, hmethods, -⟩ ⟨s, m⟩ hq part hpart
      obtain ⟨mb, hmb, hread⟩ := exists_mem_zip_reads hms hq
      obtain ⟨d, hd, hdread⟩ := hread.exists_within hpart
      obtain ⟨_, hvisit⟩ := hjudges t ⟨table, some s, policy⟩ hdread
      exact (Check.clean_iff_nil hvisit).mp (hmethods _ hmb d hd)
    · intro hall
      refine ⟨houter _ _ _ h.reads rfl rfl, fun d hd => ?_, houter _ _ _ hclass rfl rfl,
        fun f hf d hd => ?_, fun ⟨s, mb⟩ hq d hd => ?_, rfl⟩
      · obtain ⟨part, hpart, hread⟩ := forall₂_of_mem_left his hd
        obtain ⟨dotted, -, rfl⟩ := List.mem_map.mp hpart
        exact houter _ _ _ hread rfl rfl
      · obtain ⟨part, hpart, hread⟩ := forall₂_of_mem_left hfs hf
        obtain ⟨decl, -, rfl⟩ := List.mem_map.mp hpart
        obtain ⟨i', q, e, rfl, he⟩ := WrittenTypes.reads_decl hread rfl
        cases hd with
        | refl => exact houter _ _ _ hread rfl rfl
        | child hc hd =>
          cases List.mem_singleton.mp hc
          obtain rfl := WrittenTypes.within_type he hd
          exact houter _ _ _ he rfl rfl
      · obtain ⟨m, hm, hread⟩ := mem_zip_reads hms hq
        obtain ⟨part, hdread, hpart⟩ := hread.within hd
        obtain ⟨_, hvisit⟩ := hjudges t ⟨table, some s, policy⟩ hdread
        exact (Check.clean_iff_nil hvisit).mpr (hall (s, m) hm part hpart)

/-! ### Imports and written types -/

theorem importPass_spec (h : t.Pictures ⟨imports, [c]⟩ b)
    (hnames : NamedAlike table.signatures c.methods) :
    (Names.importPass.run t (.ofTable table policy)).Ends ∧
      ((Names.importPass.run t (.ofTable table policy)).Clean ↔
        Text.repeated [] table.imports = []) := by
  obtain ⟨r, pos, is, i, p, fs, ms, rfl, his, hfs, hms⟩ := h.exists_units
  constructor
  · rw [run_iff Check.stepwise_ends h his hfs hms hnames]
    exact ⟨rfl, fun _ _ => rfl, rfl, fun _ _ _ _ => rfl, fun _ _ _ _ => rfl, rfl⟩
  · rw [run_iff Check.stepwise_clean h his hfs hms hnames]
    constructor
    · rintro ⟨-, -, -, -, -, hfinish⟩
      have hnil := congrArg Check.findings hfinish
      simpa [Names.importPass, Scope.ofTable] using hnil
    · intro hnil
      refine ⟨rfl, fun _ _ => rfl, rfl, fun _ _ _ _ => rfl, fun _ _ _ _ => rfl, ?_⟩
      simp only [Names.importPass, Scope.ofTable, hnil]
      rfl

theorem declarationPass_spec (h : t.Pictures ⟨imports, [c]⟩ b)
    (hnames : NamedAlike table.signatures c.methods) :
    (declarationPass.run t (.ofTable table policy)).Ends ∧
      ((declarationPass.run t (.ofTable table policy)).Clean ↔
        (∀ f ∈ c.fields, WrittenTypes.messages (.ofTable table policy) .field f.2 = []) ∧
        ∀ q ∈ table.signatures.zip c.methods, ∀ slot ty, q.2.Writes slot ty →
          WrittenTypes.messages ⟨table, some q.1, policy⟩ slot ty = []) := by
  obtain ⟨r, pos, is, i, p, fs, ms, rfl, his, hfs, hms⟩ := h.exists_units
  have hclass : (node i (.classDecl c.name c.superclass) p (fs ++ ms)).Reads (.classDecl c) :=
    reads_iff.mpr ⟨i, p, fs ++ ms, rfl, List.rel_append hfs hms⟩
  have hclassHeld := h.holds.child _ (List.mem_append_right _ List.mem_cons_self)
  have hclassNodup := nodup_child h.nodup (List.mem_append_right is List.mem_cons_self)
  have hroot := WrittenTypes.visit_other t (.ofTable table policy) h.reads rfl
  have hclassVisit := WrittenTypes.visit_other t (.ofTable table policy) hclass rfl
  have himports : ∀ d ∈ is,
      declarationPass.visit t (.ofTable table policy) d.toShape = pure () := by
    intro d hd
    obtain ⟨part, hpart, hread⟩ := forall₂_of_mem_left his hd
    obtain ⟨dotted, -, rfl⟩ := List.mem_map.mp hpart
    exact WrittenTypes.visit_other _ _ hread rfl
  have hmethod : ∀ {s : Signature} {mb : Subtree}, (s, mb) ∈ table.signatures.zip ms →
      t.Holds (some i) mb ∧ mb.ids.Nodup := fun hq =>
    have hmem := List.mem_append_right fs (List.of_mem_zip hq).2
    ⟨hclassHeld.child _ hmem, nodup_child hclassNodup hmem⟩
  constructor
  · rw [run_iff Check.stepwise_ends h his hfs hms hnames, hroot, hclassVisit]
    refine ⟨rfl, fun d hd => by rw [himports d hd]; rfl, rfl, fun f hf d hd => ?_,
      fun ⟨s, mb⟩ hq d hd => ?_, rfl⟩
    · obtain ⟨part, hpart, hread⟩ := forall₂_of_mem_left hfs hf
      obtain ⟨decl, -, rfl⟩ := List.mem_map.mp hpart
      rcases WrittenTypes.field_visits hclassHeld (List.mem_append_left _ hf) hread hd with
        hpure | ⟨_, hvisit⟩
      · rw [hpure]
        rfl
      · exact Check.ends_of_eq hvisit
    · obtain ⟨m, -, hread⟩ := mem_zip_reads hms hq
      obtain ⟨hheld, hnodup⟩ := hmethod hq
      rcases WrittenTypes.method_visits ⟨table, some s, policy⟩ hheld hnodup hread hd with
        hpure | ⟨slot, ty, -, _, hvisit⟩
      · rw [hpure]
        rfl
      · exact Check.ends_of_eq hvisit
  · rw [run_iff Check.stepwise_clean h his hfs hms hnames, hroot, hclassVisit]
    constructor
    · rintro ⟨-, -, -, hfields, hmethods, -⟩
      refine ⟨fun f hf => ?_, fun ⟨s, m⟩ hq slot ty hw => ?_⟩
      · obtain ⟨fb, hfb, hread⟩ := forall₂_of_mem_right hfs (List.mem_map_of_mem hf)
        obtain ⟨d, hd, _, hvisit⟩ :=
          WrittenTypes.exists_field_visit hclassHeld (List.mem_append_left _ hfb) hread
        exact (Check.clean_iff_nil hvisit).mp (hfields _ hfb d hd)
      · obtain ⟨mb, hmb, hread⟩ := exists_mem_zip_reads hms hq
        obtain ⟨hheld, hnodup⟩ := hmethod hmb
        obtain ⟨d, hd, -, _, hvisit⟩ :=
          WrittenTypes.exists_visit ⟨table, some s, policy⟩ hheld hnodup hread hw
        exact (Check.clean_iff_nil hvisit).mp (hmethods _ hmb d hd)
    · rintro ⟨hfields, hmethods⟩
      refine ⟨rfl, himports, rfl, fun f hf d hd => ?_, fun ⟨s, mb⟩ hq d hd => ?_, rfl⟩
      · obtain ⟨part, hpart, hread⟩ := forall₂_of_mem_left hfs hf
        obtain ⟨decl, hdecl, rfl⟩ := List.mem_map.mp hpart
        rcases WrittenTypes.field_visits hclassHeld (List.mem_append_left _ hf) hread hd with
          hpure | ⟨_, hvisit⟩
        · exact hpure
        · exact (Check.clean_iff_nil hvisit).mpr (hfields decl hdecl)
      · obtain ⟨m, hm, hread⟩ := mem_zip_reads hms hq
        obtain ⟨hheld, hnodup⟩ := hmethod hq
        rcases WrittenTypes.method_visits ⟨table, some s, policy⟩ hheld hnodup hread hd with
          hpure | ⟨slot, ty, hw, _, hvisit⟩
        · exact hpure
        · exact (Check.clean_iff_nil hvisit).mpr (hmethods (s, m) hm slot ty hw)

/-! ### All passes -/

/-- Every standard pass comes to an end on the tree of a program with one class, and together they
find nothing if the class is accepted, and only then. -/
theorem standard_spec (h : t.Pictures ⟨imports, [c]⟩ b)
    (hnames : NamedAlike table.signatures c.methods) :
    (∀ pass ∈ standard, (pass.run t (.ofTable table policy)).Ends) ∧
      ((∀ pass ∈ standard, (pass.run t (.ofTable table policy)).Clean) ↔
        Accepts policy table c) := by
  have hon := onBodies_judgements
  simp only [judgements, List.forall_mem_cons, List.not_mem_nil, false_imp_iff, implies_true,
    and_true] at hon
  obtain ⟨hon₁, hon₂, hon₃, hon₄, hon₅, hon₆, hon₇⟩ := hon
  have h₁ := Names.judgesBy_messages.run_spec policy hon₁ (fun _ => rfl) h hnames
  have h₂ := Operands.judgesBy_operationMessages.run_spec policy hon₂ (fun _ => rfl) h hnames
  have h₃ := Operands.judgesBy_conditionMessages.run_spec policy hon₃ (fun _ => rfl) h hnames
  have h₄ := Operands.judgesBy_arrayMessages.run_spec policy hon₄ (fun _ => rfl) h hnames
  have h₅ := Values.judgesBy_returnMessages.run_spec policy hon₅ (fun _ => rfl) h hnames
  have h₆ := Values.judgesBy_assignmentMessages.run_spec policy hon₆ (fun _ => rfl) h hnames
  have h₇ := Values.judgesBy_argumentMessages.run_spec policy hon₇ (fun _ => rfl) h hnames
  have h₈ := importPass_spec policy h hnames
  have h₉ := declarationPass_spec policy h hnames
  simp only [standard, List.forall_mem_cons, List.not_mem_nil, false_imp_iff, implies_true,
    and_true]
  refine ⟨⟨h₁.1, h₂.1, h₃.1, h₄.1, h₅.1, h₆.1, h₇.1, h₈.1, h₉.1⟩, ?_⟩
  rw [h₁.2, h₂.2, h₃.2, h₄.2, h₅.2, h₆.2, h₇.2, h₈.2, h₉.2]
  constructor
  · rintro ⟨c₁, c₂, c₃, c₄, c₅, c₆, c₇, c₈, c₉, c₁₀⟩
    refine ⟨fun q hq part hpart => ?_, c₈, c₉, c₁₀⟩
    simp only [Part.Fine, judgements, List.forall_mem_cons, List.not_mem_nil, false_imp_iff,
      implies_true, and_true]
    exact ⟨c₁ q hq part hpart, c₂ q hq part hpart, c₃ q hq part hpart, c₄ q hq part hpart,
      c₅ q hq part hpart, c₆ q hq part hpart, c₇ q hq part hpart⟩
  · rintro ⟨hbodies, himports, hfields, htypes⟩
    simp only [Part.Fine, judgements, List.forall_mem_cons, List.not_mem_nil, false_imp_iff,
      implies_true, and_true] at hbodies
    exact ⟨fun q hq part hp => (hbodies q hq part hp).1,
      fun q hq part hp => (hbodies q hq part hp).2.1,
      fun q hq part hp => (hbodies q hq part hp).2.2.1,
      fun q hq part hp => (hbodies q hq part hp).2.2.2.1,
      fun q hq part hp => (hbodies q hq part hp).2.2.2.2.1,
      fun q hq part hp => (hbodies q hq part hp).2.2.2.2.2.1,
      fun q hq part hp => (hbodies q hq part hp).2.2.2.2.2.2, himports, hfields, htypes⟩

theorem reportsOf_of_ends {name : String} {outcome : Check Unit} (h : outcome.Ends) :
    reportsOf name outcome = outcome.findings.map Finding.report := by
  obtain ⟨found, result⟩ := outcome
  cases h
  rfl

theorem reportsOf_eq_nil_iff (name : String) {outcome : Check Unit} :
    reportsOf name outcome = [] ↔ outcome.Clean := by
  obtain ⟨found, (e | f) | ⟨⟩⟩ := outcome <;> simp [reportsOf, Check.Clean, pure]

end Pass

section Analyze

variable {t : Tree} {scope : Scope} {passes : List Pass}

/-- Passes that come to an end report findings, which have no cause. -/
theorem analyzeWith_causes (h : ∀ pass ∈ passes, (pass.run t scope).Ends) :
    ∀ r ∈ analyzeWith t scope passes, r.cause = none := by
  induction passes with
  | nil => simp [analyzeWith]
  | cons pass passes ih =>
    rw [List.forall_mem_cons] at h
    rw [analyzeWith_cons_eq]
    split
    · exact ih h.2
    · rw [Pass.reports, Pass.reportsOf_of_ends h.1, List.forall_mem_map]
      exact fun _ _ => rfl

theorem analyzeWith_eq_nil_iff :
    analyzeWith t scope passes = [] ↔ ∀ pass ∈ passes, (pass.run t scope).Clean := by
  refine analyzeWith_eq_nil_iff_each.trans (forall₂_congr fun pass _ => ?_)
  rw [analyzeWith_singleton, Pass.reports, Pass.reportsOf_eq_nil_iff]

theorem anyError_analyzeWith :
    Report.anyError (analyzeWith t scope passes) = false ↔ analyzeWith t scope passes = [] :=
  Report.anyError_eq_false_iff fun r hr => (isSemanticError_of_mem_analyzeWith r hr).2

variable {b : Subtree} {imports : List String} {c : ClassDecl} {table : SymbolTable}
  {policy : ExternalPolicy}

/-- **Analysis reports nothing exactly for the classes that are accepted.** -/
theorem analyze_eq_nil_iff (h : t.Pictures ⟨imports, [c]⟩ b)
    (hnames : NamedAlike table.signatures c.methods) :
    analyze policy t table = [] ↔ Accepts policy table c := by
  obtain ⟨-, hclean⟩ := Pass.standard_spec policy h hnames
  rw [analyze, analyzeWith_eq_nil_iff, hclean]

theorem anyError_analyze (h : t.Pictures ⟨imports, [c]⟩ b)
    (hnames : NamedAlike table.signatures c.methods) :
    Report.anyError (analyze policy t table) = false ↔ Accepts policy table c := by
  rw [← analyze_eq_nil_iff h hnames, analyze, anyError_analyzeWith]

/-- **No pass fails**: the reports of the analysis are findings. -/
theorem analyze_causes (h : t.Pictures ⟨imports, [c]⟩ b)
    (hnames : NamedAlike table.signatures c.methods) :
    ∀ r ∈ analyze policy t table, r.cause = none :=
  analyzeWith_causes (Pass.standard_spec policy h hnames).1

end Analyze

end Classlet
