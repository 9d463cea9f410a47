import Classlet.Compilation
import Classlet.Proofs.Lowering.Accepted

/-!
# Causes of reports

A report has a cause where a stage stopped.  On the tree of a program with one class no stage stops
for a reason of the tree: the symbol table is built, every pass of the analysis and the optimizer
come to an end, and every method declaration finds its signature.  What remains is what an accepted
program may lack in lowering, and too few registers (`compile_causes`).
-/

namespace Classlet

open Ir Lowering Optimize Subtree

/-! ### The symbol table -/

/-- The report is that of a finding. -/
def Report.IsFinding (r : Report) : Prop := ∃ f : Finding, r = f.report

theorem Report.isFinding_error (position : Position) (message : String) :
    (Report.error .semantic position message).IsFinding := ⟨⟨position, message⟩, rfl⟩

namespace Shape

/-- Where the reports on each declaration alone are findings, all are. -/
theorem reportsOn_findings {α : Type} {read? : Shape → Option (Except Halt (Declared α))}
    {message : String → String} {shapes : Shapes} {ds : List (Declared α)}
    (hone : ∀ s d, read? s = some (.ok d) → ∀ r ∈ d.reports, r.IsFinding)
    (h : readAll read? shapes = .ok ds) (seen : List String) :
    ∀ r ∈ reportsOn message seen ds, r.IsFinding := by
  refine forall_mem_reportsOn Report.isFinding_error (fun d hd => ?_) seen
  obtain ⟨s, -, hs⟩ := exists_of_readAll h d hd
  exact hone _ d hs

theorem readSymbols_findings {select : Kind → Option String} {message : String → String}
    {seen : List String} {shapes : Shapes} {symbols : List Symbol} {reports : List Report}
    (h : readSymbols select message seen shapes = .ok (symbols, reports)) :
    ∀ r ∈ reports, r.IsFinding := by
  rw [readSymbols_eq] at h
  obtain ⟨ds, hread, h⟩ := Halt.bind_ok h
  cases h
  refine reportsOn_findings (fun s d hs => ?_) hread seen
  rw [reports_of_symbol? hs]
  exact List.forall_mem_nil _

theorem readSignature_findings {name : String} {isPublic isStatic : Bool} {position : Position}
    {members : Shapes} {s : Signature} {reports : List Report}
    (h : readSignature name isPublic isStatic position members = .ok (s, reports)) :
    ∀ r ∈ reports, r.IsFinding := by
  obtain ⟨-, -, h⟩ := Halt.bind_ok h
  split at h
  next returnType untyped hret =>
  have huntyped : ∀ r ∈ untyped, r.IsFinding := by
    split at hret
    · cases hret
      simp
    · split at hret <;> cases hret <;> simp [Report.isFinding_error]
  obtain ⟨⟨params, repeatedParams⟩, hparams, h⟩ := Halt.bind_ok h
  obtain ⟨⟨locals, repeatedLocals⟩, hlocals, h⟩ := Halt.bind_ok h
  cases h
  rw [List.forall_mem_append, List.forall_mem_append]
  exact ⟨⟨huntyped, readSymbols_findings hparams⟩, readSymbols_findings hlocals⟩

theorem readSignatures_findings {seen : List String} {shapes : Shapes}
    {signatures : List Signature} {reports : List Report}
    (h : readSignatures seen shapes = .ok (signatures, reports)) : ∀ r ∈ reports, r.IsFinding := by
  rw [readSignatures_eq] at h
  obtain ⟨ds, hread, h⟩ := Halt.bind_ok h
  cases h
  refine reportsOn_findings (fun s d hs => ?_) hread seen
  obtain ⟨isPublic, isStatic, members, hd⟩ := readSignature_of_signature? hs
  exact readSignature_findings hd

end Shape

/-- **The reports of the symbol table are findings.** -/
theorem Tree.symbolTable_findings {t : Tree} {table : SymbolTable} {reports : List Report}
    (h : t.symbolTable = .ok (table, reports)) : ∀ r ∈ reports, r.IsFinding := by
  obtain ⟨units, -, h⟩ := Halt.bind_ok h
  obtain ⟨⟨className, superclass, members⟩, -, h⟩ := Halt.bind_ok h
  obtain ⟨-, -, h⟩ := Halt.bind_ok h
  obtain ⟨-, -, h⟩ := Halt.bind_ok h
  obtain ⟨⟨fields, repeatedFields⟩, hfields, h⟩ := Halt.bind_ok h
  obtain ⟨⟨signatures, more⟩, hsignatures, h⟩ := Halt.bind_ok h
  cases h
  rw [List.forall_mem_append]
  exact ⟨Shape.readSymbols_findings hfields, Shape.readSignatures_findings hsignatures⟩

theorem Tree.symbolTable_causes {t : Tree} {table : SymbolTable} {reports : List Report}
    (h : t.symbolTable = .ok (table, reports)) : ∀ r ∈ reports, r.cause = none := by
  intro r hr
  obtain ⟨f, rfl⟩ := Tree.symbolTable_findings h r hr
  rfl

/-! ### Registers -/

theorem Registers.allocateClass_causes (mode : Mode) (c : ClassCode) :
    ∀ r ∈ (allocateClass mode c).2, ∃ method required available,
      r.cause = some (.registerBudget method required available) := by
  intro r hr
  obtain ⟨result, hresult, hr⟩ := List.mem_flatMap.mp hr
  obtain ⟨m, -, rfl⟩ := List.mem_map.mp hresult
  unfold allocateMethod at hr
  cases mode with
  | disabled => cases hr
  | minimize => cases hr
  | limit available =>
    simp only [allocate] at hr
    split at hr
    · cases hr
    · next e he =>
      obtain rfl := List.mem_singleton.mp hr
      split at he
      · cases he
        exact ⟨_, _, _, rfl⟩
      · cases he

/-! ### Methods and their signatures -/

/-- Every method declaration of the first class finds its signature. -/
def SymbolTable.FitsMethods (table : SymbolTable) (t : Tree) : Prop :=
  ∃ entries, t.methodEntries = .ok entries ∧ entries.length = table.signatures.length ∧
    ∀ (k : Nat) (id : NodeId) (name : String), entries[k]? = some (id, name) →
      ∃ s, table.signatures[k]? = some s ∧ table.declared k name = .ok s

/-- Every method of the first class whose body has been lowered passes the check of its variables.
-/
def SymbolTable.PassesVariables (table : SymbolTable) (t : Tree) : Prop :=
  ∀ {entries : List (NodeId × String)} {k : Nat} {id : NodeId} {name : String} {s : Signature}
    {members : Shapes} {code : List Instr} {final : State},
    t.methodEntries = .ok entries → entries[k]? = some (id, name) →
    table.declared k name = .ok s → (t.shape id).children = .ok members →
    (lowerBody ⟨table, s⟩ members).run (Context.start ⟨table, s⟩) = .ok (code, final) →
    (Context.methodCode ⟨table, s⟩ code final.vars).verifyVars = .ok ()

section Methods

variable {policy : ExternalPolicy} {table : SymbolTable} {imports : List String} {c : ClassDecl}
  {t : Tree} {b : Subtree}

theorem exists_of_methodEntries {ms : List Subtree} {methods : List MethodDecl}
    {signatures : List Signature} (hms : List.Forall₂ Reads ms (methods.map .method))
    (hnames : NamedAlike signatures methods) {k : Nat} {id : NodeId} {name : String}
    (h : (ms.filterMap methodEntry?)[k]? = some (id, name)) :
    ∃ mb ∈ ms, ∃ m s, mb.id = id ∧ mb.Reads (.method m) ∧ signatures[k]? = some s ∧
      s.name = name ∧ (s, m) ∈ signatures.zip methods := by
  induction hnames generalizing ms k with
  | nil =>
    cases hms
    cases h
  | @cons s m signatures methods hname _ ih =>
    obtain ⟨mb, ms, hread, hrest, rfl⟩ := List.forall₂_cons_right_iff.mp hms
    rw [List.filterMap_cons_some (methodEntry?_method hread)] at h
    cases k with
    | zero =>
      cases h
      exact ⟨mb, List.mem_cons_self, m, s, rfl, hread, rfl, hname, List.mem_cons_self⟩
    | succ k =>
      obtain ⟨mb', hmem, m', s', hid, hread', hs, hname', hzip⟩ := ih hrest h
      exact ⟨mb', List.mem_cons_of_mem _ hmem, m', s', hid, hread', hs, hname',
        List.mem_cons_of_mem _ hzip⟩

theorem length_methodEntries {ms : List Subtree} {methods : List MethodDecl}
    (hms : List.Forall₂ Reads ms (methods.map .method)) :
    (ms.filterMap methodEntry?).length = methods.length := by
  rw [List.forall₂_map_right_iff] at hms
  induction hms with
  | nil => rfl
  | cons hread _ ih =>
    rw [List.filterMap_cons_some (methodEntry?_method hread), List.length_cons, ih,
      List.length_cons]

theorem Tree.Pictures.fitsMethods (h : t.Pictures ⟨imports, [c]⟩ b)
    (hnames : NamedAlike table.signatures c.methods) : table.FitsMethods t := by
  obtain ⟨r, pos, is, i, p, fs, ms, rfl, his, hfs, hms⟩ := h.exists_units
  refine ⟨_, h.methodEntries_ok his hfs, ?_, fun k id name hk => ?_⟩
  · rw [length_methodEntries hms, hnames.length_eq]
  · obtain ⟨-, -, -, s, -, -, hs, rfl, -⟩ := exists_of_methodEntries hms hnames hk
    exact ⟨s, hs, SymbolTable.declared_ok hs⟩

/-- **The variables of accepted methods are in their tables**, where the receiver's name is not
imported. -/
theorem Accepts.passesVariables {r : Nat} (h : Accepts policy (.ofDecls imports c) c)
    (hthis : (SymbolTable.ofDecls imports c).isImported thisName = false)
    (hb : t.Pictures ⟨imports,
      [(ClassDecl.improve (SymbolTable.ofDecls imports c).signatures)^[r] c]⟩ b) :
    (SymbolTable.ofDecls imports c).PassesVariables t := by
  intro entries k id name s members code final hentries hk hs hmembers hrun
  have hnamed : NamedAlike (SymbolTable.ofDecls imports c).signatures c.methods :=
    namedAlike_ofDecl c.methods
  have hlen : (SymbolTable.ofDecls imports c).signatures.length = c.methods.length :=
    List.length_map _
  obtain ⟨_, pos, is, i, p, fs, ms, rfl, his, hfs, hms⟩ := hb.exists_units
  rw [hb.methodEntries_ok his hfs] at hentries
  cases hentries
  obtain ⟨mb, hmem, m, s', rfl, hread, hs', rfl, hzip⟩ :=
    exists_of_methodEntries hms (hnamed.improve_iterate r) hk
  rw [SymbolTable.declared_ok hs'] at hs
  cases hs
  -- the node of the method is inside the class, which is inside the tree
  have hwithin {j : NodeId} {q : Position} {k k' : Kind} :
      mb.Within (.node j k q (is ++ [.node i k' p (fs ++ ms)])) :=
    .child (List.mem_append_right is List.mem_cons_self)
      (.child (List.mem_append_right fs hmem) (.refl mb))
  obtain ⟨above, hheld⟩ := hb.holds.within hwithin
  rw [hheld.shape_eq (hwithin.nodup hb.nodup)] at hmembers
  obtain ⟨j, q, cs, rfl, hcs⟩ := reads_iff.mp hread
  rw [toShape_node] at hmembers
  cases hmembers
  obtain ⟨-, hfits⟩ := (lowerBody_method hcs).of_ok hrun
  rcases verifyVars_of_lowerBody hfits with hv | ⟨⟨hstatic, hnot, part, hpart, huses⟩, -⟩
  · exact hv
  · obtain ⟨-, -, hnames⟩ := h.names_improve_iterate hlen r _ hzip
    have himport := (isImported_this_of_uses (hnames part hpart) hstatic hnot huses).1
    have himport : (SymbolTable.ofDecls imports c).isImported thisName = true := himport
    rw [hthis] at himport
    cases himport

end Methods

/-! ### The compilation -/

/-- The causes that reports on a program with one class may have: too few registers, or what an
accepted program may lack in lowering. -/
inductive ForeseenCause (table : SymbolTable) (c : ClassDecl) : Error → Prop
  | registerBudget (method : String) (required available : Nat) :
      ForeseenCause table c (.registerBudget method required available)
  | lacksValue {e : Error} (h : LacksValue table c e) : ForeseenCause table c e

section Compile

variable {table : SymbolTable} {c : ClassDecl} {reports : List Report}

theorem Compilation.ofLowered_causes (options : Options) (t : Tree)
    {lowered : Except Halt ClassCode} (hreports : ∀ r ∈ reports, r.cause = none)
    (h : (∃ code, lowered = .ok code) ∨
      ∃ e, lowered = .error (.error e) ∧ LacksValue table c e) :
    ∃ result, ofLowered options table reports t lowered = .ok result ∧
      ∀ r ∈ result.reports, ∀ e, r.cause = some e → ForeseenCause table c e := by
  have hnone : ∀ r ∈ reports, ∀ e, r.cause = some e → ForeseenCause table c e := by
    intro r hr e he
    rw [hreports r hr] at he
    cases he
  rcases h with ⟨code, rfl⟩ | ⟨e, rfl, hlacks⟩
  · refine ⟨_, rfl, List.forall_mem_append.mpr ⟨hnone, fun r hr e he => ?_⟩⟩
    obtain ⟨method, required, available, hcause⟩ := Registers.allocateClass_causes _ _ r hr
    rw [hcause] at he
    cases he
    exact .registerBudget method required available
  · refine ⟨_, rfl, List.forall_mem_append.mpr ⟨hnone, fun r hr e' he => ?_⟩⟩
    obtain rfl := List.mem_singleton.mp hr
    cases he
    exact .lacksValue hlacks

/-- **No stage stops for a reason of the tree.**  Take a program with one class.  It has a symbol
table; neither the table nor the analysis has a report with a cause, and the optimizer comes to an
end.  In its tree and in the optimized tree every method declaration finds its signature; and if the
program is accepted and does not import the receiver's name, every method whose body can be lowered
passes the check of its variables.  The compilation comes to an end with any options, and every
cause of a report is one of those foreseen. -/
theorem compile_causes (options : Options) (imports : List String) (c : ClassDecl) :
    ∃ table reports stats optimized result t',
      (Program.mk imports [c]).build.symbolTable = .ok (table, reports) ∧
      (∀ r ∈ reports ++ analyze options.externalTypes (Program.mk imports [c]).build table,
        r.cause = none) ∧
      optimize table (Program.mk imports [c]).build = (.ok stats, optimized) ∧
      (∀ t ∈ [(Program.mk imports [c]).build, optimized], table.FitsMethods t ∧
        (analyze options.externalTypes (Program.mk imports [c]).build table = [] →
          table.isImported thisName = false → table.PassesVariables t)) ∧
      compile options (Program.mk imports [c]).build = .ok (result, t') ∧
      ∀ r ∈ result.reports, ∀ e, r.cause = some e → ForeseenCause table c e := by
  obtain ⟨b, hb⟩ := (Program.mk imports [c]).pictures_build
  generalize (Program.mk imports [c]).build = t at *
  obtain ⟨reports, htable⟩ := hb.symbolTable_ok
  have hnames : NamedAlike (SymbolTable.ofDecls imports c).signatures c.methods :=
    namedAlike_ofDecl c.methods
  have hcauses : ∀ r ∈ reports ++ analyze options.externalTypes t (.ofDecls imports c),
      r.cause = none :=
    List.forall_mem_append.mpr ⟨Tree.symbolTable_causes htable, analyze_causes hb hnames⟩
  obtain ⟨stats, optimized, b', hrun, hb'⟩ := optimize_ok hb hnames
  have hfits : ∀ u ∈ [t, optimized], (SymbolTable.ofDecls imports c).FitsMethods u ∧
      (analyze options.externalTypes t (.ofDecls imports c) = [] →
        (SymbolTable.ofDecls imports c).isImported thisName = false →
          (SymbolTable.ofDecls imports c).PassesVariables u) := by
    simp only [List.forall_mem_cons, List.not_mem_nil, false_imp_iff, implies_true, and_true]
    exact ⟨⟨hb.fitsMethods hnames, fun haccepted hthis =>
        ((analyze_eq_nil_iff hb hnames).mp haccepted).passesVariables (r := 0) hthis hb⟩,
      ⟨hb'.fitsMethods (hnames.improve_iterate _), fun haccepted hthis =>
        ((analyze_eq_nil_iff hb hnames).mp haccepted).passesVariables hthis hb'⟩⟩
  have hcompile : ∃ result t', compile options t = .ok (result, t') ∧
      ∀ r ∈ result.reports, ∀ e, r.cause = some e →
        ForeseenCause (.ofDecls imports c) c e := by
    rw [compile, htable, Compilation.ofTable]
    split
    · refine ⟨_, t, rfl, fun r hr e he => ?_⟩
      rw [hcauses r hr] at he
      cases he
    · next hno =>
      -- without an error the program is accepted, and so it is lowered or lacks a value
      rw [Bool.not_eq_true, Report.anyError_append, Bool.or_eq_false_iff] at hno
      have haccepts := (anyError_analyze hb hnames).mp hno.2
      unfold Compilation.optimizeIf
      split
      · obtain ⟨result, hresult, hall⟩ := Compilation.ofLowered_causes options optimized hcauses
          (haccepts.lower_improve_iterate hb')
        have hrun' : (optimize (.ofDecls imports c)).run.run t = (.ok stats, optimized) := hrun
        refine ⟨result, optimized, ?_, hall⟩
        rw [hrun']
        simp only [Except.map, Compilation.ofOptimized, hresult]
        rfl
      · obtain ⟨result, hresult, hall⟩ := Compilation.ofLowered_causes options t hcauses
          (haccepts.lower_improve_iterate (r := 0) hb)
        refine ⟨result, t, ?_, hall⟩
        simp only [Compilation.ofOptimized, hresult]
        rfl
  obtain ⟨result, t', hresult, hall⟩ := hcompile
  exact ⟨_, reports, stats, optimized, result, t', htable, hcauses, hrun, hfits, hresult, hall⟩

end Compile

end Classlet
