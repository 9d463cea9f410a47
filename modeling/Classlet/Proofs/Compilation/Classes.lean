import Classlet.Proofs.Analysis.Further
import Classlet.Proofs.Compilation.Methods
import Classlet.Proofs.Lowering.Classes
import Classlet.Proofs.Optimize.Rewriting
import Classlet.Proofs.Symbols.Dependence

/-!
# Further classes

The first class of a unit is compiled.  The symbol table is read off it, and it is the one that is
lowered; but the passes of the analysis see the whole tree, so also the classes behind.  What these
can do to a compilation is to have it rejected.

Main statement: `compile_further_classes`.
-/

namespace Classlet

open Ir Lowering Subtree

/-! ### Positions of errors -/

section Positions

variable {t t' : Tree} {e : Error}

theorem Tree.errorPosition_eq (he : ∀ node reason, e = .malformedTree node reason →
    (t'.nodes[node]?).map (·.position) = (t.nodes[node]?).map (·.position)) :
    t'.errorPosition e = t.errorPosition e := by
  cases e with
  | malformedTree node reason => rw [errorPosition, errorPosition, he node reason rfl]
  | _ => rfl

theorem Tree.Rewritten.position_eq (h : t.Rewritten t') {i : NodeId} (hi : i < t.size) :
    (t'.nodes[i]?).map (·.position) = (t.nodes[i]?).map (·.position) := by
  obtain ⟨n, hn, -, hpos, -⟩ := h.keeps (Array.getElem?_eq_getElem hi)
  rw [hn, Array.getElem?_eq_getElem hi, Option.map_some, Option.map_some, hpos]

theorem Tree.Appends.position_eq {above : NodeId} {bs : List Subtree} (h : Appends above t t' bs)
    {i : NodeId} (hi : i < t.size) :
    (t'.nodes[i]?).map (·.position) = (t.nodes[i]?).map (·.position) := by
  rw [h.nodes_eq i hi, Option.map_map]
  rfl

end Positions

namespace Compilation

variable {options : Options} {table : SymbolTable} {imports : List String} {c : ClassDecl}
  {rest : List ClassDecl} {t t' : Tree} {b : Subtree} {found : List Report}

/-! ### Stages -/

theorem optimizeIf_rewritten (ht : t.Sound) (h : optimizeIf options table t = (.ok (), t')) :
    t.Rewritten t' := by
  unfold optimizeIf at h
  split at h
  · rcases hrun : (Optimize.optimize table).run.run t with ⟨_ | stats, u⟩ <;> rw [hrun] at h
    · cases h
    · cases h
      exact ((Optimize.rewrites_of_optimize hrun ht).sound_rewritten ht).2
  · cases h
    exact .refl t

theorem compile_ok (options : Options) (h : t.Pictures ⟨imports, c :: rest⟩ b)
    (htable : t.symbolTable = .ok (table, found))
    (hnames : NamedAlike table.signatures c.methods) :
    ∃ result t', compile options t = .ok (result, t') ∧ result.symbols = some table := by
  obtain ⟨t₁, rest', b', hoptimize, h'⟩ := @optimizeIf_pictures table _ _ _ _ _ options h hnames
  rw [compile, htable, ofTable]
  split
  · exact ⟨_, t, rfl, rfl⟩
  · rw [hoptimize, ofOptimized]
    rcases lower_cases h' (hnames.optimizedIf options) with ⟨code, hcode, -⟩ | ⟨-, -, e, he, -⟩
    · rw [hcode]
      exact ⟨_, t₁, rfl, rfl⟩
    · rw [he]
      exact ⟨_, t₁, rfl, rfl⟩

/-- Where lowering gives the same, and an error names nodes in the same places, the results are the
same. -/
theorem ofLowered_eq (options : Options) (table : SymbolTable) (reports : List Report) {t u : Tree}
    (hlower : t.lower table = u.lower table)
    (hpositions : ∀ e, t.lower table = .error (.error e) → u.errorPosition e = t.errorPosition e) :
    ofLowered options table reports u (u.lower table)
      = ofLowered options table reports t (t.lower table) := by
  rw [← hlower]
  rcases h : t.lower table with (e | f) | code
  · rw [ofLowered, ofLowered, stopped, stopped, hpositions e h]
  · rfl
  · rfl

/-- Where the analysis reports the same with and without further classes, so does the compilation,
and it gives the same code. -/
theorem result_eq_of_analyze_eq {result result' : Compilation}
    (htable : (Program.mk imports [c]).build.symbolTable = .ok (table, found))
    (hnames : NamedAlike table.signatures c.methods)
    (hanalyze : analyze options.externalTypes (Program.mk imports (c :: rest)).build table
      = analyze options.externalTypes (Program.mk imports [c]).build table)
    (h : compile options (Program.mk imports [c]).build = .ok (result, t))
    (h' : compile options (Program.mk imports (c :: rest)).build = .ok (result', t')) :
    result' = result := by
  obtain ⟨as, bs, happends, -, hp, hp'⟩ := Program.pictures_further imports [c] rest
  obtain ⟨t₁, rest₁, b₁, ho, h₁⟩ := @optimizeIf_pictures table _ _ _ _ _ options hp hnames
  obtain ⟨u₁, rest₂, b₂, ho', h₂⟩ := @optimizeIf_pictures table _ _ _ _ _ options hp' hnames
  have hr := optimizeIf_rewritten (Program.mk imports [c]).sound_build ho
  have hr' := optimizeIf_rewritten (Program.mk imports ([c] ++ rest)).sound_build ho'
  have hlength : as.length = imports.length + 1 := by
    rw [(reads_node_iff.mp hp.reads).2.length_eq]
    simp [Part.parts, Program.parts]
  obtain ⟨hlower, hblamed⟩ := lower_eq_of_rewritten table hp hp' hlength hr h₁ hr' h₂
  have hlowered := fun reports => ofLowered_eq options table reports hlower fun e he => by
    refine Tree.errorPosition_eq fun node reason heq => ?_
    have hlt := hblamed node reason (heq ▸ he)
    rw [hr'.position_eq (Nat.lt_of_lt_of_le hlt happends.size_le), happends.position_eq hlt,
      hr.position_eq hlt]
  rw [compile, htable, ofTable] at h
  rw [compile, Program.symbolTable_further, htable, ofTable, hanalyze] at h'
  split at h
  · next herror =>
    rw [if_pos herror] at h'
    cases h
    cases h'
    rfl
  · next herror =>
    rw [if_neg herror, show optimizeIf options table (Program.mk imports (c :: rest)).build
      = (.ok (), u₁) from ho', ofOptimized, hlowered] at h'
    rw [ho, ofOptimized] at h
    rcases hresult : ofLowered options table _ t₁ (t₁.lower table) with f | r <;>
      rw [hresult] at h h'
    · cases h
    · cases h
      cases h'
      rfl

theorem rejected_of_not_acceptsFurther {result : Compilation}
    (h : compile options (Program.mk imports (c :: rest)).build = .ok (result, t))
    (hrejects : ¬ AcceptsFurther (Program.mk imports (c :: rest)).build
      (.ofTable (.ofDecls imports c) options.externalTypes) Pass.standard) :
    result.ir = none ∧ Report.anyError result.reports = true := by
  obtain ⟨b, hb⟩ := (Program.mk imports (c :: rest)).pictures_build
  obtain ⟨found, htable⟩ := hb.symbolTable_ok
  have hreported := (analyzeWith_further imports c rest _ _ fun _ => id).2 hrejects
  have harises := arises_of_compile h
  have hnone : result.ir = none := by
    cases harises with
    | lowered hs ha =>
      cases htable.symm.trans hs
      exact absurd ha hreported
    | _ => rfl
  exact ⟨hnone, harises.anyError_of_ir_eq_none hnone⟩

end Compilation

/-! ### The whole compilation -/

open Compilation in
/-- **Further classes have to be accepted, and do nothing else.**  A unit with further classes behind
the first one and the unit with the first class alone are both compiled to some end, with the symbol
table of the first class.  If no pass of the analysis that is run finds an error or halts in the
further classes, then the code and the reports are the same, too.  Otherwise there is an error, and
no code. -/
theorem compile_further_classes (options : Options) (imports : List String) (c : ClassDecl)
    (rest : List ClassDecl) :
    ∃ result t result' t',
      compile options (Program.mk imports [c]).build = .ok (result, t) ∧
      compile options (Program.mk imports (c :: rest)).build = .ok (result', t') ∧
      result.symbols = some (.ofDecls imports c) ∧ result'.symbols = some (.ofDecls imports c) ∧
      (AcceptsFurther (Program.mk imports (c :: rest)).build
          (.ofTable (.ofDecls imports c) options.externalTypes) Pass.standard →
        result'.ir = result.ir ∧ result'.reports = result.reports) ∧
      (¬ AcceptsFurther (Program.mk imports (c :: rest)).build
          (.ofTable (.ofDecls imports c) options.externalTypes) Pass.standard →
        result'.ir = none ∧ Report.anyError result'.reports = true) := by
  obtain ⟨b, hb⟩ := (Program.mk imports [c]).pictures_build
  obtain ⟨b', hb'⟩ := (Program.mk imports (c :: rest)).pictures_build
  obtain ⟨found, htable⟩ := hb.symbolTable_ok
  have hnames : NamedAlike (SymbolTable.ofDecls imports c).signatures c.methods :=
    namedAlike_ofDecl c.methods
  have htable' := (Program.symbolTable_further imports c rest).trans htable
  obtain ⟨result, t, h, hsymbols⟩ := compile_ok options hb htable hnames
  obtain ⟨result', t', h', hsymbols'⟩ := compile_ok options hb' htable' hnames
  refine ⟨result, t, result', t', h, h', hsymbols, hsymbols', fun haccepts => ?_,
    rejected_of_not_acceptsFurther h'⟩
  have hanalyze := (analyzeWith_further imports c rest _ _ fun _ => id).1 haccepts
  obtain rfl := result_eq_of_analyze_eq htable hnames hanalyze h h'
  exact ⟨rfl, rfl⟩

/-- A class with a method of the same name as that of `idleClass`. -/
def loopingClass : ClassDecl where
  name := "Looping"
  superclass := none
  fields := [("x", ⟨"int", false, false⟩)]
  methods := [⟨"run", true, false, some ⟨"void", false, false⟩, [], [],
    [.whileDo (.binary .lt (.int 1) (.int 2)) (.block [])]⟩]

/-- A further class that is accepted changes nothing. -/
theorem compile_further_classes_looping :
    ∃ result t result' t',
      compile { optimize := true, registers := .minimize } (Program.mk [] [idleClass]).build
        = .ok (result, t) ∧
      compile { optimize := true, registers := .minimize }
        (Program.mk [] [idleClass, loopingClass]).build = .ok (result', t') ∧
      result'.symbols = result.symbols ∧ result'.ir = result.ir ∧
      result'.reports = result.reports := by
  have haccepts : AcceptsFurther (Program.mk [] [idleClass, loopingClass]).build
      (.ofTable (.ofDecls [] idleClass) .assumeCompatible) Pass.standard := by decide +kernel
  obtain ⟨result, t, result', t', h, h', hsymbols, hsymbols', hsame, -⟩ :=
    compile_further_classes { optimize := true, registers := .minimize } [] idleClass [loopingClass]
  exact ⟨result, t, result', t', h, h', hsymbols'.trans hsymbols.symm, hsame haccepts⟩

/-- A class with a field of a type that is defined nowhere. -/
def foreignClass : ClassDecl where
  name := "Foreign"
  superclass := none
  fields := [("f", ⟨"Foo", false, false⟩)]
  methods := []

/-- A compilation that comes to an end: whether there is code, and the reports. -/
def outcome? : Except Fault (Compilation × Tree) → Option (Bool × List Report)
  | .ok (result, _) => some (result.ir.isSome, result.reports)
  | .error _ => none

theorem exists_of_outcome? {r : Except Fault (Compilation × Tree)} {hasCode : Bool}
    {reports : List Report} (h : outcome? r = some (hasCode, reports)) :
    ∃ result t, r = .ok (result, t) ∧ result.ir.isSome = hasCode ∧ result.reports = reports := by
  unfold outcome? at h
  split at h
  · next result t =>
    cases h
    exact ⟨result, t, rfl, rfl, rfl⟩
  · cases h

/-- **Further classes do matter**: the type of a field in one is not supported. -/
theorem further_class_rejected :
    ∃ result t result' t',
      compile {} (Program.mk [] [idleClass]).build = .ok (result, t) ∧
      compile {} (Program.mk [] [idleClass, foreignClass]).build = .ok (result', t') ∧
      result.ir.isSome = true ∧ result.reports = [] ∧ result'.ir.isSome = false ∧
      result'.reports = [.error .semantic ⟨5, 3⟩ "Unsupported type `Foo` for field"] ∧
      ¬ (result'.symbols = result.symbols ∧ result'.ir = result.ir ∧
        result'.reports = result.reports) := by
  obtain ⟨result, t, h, hir, hreports⟩ := @exists_of_outcome?
    (compile {} (Program.mk [] [idleClass]).build) true [] (by decide +kernel)
  obtain ⟨result', t', h', hir', hreports'⟩ := @exists_of_outcome?
    (compile {} (Program.mk [] [idleClass, foreignClass]).build) false
    [.error .semantic ⟨5, 3⟩ "Unsupported type `Foo` for field"] (by decide +kernel)
  refine ⟨result, t, result', t', h, h', hir, hreports, hir', hreports', fun ⟨_, hsame, _⟩ => ?_⟩
  rw [hsame, hir] at hir'
  cases hir'

end Classlet
