import Classlet.Proofs.Compilation.Results
import Classlet.Proofs.Lowering.Classes
import Classlet.Proofs.Optimize.Parentheses
import Classlet.Proofs.Symbols.Messages

/-!
# Parentheses and compilations

The compilation of a program and that of the bare program agree stage by stage: the declarations are
the same, the analysis has the same messages, the optimizer ends with normal forms that differ in
parentheses only, and trees that differ in parentheses only are lowered alike.

Main statement: `compile_bare`.
-/

namespace Classlet

/-! ### Declarations -/

theorem MethodDecl.messagesOfAll_bare (seen : List String) (methods : List MethodDecl) :
    messagesOfAll seen (methods.map bare) = messagesOfAll seen methods := by
  induction methods generalizing seen with
  | nil => rfl
  | cons m methods ih =>
    rw [List.map_cons, messagesOfAll, messagesOfAll, ← ih]
    rfl

theorem ClassDecl.declarationMessages_bare (c : ClassDecl) :
    c.bare.declarationMessages = c.declarationMessages := by
  rw [declarationMessages, declarationMessages, ← MethodDecl.messagesOfAll_bare [] c.methods]
  rfl

theorem SymbolTable.ofDecls_bare (imports : List String) (c : ClassDecl) :
    ofDecls imports c.bare = ofDecls imports c := by
  simp only [ofDecls, ClassDecl.bare, List.map_map]
  rfl

/-! ### Stages -/

namespace Compilation

/-- The messages of the semantic stage. -/
def semanticMessages (c : Compilation) : List String :=
  (c.reports.filter (·.stage = .semantic)).map Report.message

/-- The results have the same symbols and the same code, are both a success or both not, and have
the same messages of the semantic stage. -/
structure Agrees (c c' : Compilation) : Prop where
  symbols : c'.symbols = c.symbols
  ir : c'.ir = c.ir
  isSuccess : c'.isSuccess = c.isSuccess
  semanticMessages : c'.semanticMessages = c.semanticMessages

theorem Agrees.refl (c : Compilation) : Agrees c c := ⟨rfl, rfl, rfl, rfl⟩

theorem Agrees.of_ir_eq_none {symbols : Option SymbolTable} {reports reports' : List Report}
    (h : Compilation.semanticMessages ⟨symbols, none, reports'⟩
      = Compilation.semanticMessages ⟨symbols, none, reports⟩) :
    Agrees ⟨symbols, none, reports⟩ ⟨symbols, none, reports'⟩ where
  symbols := rfl
  ir := rfl
  isSuccess := by simp only [Compilation.isSuccess, Option.isSome_none, Bool.false_and]
  semanticMessages := h

theorem semanticMessages_of_errors {symbols : Option SymbolTable} {ir : Option Ir.ClassCode}
    {reports : List Report} (h : ∀ r ∈ reports, r.IsSemanticError) :
    semanticMessages ⟨symbols, ir, reports⟩ = reports.map Report.message := by
  rw [semanticMessages, List.filter_eq_self.mpr fun r hr => by simp [(h r hr).1]]

theorem Agrees.of_errors {symbols : Option SymbolTable} {reports reports' : List Report}
    (h : ∀ r ∈ reports, r.IsSemanticError) (h' : ∀ r ∈ reports', r.IsSemanticError)
    (hmessages : reports'.map Report.message = reports.map Report.message) :
    Agrees ⟨symbols, none, reports⟩ ⟨symbols, none, reports'⟩ := by
  refine .of_ir_eq_none ?_
  rw [semanticMessages_of_errors h, semanticMessages_of_errors h', hmessages]

/-- Computations that both end, with results that agree. -/
def EndsAgreeing (x y : Except Fault (Compilation × Tree)) : Prop :=
  ∃ c t c' t', x = .ok (c, t) ∧ y = .ok (c', t') ∧ Agrees c c'

variable (options : Options) {table : SymbolTable} {imports : List String} {c : ClassDecl}
  {t t' : Tree} {b b' : Subtree} {rest rest' : List ClassDecl}

/-- Trees that are lowered give the same code, or both none. -/
theorem ofOptimized_agrees (h : t.Pictures ⟨imports, c :: rest⟩ b)
    (h' : t'.Pictures ⟨imports, c.bare :: rest'⟩ b')
    (hnames : NamedAlike table.signatures c.methods) :
    EndsAgreeing (ofOptimized options table [] (.ok (), t))
      (ofOptimized options table [] (.ok (), t')) := by
  have hends := Lowering.lower_cases h hnames
  rw [ofOptimized, ofOptimized]
  rcases Lowering.lower_bare table h h' with ⟨heq, -⟩ | ⟨i, j, reason, -, he, he'⟩
  · rw [← heq]
    rcases hends with ⟨code, hcode, -⟩ | ⟨-, -, e, he, -⟩
    · rw [hcode]
      exact ⟨_, t, _, t', rfl, rfl, .refl _⟩
    · rw [he]
      exact ⟨_, t, _, t', rfl, rfl, .of_ir_eq_none rfl⟩
  · rw [he, he']
    exact ⟨_, t, _, t', rfl, rfl, .of_ir_eq_none rfl⟩

/-- **From the tree of an accepted program on**, with the optimizer or without. -/
theorem ofOptimized_optimizeIf_agrees (h : t.Pictures ⟨imports, c :: rest⟩ b)
    (h' : t'.Pictures ⟨imports, c.bare :: rest'⟩ b')
    (hnames : NamedAlike table.signatures c.methods) :
    EndsAgreeing (ofOptimized options table [] (optimizeIf options table t))
      (ofOptimized options table [] (optimizeIf options table t')) := by
  cases hoptimize : options.optimize with
  | false =>
    rw [Arises.optimizeIf_of_not_optimize hoptimize, Arises.optimizeIf_of_not_optimize hoptimize]
    exact ofOptimized_agrees options h h' hnames
  | true =>
    have hnames' : NamedAlike table.signatures c.bare.methods :=
      List.forall₂_map_right_iff.mpr hnames
    obtain ⟨stats, u, d, more, hrun, hd⟩ := optimize_normalizes h hnames
    obtain ⟨stats', u', d', more', hrun', hd'⟩ := optimize_normalizes h' hnames'
    rw [ClassDecl.normalize_bare] at hd'
    rw [Arises.optimizeIf_of_optimize hoptimize hrun, Arises.optimizeIf_of_optimize hoptimize hrun']
    exact ofOptimized_agrees options hd hd' hnames.normalize

theorem checked_messages (h : t.Pictures ⟨imports, c :: rest⟩ b)
    (h' : t'.Pictures (Program.mk imports (c :: rest)).bare b') {found found' : List Report}
    (hs : t.symbolTable = .ok (table, found)) (hs' : t'.symbolTable = .ok (table, found')) :
    (found' ++ analyze options.externalTypes t' table).map Report.message
      = (found ++ analyze options.externalTypes t table).map Report.message := by
  rw [List.map_append, List.map_append, h.symbolTable_messages hs, h'.symbolTable_messages hs',
    c.declarationMessages_bare, analyze_messages options.externalTypes table h h']

/-- **The tree of a program with a class and that of the bare program.** -/
theorem compile_agrees (h : t.Pictures ⟨imports, c :: rest⟩ b)
    (h' : t'.Pictures (Program.mk imports (c :: rest)).bare b') :
    EndsAgreeing (compile options t) (compile options t') := by
  have hnames : NamedAlike (SymbolTable.ofDecls imports c).signatures c.methods :=
    namedAlike_ofDecl c.methods
  obtain ⟨found, hs⟩ := h.symbolTable_ok
  obtain ⟨found', hs'⟩ := h'.symbolTable_ok
  rw [SymbolTable.ofDecls_bare] at hs'
  have hmessages := checked_messages options h h' hs hs'
  have herrors := isSemanticError_of_mem_checked options hs
  have herrors' := isSemanticError_of_mem_checked options hs'
  rw [compile, compile, hs, hs', ofTable, ofTable]
  generalize found ++ analyze options.externalTypes t (.ofDecls imports c) = reports at *
  generalize found' ++ analyze options.externalTypes t' (.ofDecls imports c) = reports' at *
  have hany := Report.anyError_eq_false_iff fun r hr => (herrors r hr).2
  have hany' := Report.anyError_eq_false_iff fun r hr => (herrors' r hr).2
  by_cases hnil : reports = []
  · obtain rfl := hnil
    obtain rfl := List.map_eq_nil_iff.mp hmessages
    rw [Report.anyError_nil, if_neg Bool.false_ne_true, if_neg Bool.false_ne_true]
    exact ofOptimized_optimizeIf_agrees options h h' hnames
  · have hnil' : reports' ≠ [] := by
      rintro rfl
      exact hnil (List.map_eq_nil_iff.mp hmessages.symm)
    rw [if_pos (Bool.of_not_eq_false (hany.not.mpr hnil)),
      if_pos (Bool.of_not_eq_false (hany'.not.mpr hnil'))]
    exact ⟨_, t, _, t', rfl, rfl, .of_errors herrors herrors' hmessages⟩

end Compilation

/-- **Parentheses are transparent.**  Take away the parentheses of a program, all of them.  With any
options, compiling the program and compiling what is left both come to an end, with the same symbol
table, the same code, registers included, the same success, and the same messages of the semantic
stage in the same order. -/
theorem compile_bare (options : Options) (p : Program) :
    (∀ part : Part, part.Inside (.program p.bare) → ∀ inner, part ≠ .expr (.paren inner)) ∧
    ∃ result t result' t', compile options p.build = .ok (result, t) ∧
      compile options p.bare.build = .ok (result', t') ∧
      result'.symbols = result.symbols ∧ result'.ir = result.ir ∧
      result'.isSuccess = result.isSuccess ∧
      result'.semanticMessages = result.semanticMessages := by
  have hnone : ∀ part : Part, part.Inside (.program p.bare) →
      ∀ inner, part ≠ .expr (.paren inner) := fun part hpart =>
    @Part.ne_paren_of_inside_bare part (.program p) hpart
  obtain ⟨b, hb⟩ := p.pictures_build
  obtain ⟨b', hb'⟩ := p.bare.pictures_build
  generalize p.build = t at *
  generalize p.bare.build = t' at *
  have hends : Compilation.EndsAgreeing (compile options t) (compile options t') := by
    obtain ⟨imports, classes⟩ := p
    cases classes with
    | nil =>
      rw [compile, compile, hb.symbolTable_error, hb'.symbolTable_error]
      exact ⟨_, t, _, t', rfl, rfl, .of_ir_eq_none rfl⟩
    | cons c rest => exact Compilation.compile_agrees options hb hb'
  obtain ⟨result, u, result', u', h, h', hagrees⟩ := hends
  exact ⟨hnone, result, u, result', u', h, h', hagrees.symbols, hagrees.ir, hagrees.isSuccess,
    hagrees.semanticMessages⟩

end Classlet
