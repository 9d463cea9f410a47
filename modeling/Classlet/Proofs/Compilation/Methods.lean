import Classlet.Proofs.Compilation.Results
import Classlet.Proofs.Lowering.Interfaces
import Classlet.Proofs.Optimize.NormalForm
import Classlet.Proofs.Registers.Classes

/-!
# Methods compile independently

The code of a method is determined by its own declaration and by the interface of its class.  The
body and the local variables of another method change the ids of the tree and the number of rounds
the optimizer takes, but the optimizer ends with normal forms whatever its rounds are, lowering
looks at no id, and registers are allocated method by method.

Main statement: `compile_methods_independent`.
-/

namespace Classlet

open Ir Lowering Subtree

/-! ### What is lowered -/

/-- The method as it is lowered: in its normal form if that is asked for. -/
def MethodDecl.optimizedIf (options : Options) (s : Signature) (m : MethodDecl) : MethodDecl :=
  if options.optimize then m.normalize s else m

/-- The class as it is lowered. -/
def ClassDecl.optimizedIf (options : Options) (signatures : List Signature) (c : ClassDecl) :
    ClassDecl :=
  if options.optimize then c.normalize signatures else c

theorem NamedAlike.optimizedIf {signatures : List Signature} {c : ClassDecl}
    (h : NamedAlike signatures c.methods) (options : Options) :
    NamedAlike signatures (c.optimizedIf options signatures).methods := by
  rw [ClassDecl.optimizedIf]
  split
  · exact h.normalize
  · exact h

theorem ClassDecl.zip_optimizedIf (options : Options) (c : ClassDecl) :
    (c.methods.map Signature.ofDecl).zip
        (c.optimizedIf options (c.methods.map Signature.ofDecl)).methods
      = c.methods.map fun m => (.ofDecl m, m.optimizedIf options (.ofDecl m)) := by
  have hmethods : (c.optimizedIf options (c.methods.map Signature.ofDecl)).methods
      = c.methods.map fun m => m.optimizedIf options (.ofDecl m) := by
    unfold optimizedIf MethodDecl.optimizedIf
    split
    · rw [normalize, List.zipWith_map_left, List.zipWith_self]
    · exact (List.map_id' _).symm
  rw [hmethods, List.zip_map']

namespace Compilation

variable {options : Options} {table : SymbolTable} {imports : List String} {c : ClassDecl}
  {rest : List ClassDecl} {t t' : Tree} {b : Subtree}

theorem optimizeIf_pictures (options : Options) (h : t.Pictures ⟨imports, c :: rest⟩ b)
    (hnames : NamedAlike table.signatures c.methods) :
    ∃ t' rest' b', optimizeIf options table t = (.ok (), t') ∧
      t'.Pictures ⟨imports, c.optimizedIf options table.signatures :: rest'⟩ b' := by
  cases hoptimize : options.optimize with
  | false =>
    refine ⟨t, rest, b, Arises.optimizeIf_of_not_optimize hoptimize, ?_⟩
    rwa [ClassDecl.optimizedIf, hoptimize, if_neg Bool.false_ne_true]
  | true =>
    obtain ⟨stats, t', b', rest', hrun, h'⟩ := optimize_normalizes h hnames
    refine ⟨t', rest', b', Arises.optimizeIf_of_optimize hoptimize hrun, ?_⟩
    rwa [ClassDecl.optimizedIf, if_pos hoptimize]

/-- The methods of the code that a compilation gives are those of the declarations in their order,
lowered each by itself and then allocated each by itself. -/
theorem forall₂_of_compile {result : Compilation} {code : ClassCode}
    (h : t.Pictures ⟨imports, c :: rest⟩ b) (hcompile : compile options t = .ok (result, t'))
    (hir : result.ir = some code) :
    ∃ lowered : List MethodCode,
      code.methods = lowered.map (fun m =>
        { m with registers := Registers.granted? options.registers m }) ∧
      List.Forall₂ (fun m d => CodeOf (.ofDecls imports c) m
        (.ofDecl d, d.optimizedIf options (.ofDecl d))) lowered c.methods := by
  obtain ⟨found, htable⟩ := h.symbolTable_ok
  have hnames : NamedAlike (SymbolTable.ofDecls imports c).signatures c.methods :=
    namedAlike_ofDecl c.methods
  cases arises_of_compile hcompile with
  | @lowered table lowered t₁ hs _ ho hl =>
    cases htable.symm.trans hs
    cases hir
    obtain ⟨t₂, rest', b', ho', h'⟩ := optimizeIf_pictures options h hnames
    cases ho.symm.trans ho'
    have hforall := forall₂_lower h' (hnames.optimizedIf options) hl
    refine ⟨lowered.methods, by rw [Registers.allocateClass_eq], ?_⟩
    rw [SymbolTable.ofDecls, ClassDecl.zip_optimizedIf, List.forall₂_map_right_iff] at hforall
    exact hforall
  | _ => cases hir

end Compilation

/-! ### Another body -/

/-- The class with another body and other local variables in the `j`-th method. -/
def ClassDecl.withBody (c : ClassDecl) (j : Nat) (locals : List (String × TypeExpr))
    (body : List Stmt) : ClassDecl :=
  { c with methods := c.methods.modify j fun m => { m with locals, body } }

theorem ClassDecl.map_withBody {α : Type} (c : ClassDecl) (j : Nat)
    (locals : List (String × TypeExpr)) (body : List Stmt) {g : MethodDecl → α}
    (h : ∀ m : MethodDecl, g { m with locals, body } = g m) :
    (c.withBody j locals body).methods.map g = c.methods.map g := by
  refine List.ext_getElem? fun i => ?_
  rw [List.getElem?_map, List.getElem?_map, withBody, List.getElem?_modify]
  split <;> simp [Function.comp_def, h]

theorem SymbolTable.interface_withBody (imports : List String) (c : ClassDecl) (j : Nat)
    (locals : List (String × TypeExpr)) (body : List Stmt) :
    (ofDecls imports (c.withBody j locals body)).interface = (ofDecls imports c).interface := by
  simp only [interface, ofDecls, List.map_map]
  rw [c.map_withBody j locals body fun _ => rfl, c.map_withBody j locals body fun _ => rfl]
  rfl

theorem getElem?_eq_of_forall₂ {α β : Type} {R R' : α → β → Prop} {as as' : List α}
    {bs bs' : List β} (h : List.Forall₂ R as bs) (h' : List.Forall₂ R' as' bs') {i : Nat}
    (hi : bs'[i]? = bs[i]?) (hR : ∀ a a' b, R a b → R' a' b → a' = a) : as'[i]? = as[i]? := by
  rcases forall₂_getElem? h i with ⟨ha, hb⟩ | ⟨a, b, ha, hb, hab⟩ <;>
    rcases forall₂_getElem? h' i with ⟨ha', hb'⟩ | ⟨a', b', ha', hb', hab'⟩ <;>
    rw [hi, hb] at hb' <;> cases hb'
  · rw [ha, ha']
  · rw [ha, ha', hR a a' b hab hab']

theorem Lowering.CodeOf.eq {table table' : SymbolTable} {code code' : MethodCode}
    {q : Signature × MethodDecl} (h : CodeOf table code q) (h' : CodeOf table' code' q)
    (hinterface : table'.interface = table.interface) : code' = code := by
  obtain ⟨cs, hcs, hcode⟩ := h
  obtain ⟨ds, hds, hcode'⟩ := h'
  have hsame : SameInterface ⟨table, q.1⟩ ⟨table', q.1⟩ := ⟨.of_eq hinterface, rfl⟩
  rw [← List.map_id (MethodDecl.parts _)] at hds
  have hends := lowerMethod_upTo hsame hcs (forall₂_upTo (fun _ _ => upTo_of_reads) hcs hds)
  rw [hcode, hcode'] at hends
  exact hends.ok_eq.symm

open Compilation in
/-- **Methods compile independently.**  Give one method of a class another body and other local
variables.  If both programs compile to code, with any options, then the code of every other method
is the same, with its instructions, temporary variables, labels, variable table and registers. -/
theorem compile_methods_independent {options : Options} {imports : List String} {c : ClassDecl}
    {j : Nat} {locals : List (String × TypeExpr)} {body : List Stmt} {result result' : Compilation}
    {t t' : Tree} {code code' : ClassCode}
    (h : compile options (Program.mk imports [c]).build = .ok (result, t))
    (hir : result.ir = some code)
    (h' : compile options (Program.mk imports [c.withBody j locals body]).build = .ok (result', t'))
    (hir' : result'.ir = some code') :
    ∀ i, i ≠ j → code'.methods[i]? = code.methods[i]? := by
  intro i hij
  obtain ⟨b, hb⟩ := (Program.mk imports [c]).pictures_build
  obtain ⟨b', hb'⟩ := (Program.mk imports [c.withBody j locals body]).pictures_build
  obtain ⟨lowered, hcode, hlowered⟩ := forall₂_of_compile hb h hir
  obtain ⟨lowered', hcode', hlowered'⟩ := forall₂_of_compile hb' h' hir'
  have hsame : (c.withBody j locals body).methods[i]? = c.methods[i]? :=
    List.getElem?_modify_ne _ _ (Ne.symm hij)
  have hlowered_eq : lowered'[i]? = lowered[i]? :=
    getElem?_eq_of_forall₂ hlowered hlowered' hsame fun _ _ _ hm hm' =>
      hm.eq hm' (SymbolTable.interface_withBody imports c j locals body)
  rw [hcode, hcode', List.getElem?_map, List.getElem?_map, hlowered_eq]

/-- A class whose second method calls the first. -/
def calling : ClassDecl where
  name := "Calling"
  superclass := none
  fields := [("f", ⟨"int", false, false⟩)]
  methods := [
    { name := "first", isPublic := true, isStatic := false, returnType := some ⟨"int", false, false⟩
      params := [("n", ⟨"int", false, false⟩)], locals := []
      body := [.ret (some (.var "n"))] },
    { name := "second", isPublic := true, isStatic := false
      returnType := some ⟨"int", false, false⟩
      params := [("n", ⟨"int", false, false⟩)], locals := [("a", ⟨"int", false, false⟩)]
      body := [
        .assign "a" (.int 2),
        .ifThen (.binary .lt (.var "n") (.var "f"))
          (.ret (some (.call .this "first" [.binary .mul (.var "a") (.var "n")]))),
        .ret (some (.var "a"))] }]

/-- A body on which the optimizer takes several rounds. -/
def chainedBody : List Stmt := [
  .assign "b" (.binary .add (.int 1) (.int 2)),
  .assign "c" (.binary .mul (.var "b") (.var "b")),
  .ret (some (.var "c"))]

/-- The code that a compilation gives. -/
def code? : Except Fault (Compilation × Tree) → Option ClassCode
  | .ok (result, _) => result.ir
  | .error _ => none

theorem exists_of_code? {r : Except Fault (Compilation × Tree)} (h : (code? r).isSome = true) :
    ∃ result t code, r = .ok (result, t) ∧ result.ir = some code := by
  unfold code? at h
  split at h
  · next result t =>
    obtain ⟨code, hcode⟩ := Option.isSome_iff_exists.mp h
    exact ⟨result, t, code, rfl, hcode⟩
  · cases h

/-- The code of the second method does not depend on how long the optimizer works on the first. -/
theorem compile_methods_independent_calling :
    ∃ result t result' t' code code',
      compile { optimize := true, registers := .minimize } (Program.mk [] [calling]).build
        = .ok (result, t) ∧ result.ir = some code ∧
      compile { optimize := true, registers := .minimize } (Program.mk [] [calling.withBody 0
          [("b", ⟨"int", false, false⟩), ("c", ⟨"int", false, false⟩)] chainedBody]).build
        = .ok (result', t') ∧ result'.ir = some code' ∧
      code'.methods[1]? = code.methods[1]? := by
  have hfirst : (code? (compile { optimize := true, registers := .minimize }
      (Program.mk [] [calling]).build)).isSome = true := by decide +kernel
  have hsecond : (code? (compile { optimize := true, registers := .minimize }
      (Program.mk [] [calling.withBody 0 [("b", ⟨"int", false, false⟩),
        ("c", ⟨"int", false, false⟩)] chainedBody]).build)).isSome = true := by decide +kernel
  obtain ⟨result, t, code, h, hir⟩ := exists_of_code? hfirst
  obtain ⟨result', t', code', h', hir'⟩ := exists_of_code? hsecond
  exact ⟨result, t, result', t', code, code', h, hir, h', hir',
    compile_methods_independent h hir h' hir' 1 (by decide)⟩

end Classlet
