import Classlet.Proofs.Lowering.Methods
import Classlet.Proofs.Lowering.Statements

/-!
# Lowering preserves meaning

A lowered method, run with one cell for every name, ends exactly as the method does: with the same
outcome and in the same world (`lowerMethod_ends`).  A method that returns nothing gets a return at
its end unless its code ends in one, and code that ends in a return never gets past it.

`lower_preserves_meaning` states this for every method of a program whose tree is lowered.
-/

namespace Classlet.Lowering

open Classlet.Ir Classlet.Semantics

variable {R W : Type} [DecidableEq R]
variable {cx : Context} {world : World R W} {st st' : State}

theorem covers_start (cx : Context) : cx.Covers cx.start := by
  rintro name (hn | rfl)
  · refine .inl ?_
    have hfound : ∀ {symbols : List Symbol} {s : Symbol}, Symbol.find? symbols name = some s →
        name ∈ symbols.map (·.name) := by
      intro symbols s hs
      have heq : s.name = name := by simpa using List.find?_some hs
      exact List.mem_map.mpr ⟨s, List.mem_of_find?_eq_some hs, heq⟩
    obtain ⟨⟨origin, symbol⟩, hr⟩ := Option.isSome_iff_exists.mp hn
    unfold Context.resolve SymbolTable.resolveIn at hr
    simp only [Context.start, NameSupply.ofReserved, List.map_append, List.mem_append]
    rcases hp : cx.signature.param? name with _ | s
    · rcases hl : cx.signature.localVar? name with _ | s
      · simp only [hp, hl] at hr
        obtain ⟨f, hf, -⟩ := Option.map_eq_some_iff.mp hr
        exact .inl (.inr (hfound hf))
      · exact .inl (.inl (.inr (hfound hl)))
    · exact .inl (.inl (.inl (hfound hp)))
  · exact .inl (by simp [Context.start, NameSupply.ofReserved])

theorem lowerBody_executes {parts : List Part} : ∀ {cs : List Subtree} {st st' : State}
    {code : List Instr}, List.Forall₂ Subtree.Reads cs parts → cx.Covers st →
    lowerBody cx (cs.map fun c _ => c.toShape) st = .ok (code, st') →
    Executes cx world st st' code
      fun n => execAll (cx.setting world) n (parts.filterMap Part.stmt?) := by
  induction parts with
  | nil =>
    intro cs st st' code hcs hc h
    cases hcs
    cases pure_ok h
    exact .nil
  | cons part parts ih =>
    intro cs st st' code hcs hc h
    obtain ⟨⟨i, k, p, ds⟩, cs, hcp, hrest, rfl⟩ := List.forall₂_cons_right_iff.mp hcs
    simp only [List.map_cons, lowerBody, Subtree.toShape_node, Shape.kind] at h
    obtain ⟨inner, -, hk⟩ := Subtree.reads_node.mp hcp
    have hkind := Part.isStatement_of_ofKind hk
    have hpure : ∀ f : Kind → Lower (List Instr),
        (liftM (pure k : Except Halt Kind) >>= f) st = f k st := fun _ => rfl
    rw [hpure] at h
    rcases hs : part.stmt? with _ | s <;> rw [hs] at hkind
    · rw [if_neg (by simp [hkind]), pure_bind] at h
      obtain ⟨code₁, st₁, hb, h⟩ := bind_ok h
      cases pure_ok h
      rw [List.filterMap_cons_none hs, List.nil_append]
      exact ih hrest hc hb
    · rw [if_pos (by simp [hkind]), ← Subtree.toShape_node] at h
      obtain ⟨code₁, st₁, ha, h⟩ := bind_ok h
      obtain ⟨code₂, st₂, hb, h⟩ := bind_ok h
      cases pure_ok h
      have hstmt : (Subtree.node i k p ds).IsStmt s := by
        cases part <;> cases hs
        exact hcp
      have hfirst := (lowerStmt_executes cx world s).of_isStmt hstmt hc ha
      rw [List.filterMap_cons_some hs]
      exact hfirst.append (ih hrest (hc.mono hfirst.advances) hb)

/-! ### Methods -/

omit [DecidableEq R] in
theorem Context.Matches.refl (cx : Context) (σ : Store R) : cx.Matches σ σ := fun _ _ => rfl

theorem endWithReturn_cases (ty : ValueType) (code : List Instr) :
    (endWithReturn ty code = code ∧
        (ty.isVoid = true → code.getLast?.any Instr.isReturn = true)) ∨
      (endWithReturn ty code = code ++ [.ret none] ∧ ty.isVoid = true) := by
  unfold endWithReturn
  by_cases hv : ty.isVoid = true <;> by_cases hl : code.getLast?.any Instr.isReturn = true
  · exact .inl ⟨by simp [hv, hl], fun _ => hl⟩
  · exact .inr ⟨by simp [hv, hl], hv⟩
  · exact .inl ⟨by simp [hv], fun h => absurd h hv⟩
  · exact .inl ⟨by simp [hv], fun h => absurd h hv⟩

/-- **What a machine does with the code of a body**: it ends as the body does, or is still running
after `n` steps where the body needs more than `n` rounds. -/
theorem Executes.run_eq {code : List Instr} {f : Nat → Store R → W → Progress R W}
    (h : Executes cx world st st' code f) {whole : List Instr}
    (hw : whole = endWithReturn (.ofTy cx.signature.returnType) code) (n : Nat) (σ : Store R)
    (w : W) :
    match (f n σ w).outcome? (cx.setting world).outcomeAtEnd with
    | some (o, w') => (Machine.named world whole).Ends σ w o w'
    | none => (Machine.named world whole).run n ⟨whole, σ, w⟩ = none := by
  have hend : (cx.setting world).outcomeAtEnd
      = if (ValueType.ofTy cx.signature.returnType).isVoid then .returned none else .completed :=
  rfl
  rw [hend, hw]
  generalize ValueType.ofTy cx.signature.returnType = ty
  obtain ⟨tail, htail, hlast⟩ : ∃ tail, endWithReturn ty code = code ++ tail ∧
      (tail = [] ∧ (ty.isVoid = true → code.getLast?.any Instr.isReturn = true) ∨
        tail = [.ret none] ∧ ty.isVoid = true) := by
    rcases endWithReturn_cases ty code with ⟨he, hl⟩ | ⟨he, hv⟩
    · exact ⟨[], by simp [he], .inl ⟨rfl, hl⟩⟩
    · exact ⟨[.ret none], he, .inr ⟨rfl, hv⟩⟩
  have hnodup : (labels (code ++ tail)).Nodup := by
    have hnil : labels tail = [] := by
      rcases hlast with ⟨rfl, -⟩ | ⟨rfl, -⟩ <;> rfl
    rw [labels_append, hnil, List.append_nil]
    exact h.labelled.nodup
  have hf := h.follows n (code ++ tail) [] tail rfl hnodup σ σ w (.refl cx σ)
  rw [htail]
  rcases hr : f n σ w with ⟨σ', w'⟩ | ⟨o, w'⟩ | _ <;> rw [hr] at hf
  · obtain ⟨k, cells, hl, -⟩ := hf
    refine ⟨k + 1, hl.run_some (Machine.run_of_step ?_)⟩
    rcases hlast with ⟨rfl, hret⟩ | ⟨rfl, hvoid⟩
    · rw [if_neg fun hv => h.returns (hret hv) n σ w σ' w' hr]
      rfl
    · rw [if_pos hvoid]
      rfl
  · exact hf
  · exact hf

/-- **A lowered method ends as the method does.** -/
theorem lowerMethod_ends {cs : List Subtree} {parts : List Part} {method : MethodCode}
    (hcs : List.Forall₂ Subtree.Reads cs parts)
    (h : lowerMethod cx (cs.map fun c _ => c.toShape) = .ok method) (σ : Store R) (w : W)
    (o : Outcome R) (w' : W) :
    MethodEnds (cx.setting world) (parts.filterMap Part.stmt?) σ w o w' ↔
      (Machine.named world method.instructions).Ends σ w o w' := by
  obtain ⟨code, st', hcode, rfl, -⟩ := lowerMethod_ok h
  have hexec : Executes cx world _ _ _ _ := lowerBody_executes hcs (covers_start cx) hcode
  constructor
  · rintro ⟨n, hn⟩
    have hrun := hexec.run_eq rfl n σ w
    rw [hn] at hrun
    exact hrun
  · -- with as many rounds as the machine takes steps the body has ended, too
    rintro ⟨n, hn⟩
    have hrun := hexec.run_eq rfl n σ w
    rcases ho : (execAll (cx.setting world) n (parts.filterMap Part.stmt?) σ w).outcome?
      (cx.setting world).outcomeAtEnd with _ | ⟨o₁, w₁⟩ <;> rw [ho] at hrun
    · cases hn.symm.trans hrun
    · obtain ⟨rfl, rfl⟩ := Machine.Ends.unique hrun ⟨n, hn⟩
      exact ⟨n, ho⟩

/-! ### Classes -/

theorem lowerMethods_ok {table : SymbolTable} {parts : List Part} : ∀ {cs : List Subtree}
    {index k : Nat} {methods : List MethodCode} {m : MethodDecl},
    List.Forall₂ Subtree.Reads cs parts →
    lowerMethods table index (cs.map fun c _ => c.toShape) = .ok methods →
    (parts.filterMap Part.method?)[k]? = some m →
    ∃ s method ds inner, table.signatures[index + k]? = some s ∧ s.name = m.name ∧
      methods[k]? = some method ∧ List.Forall₂ Subtree.Reads ds inner ∧
      m.body = inner.filterMap Part.stmt? ∧
      lowerMethod ⟨table, s⟩ (ds.map fun c _ => c.toShape) = .ok method := by
  induction parts with
  | nil =>
    intro cs index k methods m hcs h hm
    simp at hm
  | cons part parts ih =>
    intro cs index k methods m hcs h hm
    obtain ⟨⟨i, kind, p, ds⟩, cs, hcp, hrest, rfl⟩ := List.forall₂_cons_right_iff.mp hcs
    obtain ⟨inner, hds, hk⟩ := Subtree.reads_node.mp hcp
    have hmethod := Part.method?_of_ofKind hk
    simp only [List.map_cons, lowerMethods, Subtree.toShape_node] at h
    by_cases hkind : ∃ name isPublic isStatic, kind = .methodDecl name isPublic isStatic
    · obtain ⟨name, isPublic, isStatic, rfl⟩ := hkind
      rw [List.filterMap_cons_some hmethod] at hm
      simp only at h
      rcases hs : table.declared index name with e | s <;> rw [hs] at h
      · cases h
      rcases hl : lowerMethod ⟨table, s⟩ (ds.map fun c _ => c.toShape) with e | first <;>
        simp only [bind, Except.bind, hl] at h
      · cases h
      rcases hr : lowerMethods table (index + 1) (cs.map fun c _ => c.toShape) with e | others <;>
        simp only [hr] at h
      · cases h
      cases h
      rcases k with _ | k
      · cases hm
        have hdecl := SymbolTable.of_declared_ok hs
        exact ⟨s, first, ds, inner, hdecl.1, hdecl.2, rfl, hds, rfl, hl⟩
      · have hnext := ih hrest hr (k := k) hm
        rwa [Nat.add_assoc, Nat.add_comm 1 k] at hnext
    · have hskip : part.method? = none ∧
          lowerMethods table index (cs.map fun c _ => c.toShape) = .ok methods := by
        cases kind with
        | methodDecl name isPublic isStatic => exact absurd ⟨name, isPublic, isStatic, rfl⟩ hkind
        | _ => exact ⟨hmethod, h⟩
      rw [List.filterMap_cons_none hskip.1] at hm
      exact ih hrest hskip.2 hm

theorem firstClass_ok {parts : List Part} {c : ClassDecl} : ∀ {cs : List Subtree},
    List.Forall₂ Subtree.Reads cs parts → (parts.filterMap Part.classDecl?).head? = some c →
    ∃ ds inner, List.Forall₂ Subtree.Reads ds inner ∧ c.methods = inner.filterMap Part.method? ∧
      Shape.firstClass (cs.map fun c _ => c.toShape)
        = .ok (c.name, c.superclass, ds.map fun c _ => c.toShape) := by
  induction parts with
  | nil =>
    intro cs hcs hc
    simp at hc
  | cons part parts ih =>
    intro cs hcs hc
    obtain ⟨⟨i, kind, p, ds⟩, cs, hcp, hrest, rfl⟩ := List.forall₂_cons_right_iff.mp hcs
    obtain ⟨inner, hds, hk⟩ := Subtree.reads_node.mp hcp
    have hclass := Part.classDecl?_of_ofKind hk
    simp only [List.map_cons, Subtree.toShape_node, Shape.firstClass]
    by_cases hkind : ∃ name superclass, kind = .classDecl name superclass
    · obtain ⟨name, superclass, rfl⟩ := hkind
      rw [List.filterMap_cons_some hclass] at hc
      cases hc
      exact ⟨ds, inner, hds, rfl, rfl⟩
    · have hskip : part.classDecl? = none := by
        cases kind with
        | classDecl name superclass => exact absurd ⟨name, superclass, rfl⟩ hkind
        | _ => exact hclass
      rw [List.filterMap_cons_none hskip] at hc
      obtain ⟨ds', inner', hds', hm, hfirst⟩ := ih hrest hc
      refine ⟨ds', inner', hds', hm, ?_⟩
      cases kind with
      | classDecl name superclass => exact absurd ⟨name, superclass, rfl⟩ hkind
      | _ => exact hfirst

/-- What lowering the tree of a program makes of each method of its first class. -/
theorem lower_ok {p : Program} {c : ClassDecl} {table : SymbolTable} {code : ClassCode} {k : Nat}
    {m : MethodDecl} (hc : p.classes.head? = some c) (h : p.build.lower table = .ok code)
    (hm : c.methods[k]? = some m) :
    ∃ s method ds inner, table.signatures[k]? = some s ∧ s.name = m.name ∧
      code.methods[k]? = some method ∧ List.Forall₂ Subtree.Reads ds inner ∧
      m.body = inner.filterMap Part.stmt? ∧
      lowerMethod ⟨table, s⟩ (ds.map fun c _ => c.toShape) = .ok method := by
  obtain ⟨⟨i, kind, pos, cs⟩, hb⟩ := p.pictures_build
  obtain ⟨parts, hcs, hk⟩ := Subtree.reads_node.mp hb.reads
  obtain ⟨rfl, hp⟩ := Part.program?_of_ofKind hk
  rw [hp] at hc
  obtain ⟨ds, inner, hds, hmethods, hfirst⟩ := firstClass_ok hcs hc
  unfold Tree.lower at h
  rw [← hb.root, hb.holds.shape_eq hb.nodup, Subtree.toShape_node] at h
  simp only [Shape.children, bind, Except.bind, pure, Except.pure, hfirst] at h
  rcases hl : lowerMethods table 0 (ds.map fun c _ => c.toShape) with e | methods <;>
    rw [hl] at h
  · cases h
  · cases h
    rw [hmethods] at hm
    simpa using lowerMethods_ok hds hl hm

/-- **Lowering preserves meaning.**  Where the tree of a program is lowered, every method of its
class has a lowered method in the same place; and in every world, from all values of the receiver,
the parameters and the local variables, that method run with one cell for every name ends exactly as
the method does. -/
theorem lower_preserves_meaning {p : Program} {c : ClassDecl} (hc : p.classes = [c])
    {table : SymbolTable} {code : ClassCode} (h : p.build.lower table = .ok code) {k : Nat}
    {m : MethodDecl} (hm : c.methods[k]? = some m) :
    ∃ s method, table.signatures[k]? = some s ∧ s.name = m.name ∧
      code.methods[k]? = some method ∧
      ∀ (R W : Type) [DecidableEq R] (world : World R W) (σ : Store R) (w : W) (o : Outcome R)
        (w' : W), MethodEnds (Context.setting ⟨table, s⟩ world) m.body σ w o w' ↔
          (Machine.named world method.instructions).Ends σ w o w' := by
  obtain ⟨s, method, ds, inner, hs, hn, hmethod, hds, hbody, hl⟩ := lower_ok (by rw [hc]; rfl) h hm
  refine ⟨s, method, hs, hn, hmethod, fun R W _ world σ w o w' => ?_⟩
  rw [hbody]
  exact lowerMethod_ends hds hl σ w o w'

/-- A method that counts in a loop, may leave it early, and calls a variadic method and one of an
import. -/
def counterRun : MethodDecl where
  name := "run"
  isPublic := true
  isStatic := false
  returnType := some ⟨"void", false, false⟩
  params := [("limit", ⟨"int", false, false⟩)]
  locals := [("i", ⟨"int", false, false⟩)]
  body := [
    .assign "i" (.int 0),
    .whileDo (.binary .lt (.var "i") (.var "limit")) (.block [
      .ifThen (.binary .gt (.var "total") (.int 100)) (.ret none),
      .assign "total" (.call .this "sum" [.var "i", .var "total"]),
      .assign "i" (.binary .add (.var "i") (.int 1))]),
    .expr (.call (.var "Console") "print" [.var "total"])]

/-- A class with that method and the variadic method it calls. -/
def counterUnit : Program where
  imports := ["lib.Console"]
  classes := [{
    name := "Counter"
    superclass := none
    fields := [("total", ⟨"int", false, false⟩)]
    methods := [
      { name := "sum"
        isPublic := true
        isStatic := false
        returnType := some ⟨"int", false, false⟩
        params := [("values", ⟨"int", false, true⟩)]
        locals := []
        body := [.ret (some (.index (.var "values") (.int 0)))] },
      counterRun] }]

/-- The symbol table of declarations that are in order. -/
def cleanTable? : Except Halt (SymbolTable × List Report) → Option SymbolTable
  | .ok (table, []) => some table
  | _ => none

theorem eq_ok_of_cleanTable? {r : Except Halt (SymbolTable × List Report)} {table : SymbolTable}
    (h : cleanTable? r = some table) : r = .ok (table, []) := by
  unfold cleanTable? at h
  split at h
  · cases h
    rfl
  · cases h

/-- The tree of the class is lowered with its own symbol table, so its second method keeps its
meaning. -/
theorem lower_preserves_meaning_counter :
    ∃ table code, counterUnit.build.symbolTable = .ok (table, []) ∧
      counterUnit.build.lower table = .ok code ∧
      ∃ s method, table.signatures[1]? = some s ∧ s.name = counterRun.name ∧
        code.methods[1]? = some method ∧
        ∀ (R W : Type) [DecidableEq R] (world : World R W) (σ : Store R) (w : W) (o : Outcome R)
          (w' : W), MethodEnds (Context.setting ⟨table, s⟩ world) counterRun.body σ w o w' ↔
            (Machine.named world method.instructions).Ends σ w o w' := by
  have hok : (cleanTable? counterUnit.build.symbolTable).any
      (fun table => (counterUnit.build.lower table).isOk) = true := by decide +kernel
  obtain ⟨table, ht, hok⟩ := (Option.any_eq_true _ _).mp hok
  rcases hl : counterUnit.build.lower table with e | code <;> rw [hl] at hok
  · cases hok
  · exact ⟨table, code, eq_ok_of_cleanTable? ht, hl, lower_preserves_meaning rfl hl rfl⟩

end Classlet.Lowering
