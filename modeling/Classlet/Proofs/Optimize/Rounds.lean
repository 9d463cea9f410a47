import Classlet.Optimize
import Classlet.Proofs.Optimize.Folding
import Classlet.Proofs.Optimize.Methods
import Classlet.Proofs.Symbols.Places
import Mathlib.Data.List.Zip
import Mathlib.Logic.Function.Iterate

/-!
# Rounds of the optimizer

A round propagates and then folds.  Every read that is replaced and every node that is folded leaves
one read, operation or pair of parentheses less, so a round that changes something makes the program
smaller in this measure, and the rounds come to an end within the steps that are allowed
(`optimize_ends`).  What comes out is the program improved as many times as there were rounds.

* `optimize_preserves_meaning`: the optimized body of a method ends as the body did.
-/

namespace Classlet

open Lowering (Context)
open Optimize Semantics Subtree

/-! ### One round -/

/-- The method after a round. -/
def MethodDecl.improve (s : Signature) (m : MethodDecl) : MethodDecl := (m.propagate s).simplify

/-- The class after a round. -/
def ClassDecl.improve (signatures : List Signature) (c : ClassDecl) : ClassDecl :=
  (c.propagate signatures).simplify

theorem ClassDecl.methods_improve (signatures : List Signature) (c : ClassDecl) :
    (c.improve signatures).methods = List.zipWith MethodDecl.improve signatures c.methods :=
  List.map_zipWith

theorem MethodDecl.improve_iterate (s : Signature) (m : MethodDecl) (r : Nat) :
    ∃ body, (improve s)^[r] m = { m with body } := by
  induction r generalizing m with
  | zero => exact ⟨m.body, rfl⟩
  | succ r ih =>
    obtain ⟨body, h⟩ := ih (m.improve s)
    exact ⟨body, h⟩

/-- Rounds change nothing of a class but its methods, and each of these by itself. -/
theorem ClassDecl.improve_iterate {signatures : List Signature} (c : ClassDecl)
    (h : signatures.length = c.methods.length) (r : Nat) :
    (improve signatures)^[r] c
      = { c with
          methods := List.zipWith (fun s => (MethodDecl.improve s)^[r]) signatures c.methods } := by
  induction r generalizing c with
  | zero =>
    have hsnd : List.zipWith (fun (_ : Signature) (m : MethodDecl) => m) signatures c.methods
        = c.methods := by
      rw [← List.map_uncurry_zip_eq_zipWith]
      exact List.map_snd_zip (Nat.le_of_eq h.symm)
    exact (congrArg (fun methods => { c with methods }) hsnd).symm
  | succ r ih =>
    have hlen : signatures.length = (c.improve signatures).methods.length := by
      rw [methods_improve, List.length_zipWith, ← h, Nat.min_self]
    rw [Function.iterate_succ_apply, ih _ hlen, methods_improve, List.zipWith_zipWith_right,
      List.zipWith3_same_left]
    rfl

theorem NamedAlike.improve {signatures : List Signature} {c : ClassDecl}
    (h : NamedAlike signatures c.methods) :
    NamedAlike signatures (c.improve signatures).methods := by
  rw [ClassDecl.methods_improve]
  generalize c.methods = methods at h ⊢
  induction h with
  | nil => exact .nil
  | cons hname _ ih => exact .cons hname ih

theorem NamedAlike.improve_iterate {signatures : List Signature} {c : ClassDecl}
    (h : NamedAlike signatures c.methods) (r : Nat) :
    NamedAlike signatures ((ClassDecl.improve signatures)^[r] c).methods := by
  induction r generalizing c with
  | zero => exact h
  | succ r ih => exact ih h.improve

theorem map_zipWith_of_eq {β γ : Type} {f : Signature → β → β} {g : β → γ}
    (hfg : ∀ s m, g (f s m) = g m) {signatures : List Signature} {ms : List β}
    (hlen : signatures.length = ms.length) : (List.zipWith f signatures ms).map g = ms.map g := by
  induction ms generalizing signatures with
  | nil => rw [List.zipWith_nil_right]
  | cons m ms ih =>
    cases signatures with
    | nil => cases hlen
    | cons s signatures =>
      rw [List.zipWith_cons_cons, List.map_cons, hfg, ih (Nat.succ.inj hlen), List.map_cons]

theorem SymbolTable.ofDecls_improve_iterate (imports : List String) (c : ClassDecl)
    {signatures : List Signature} (hlen : signatures.length = c.methods.length) (r : Nat) :
    ofDecls imports ((ClassDecl.improve signatures)^[r] c) = ofDecls imports c := by
  have hsame : ∀ {γ : Type} (g : MethodDecl → γ),
      (∀ (m : MethodDecl) body, g { m with body } = g m) →
      (List.zipWith (fun s => (MethodDecl.improve s)^[r]) signatures c.methods).map g
        = c.methods.map g := by
    intro γ g hg
    refine map_zipWith_of_eq (fun s m => ?_) hlen
    obtain ⟨body, hbody⟩ := m.improve_iterate s r
    rw [hbody, hg]
  rw [c.improve_iterate hlen, ofDecls, ofDecls, SymbolTable.mk.injEq]
  exact ⟨rfl, rfl, rfl, rfl, hsame _ fun _ _ => rfl, hsame _ fun _ _ => rfl⟩

namespace Optimize

/-- Reads of variables, operations and parentheses. -/
def isReducible : Kind → Bool
  | .varRef _ | .binary _ | .unary _ | .paren => true
  | _ => false

theorem countsFolds_isReducible : CountsFolds isReducible where
  compound := by
    intro k hk
    cases k with
    | binary | unary | paren => rfl
    | _ => cases hk
  literal := by
    intro k hk
    cases k with
    | intLit | boolLit => rfl
    | _ => cases hk

theorem countsReads_isReducible : CountsReads isReducible :=
  ⟨fun _ => rfl, countsFolds_isReducible.literal⟩

/-- Reads of variables. -/
def isRead : Kind → Bool
  | .varRef _ => true
  | _ => false

theorem countsReads_isRead : CountsReads isRead where
  read _ := rfl
  literal := by
    intro k hk
    cases k with
    | intLit | boolLit => rfl
    | _ => cases hk

theorem countsFolds_isCompound : CountsFolds isCompound where
  compound _ hk := hk
  literal := by
    intro k hk
    cases k with
    | intLit | boolLit => rfl
    | _ => cases hk

theorem count_isReducible (b : Subtree) :
    b.count isReducible = b.count isRead + b.count isCompound := by
  unfold Subtree.count
  induction b.kinds with
  | nil => rfl
  | cons k ks ih =>
    rw [List.countP_cons, List.countP_cons, List.countP_cons, ih]
    cases k <;>
      simp only [isReducible, isRead, isCompound, if_true, Bool.false_eq_true, if_false] <;>
      omega

variable {t : Tree} {table : SymbolTable} {imports : List String} {c : ClassDecl}
  {rest : List ClassDecl} {b : Subtree}

/-- **One round** improves the first class and simplifies the others.  It counts the reads and the
operations and parentheses that are gone after it. -/
theorem round_ok (h : t.Pictures ⟨imports, c :: rest⟩ b)
    (hnames : NamedAlike table.signatures c.methods) :
    ∃ n m t₁ t₂ b₂, propagateConstants table t = (.ok n, t₁) ∧ foldConstants t₁ = (.ok m, t₂) ∧
      t₂.Pictures ⟨imports, c.improve table.signatures :: rest.map ClassDecl.simplify⟩ b₂ ∧
      n + b₂.count isRead = b.count isRead ∧ m + b₂.count isCompound = b.count isCompound := by
  obtain ⟨n, t₁, b₁, hrun₁, h₁, hreads₁⟩ := propagateConstants_ok countsReads_isRead h hnames
  obtain ⟨n', t₁', b₁', hrun₁', h₁', hboth₁⟩ :=
    propagateConstants_ok countsReads_isReducible h hnames
  obtain ⟨⟨⟩, rfl⟩ := Prod.ext_iff.mp (hrun₁.symm.trans hrun₁')
  obtain rfl := h₁.unique h₁'
  obtain ⟨m, t₂, b₂, hrun₂, h₂, -, hfolds₂⟩ := foldConstants_ok countsFolds_isCompound h₁
  obtain ⟨m', t₂', b₂', hrun₂', h₂', -, hboth₂⟩ := foldConstants_ok countsFolds_isReducible h₁
  obtain ⟨⟨⟩, rfl⟩ := Prod.ext_iff.mp (hrun₂.symm.trans hrun₂')
  obtain rfl := h₂.unique h₂'
  -- what one stage counts is not of the kinds that the other stage counts
  rw [count_isReducible, count_isReducible] at hboth₁ hboth₂
  exact ⟨n, m, t₁, t₂, b₂, hrun₁, hrun₂, h₂, by omega, by omega⟩

/-! ### All rounds -/

theorem optimizeWithin_ok {fuel : Nat} (stats : Stats) (h : t.Pictures ⟨imports, c :: rest⟩ b)
    (hnames : NamedAlike table.signatures c.methods) (hfuel : b.count isReducible < fuel) :
    ∃ stats' t' b' r, optimizeWithin table fuel stats t = (.ok stats', t') ∧
      stats'.rounds = stats.rounds + r ∧
      t'.Pictures ⟨imports, (ClassDecl.improve table.signatures)^[r] c
        :: (List.map ClassDecl.simplify)^[r] rest⟩ b' ∧
      stats'.propagated + b'.count isRead = stats.propagated + b.count isRead ∧
      stats'.folded + b'.count isCompound = stats.folded + b.count isCompound := by
  induction fuel generalizing t c rest b stats with
  | zero => omega
  | succ fuel ih =>
    obtain ⟨n, m, t₁, t₂, b₂, hprop, hfold, h₂, hreads, hfolds⟩ := round_ok h hnames
    rw [optimizeWithin, Edit.bind_ok hprop, Edit.bind_ok hfold]
    split
    · exact ⟨_, t₂, b₂, 1, rfl, rfl, h₂, by simp only; omega, by simp only; omega⟩
    · -- a round that changes something leaves less to change
      rw [count_isReducible] at hfuel
      obtain ⟨stats', t', b', r, hrun, hrounds, h', hreads', hfolds'⟩ :=
        ih ⟨stats.rounds + 1, stats.propagated + n, stats.folded + m⟩ h₂ hnames.improve
          (by rw [count_isReducible]; omega)
      simp only at hrounds hreads' hfolds'
      exact ⟨stats', t', b', r + 1, hrun, by omega, h', by omega, by omega⟩

theorem optimize_eq (table : SymbolTable) (t : Tree) :
    optimize table t = optimizeWithin table t.stepLimit ⟨0, 0, 0⟩ t := by
  rw [optimize, Edit.bind_ok (Edit.read_ok (f := fun t => return t.stepLimit) rfl)]

/-- **The optimizer comes to an end** and leaves the tree of the classes after all its rounds. -/
theorem optimize_ends (h : t.Pictures ⟨imports, c :: rest⟩ b)
    (hnames : NamedAlike table.signatures c.methods) :
    ∃ stats t' b', optimize table t = (.ok stats, t') ∧
      t'.Pictures ⟨imports, (ClassDecl.improve table.signatures)^[stats.rounds] c
        :: (List.map ClassDecl.simplify)^[stats.rounds] rest⟩ b' ∧
      stats.propagated + b'.count isRead = b.count isRead ∧
      stats.folded + b'.count isCompound = b.count isCompound := by
  have hfuel : b.count isReducible < t.stepLimit := by
    have hcount := b.count_le_length isReducible
    have hlen := h.length_ids_le
    unfold Tree.stepLimit
    omega
  obtain ⟨stats, t', b', r, hrun, hrounds, h', hreads, hfolds⟩ :=
    optimizeWithin_ok ⟨0, 0, 0⟩ h hnames hfuel
  simp only [Nat.zero_add] at hrounds hreads hfolds
  exact ⟨stats, t', b', (optimize_eq table t).trans hrun, hrounds ▸ h', hreads, hfolds⟩

theorem optimize_ok (h : t.Pictures ⟨imports, [c]⟩ b)
    (hnames : NamedAlike table.signatures c.methods) :
    ∃ stats t' b', optimize table t = (.ok stats, t') ∧
      t'.Pictures ⟨imports, [(ClassDecl.improve table.signatures)^[stats.rounds] c]⟩ b' := by
  obtain ⟨stats, t', b', hrun, h', -⟩ := optimize_ends h hnames
  rw [Function.iterate_fixed List.map_nil] at h'
  exact ⟨stats, t', b', hrun, h'⟩

/-! ### Meaning -/

theorem BodySame.trans {cx : Context} {body₁ body₂ body₃ : List Stmt} (h : BodySame cx body₁ body₂)
    (h' : BodySame cx body₂ body₃) : BodySame cx body₁ body₃ := fun R W _ world n σ w =>
  (h' R W world n σ w).trans (h R W world n σ w)

theorem bodySame_simplify (cx : Context) (m : MethodDecl) : BodySame cx m.body m.simplify.body := by
  intro R W _ world n σ w
  refine execAll_eq_of_same ?_ n σ w
  rw [MethodDecl.simplify, List.forall₂_map_right_iff]
  exact List.forall₂_same.mpr fun s _ => execSame_simplify s

theorem bodySame_improve_iterate (table : SymbolTable) (s : Signature) (m : MethodDecl) (r : Nat) :
    BodySame ⟨table, s⟩ m.body ((MethodDecl.improve s)^[r] m).body := by
  induction r generalizing m with
  | zero => exact fun _ _ _ _ _ _ _ => rfl
  | succ r ih =>
    have hround : BodySame ⟨table, s⟩ m.body (m.improve s).body :=
      (bodySame_propagate table s m).trans (bodySame_simplify _ _)
    exact hround.trans (ih _)

/-- In every world and from every store, the bodies end with the same outcomes and leave the world
the same. -/
def EndAlike (cx : Context) (body body' : List Stmt) : Prop :=
  ∀ (R W : Type) [DecidableEq R] (world : World R W) (σ : Store R) (w : W) (o : Outcome R) (w' : W),
    BodyEnds (Setting.plain cx world) body' σ w o w' ↔
      BodyEnds (Setting.plain cx world) body σ w o w'

theorem BodySame.endAlike {cx : Context} {body body' : List Stmt} (h : BodySame cx body body') :
    EndAlike cx body body' := fun R W _ world σ w _ _ =>
  exists_congr fun n => by rw [h R W world n σ w]

end Optimize

/-- **Optimization preserves meaning.**  The tree of a program with one class has a symbol table,
and the optimizer comes to an end on it.  The tree then shows the program with the same
declarations, and the body of every method ends as before, in every world and from all values of the
receiver, the parameters and the local variables. -/
theorem optimize_preserves_meaning {imports : List String} {c : ClassDecl} {k : Nat} {m : MethodDecl}
    (hm : c.methods[k]? = some m) :
    ∃ table reports stats t' methods body,
      (Program.mk imports [c]).build.symbolTable = .ok (table, reports) ∧
      table.signatures[k]? = some (.ofDecl m) ∧
      optimize table (Program.mk imports [c]).build = (.ok stats, t') ∧
      t'.program? = some ⟨imports, [{ c with methods }]⟩ ∧
      methods.length = c.methods.length ∧ methods[k]? = some { m with body } ∧
      EndAlike ⟨table, .ofDecl m⟩ m.body body := by
  obtain ⟨b, hb⟩ := (Program.mk imports [c]).pictures_build
  obtain ⟨reports, htable⟩ := hb.symbolTable_ok
  have hnames : NamedAlike (SymbolTable.ofDecls imports c).signatures c.methods :=
    namedAlike_ofDecl c.methods
  obtain ⟨stats, t', b', hrun, hb'⟩ := optimize_ok hb hnames
  have hlen : (SymbolTable.ofDecls imports c).signatures.length = c.methods.length :=
    List.length_map _
  have hs : (SymbolTable.ofDecls imports c).signatures[k]? = some (.ofDecl m) := by
    rw [SymbolTable.ofDecls, List.getElem?_map, hm]
    rfl
  obtain ⟨body, hbody⟩ := m.improve_iterate (.ofDecl m) stats.rounds
  rw [c.improve_iterate hlen] at hb'
  refine ⟨_, reports, stats, t', _, body, htable, hs, hrun, hb'.program?_eq, ?_, ?_, ?_⟩
  · rw [List.length_zipWith, hlen, Nat.min_self]
  · rw [List.getElem?_zipWith, hs, hm]
    exact congrArg some hbody
  · have hsame := bodySame_improve_iterate (.ofDecls imports c) (.ofDecl m) m stats.rounds
    rw [hbody] at hsame
    exact hsame.endAlike

/-- A method whose step is a constant sum, read in a loop that changes another variable. -/
def steppingRun : MethodDecl where
  name := "run"
  isPublic := true
  isStatic := false
  returnType := some ⟨"int", false, false⟩
  params := [("limit", ⟨"int", false, false⟩)]
  locals := [("step", ⟨"int", false, false⟩), ("i", ⟨"int", false, false⟩)]
  body := [
    .assign "step" (.paren (.binary .add (.int 2) (.int 3))),
    .assign "i" (.int 0),
    .whileDo (.binary .lt (.var "i") (.var "limit")) (.block [
      .ifThen (.binary .lt (.var "step") (.int 1)) (.ret (some (.var "total"))),
      .assign "i" (.binary .add (.var "i") (.var "step"))]),
    .assign "total" (.call .this "run" [.var "step"]),
    .ret (some (.binary .div (.var "i") (.int 0)))]

/-- A class with that method. -/
def steppingClass : ClassDecl :=
  ⟨"Stepping", none, [("total", ⟨"int", false, false⟩)], [steppingRun]⟩

theorem optimize_preserves_meaning_stepping :
    steppingClass.methods[0]? = some steppingRun ∧
      ∃ table reports stats t' methods body,
        (Program.mk [] [steppingClass]).build.symbolTable = .ok (table, reports) ∧
        table.signatures[0]? = some (.ofDecl steppingRun) ∧
        optimize table (Program.mk [] [steppingClass]).build = (.ok stats, t') ∧
        t'.program? = some ⟨[], [{ steppingClass with methods }]⟩ ∧
        methods.length = steppingClass.methods.length ∧
        methods[0]? = some { steppingRun with body } ∧
        EndAlike ⟨table, .ofDecl steppingRun⟩ steppingRun.body body :=
  ⟨rfl, optimize_preserves_meaning rfl⟩

end Classlet
