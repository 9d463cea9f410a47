import Classlet.Proofs.Optimize.Rounds

/-!
# The optimizer ends at a fixpoint

Every edit of a round counts what it replaces, so an edit that counts nothing has left the whole
tree as it was, also the nodes that the root does not reach (`Edit.Counts`).  The last round counts
nothing.  It therefore saw the tree that comes out, and a second run makes this round once more.

* `optimize_reaches_fixpoint`: the optimizer comes to an end, its counts are the reads, operations
  and parentheses that are gone, and a second run changes nothing.
-/

namespace Classlet

namespace Optimize

/-! ### Edits that count -/

namespace Edit

variable {α β : Type} {count : α → Nat} {count' : β → Nat} {n : Nat}

/-- Where the edit succeeds, it has counted on from `n`, and the tree is as before if it has counted
nothing. -/
def Counts (count : α → Nat) (n : Nat) (x : Edit α) : Prop :=
  ∀ ⦃t a t'⦄, x t = (.ok a, t') → n ≤ count a ∧ (count a = n → t' = t)

/-- Where the edit succeeds, it has counted beyond `n`. -/
def CountsMore (count : α → Nat) (n : Nat) (x : Edit α) : Prop :=
  ∀ ⦃t a t'⦄, x t = (.ok a, t') → n < count a

theorem bind_ok_inv {x : Edit α} {f : α → Edit β} {t t' : Tree} {b : β}
    (h : (x >>= f) t = (.ok b, t')) : ∃ a t₁, x t = (.ok a, t₁) ∧ f a t₁ = (.ok b, t') := by
  rw [bind_apply] at h
  rcases hx : x t with ⟨_ | a, t₁⟩
  · rw [hx] at h
    cases h
  · rw [hx] at h
    exact ⟨a, t₁, rfl, h⟩

theorem counts_pure {a : α} (h : n ≤ count a) : Counts count n (pure a) := by
  rintro t _ _ ⟨⟩
  exact ⟨h, fun _ => rfl⟩

theorem countsMore_one : CountsMore id 0 (pure 1) := by
  rintro t _ _ ⟨⟩
  exact Nat.one_pos

theorem CountsMore.counts {x : Edit α} (h : CountsMore count n x) : Counts count n x :=
  fun _ _ _ hx => ⟨Nat.le_of_lt (h hx), fun heq => absurd heq (Nat.ne_of_gt (h hx))⟩

theorem CountsMore.after {x : Edit α} {f : α → Edit β} (h : ∀ a, CountsMore count' n (f a)) :
    CountsMore count' n (x >>= f) := by
  intro t b t' hx
  obtain ⟨a, t₁, -, hf⟩ := bind_ok_inv hx
  exact h a hf

theorem Counts.bind {x : Edit α} {f : α → Edit β} (hx : Counts count n x)
    (hf : ∀ a, Counts count' (count a) (f a)) : Counts count' n (x >>= f) := by
  intro t b t' h
  obtain ⟨a, t₁, hxt, hft⟩ := bind_ok_inv h
  obtain ⟨hle₁, heq₁⟩ := hx hxt
  obtain ⟨hle₂, heq₂⟩ := hf a hft
  refine ⟨Nat.le_trans hle₁ hle₂, fun hb => ?_⟩
  rw [heq₂ (by omega), heq₁ (by omega)]

theorem counts_read_bind {f : Tree → Except Halt α} {g : α → Edit β}
    (hg : ∀ a, Counts count' n (g a)) : Counts count' n (read f >>= g) := by
  have hread : Counts (fun _ => n) n (read f) := fun _ _ _ h =>
    ⟨Nat.le_refl n, fun _ => (congrArg Prod.snd h).symm⟩
  exact hread.bind hg

theorem Counts.from {x : Edit Nat} (h : Counts id 0 x) (n : Nat) : Counts (n + ·) n x :=
  fun _ a _ hrun => ⟨Nat.le_add_right n a, fun ha => (h hrun).2 (Nat.add_left_cancel ha)⟩

theorem Counts.foldlM {f : β → α → Edit β} {l : List α} (s : β)
    (h : ∀ s, ∀ a ∈ l, Counts count' (count' s) (f s a)) :
    Counts count' (count' s) (l.foldlM f s) := by
  induction l generalizing s with
  | nil => exact counts_pure (Nat.le_refl _)
  | cons a l ih =>
    rw [List.foldlM_cons]
    exact (h s a List.mem_cons_self).bind fun s' =>
      ih s' fun s a ha => h s a (List.mem_cons_of_mem _ ha)

theorem Counts.sum {f : NodeId → Edit Nat} (h : ∀ i, Counts id 0 (f i)) (ids : List NodeId)
    (n : Nat) : Counts id n (ids.foldlM (fun count i => return count + (← f i)) n) :=
  Counts.foldlM n fun n i _ => ((h i).from n).bind fun _ => counts_pure (Nat.le_refl _)

end Edit

open Edit

/-! ### The stages of a round count -/

theorem substituteNode_counts (facts : Facts) (i : NodeId) :
    Counts id 0 (substituteNode facts i) := by
  refine counts_read_bind fun kind => ?_
  split
  · split
    · exact (CountsMore.after fun _ => CountsMore.after fun _ => countsMore_one).counts
    · exact counts_pure (Nat.le_refl _)
  · exact counts_pure (Nat.le_refl _)

theorem substitute_counts (facts : Facts) (i : NodeId) :
    Counts Facts.replaced facts.replaced (substitute facts i) := by
  refine counts_read_bind fun ids => ?_
  have hsum := Counts.sum (substituteNode_counts facts) ids 0
  exact (hsum.from facts.replaced).bind fun count => counts_pure (Nat.le_refl _)

theorem propagateStmt_counts (tr : Tracking) (fuel : Nat) (i : NodeId) (facts : Facts) :
    Counts Facts.replaced facts.replaced (propagateStmt tr fuel i facts) := by
  induction fuel generalizing i facts with
  | zero => rintro t a t' ⟨⟩
  | succ fuel ih =>
    rw [propagateStmt]
    refine counts_read_bind fun node => ?_
    obtain ⟨kind, position, parent, children⟩ := node
    have hbodies : ∀ facts (branches : List NodeId), Counts Facts.replaced facts.replaced
        (branches.foldlM (fun facts branch => propagateStmt tr fuel branch facts) facts) :=
      fun facts _ => Counts.foldlM facts fun facts branch _ => ih branch facts
    cases kind with
    | assign target =>
      refine counts_read_bind fun value => (substitute_counts facts value).bind fun facts' => ?_
      refine counts_read_bind fun value => counts_read_bind fun kind => ?_
      split
      · exact counts_pure (Nat.le_refl _)
      · exact counts_pure (Nat.le_refl _)
    | ifStmt | whileStmt =>
      cases children with
      | nil => exact counts_pure (Nat.le_refl _)
      | cons cond branches =>
        exact (substitute_counts facts cond).bind fun facts' => hbodies facts' branches
    | block => exact hbodies facts children
    | arrayAssign | returnStmt | exprStmt =>
      exact Counts.foldlM facts fun facts child _ => substitute_counts facts child
    | _ => exact counts_pure (Nat.le_refl _)

theorem propagateMethod_counts (s : Signature) (i : NodeId) :
    Counts id 0 (propagateMethod s i) := by
  refine counts_read_bind fun inBranches => counts_read_bind fun body => ?_
  refine counts_read_bind fun fuel => ?_
  let tr := Tracking.ofNames ((s.params ++ s.locals).map (·.name)) inBranches
  have hbody : Counts Facts.replaced Facts.none.replaced
      (body.foldlM (fun facts stmt => propagateStmt tr fuel stmt facts) Facts.none) :=
    Counts.foldlM Facts.none fun facts stmt _ => propagateStmt_counts tr fuel stmt facts
  exact hbody.bind fun facts => counts_pure (Nat.le_refl _)

theorem propagateMethods_counts (table : SymbolTable) (index : Nat)
    (methods : List (NodeId × String)) : Counts id 0 (propagateMethods table index methods) := by
  induction methods generalizing index with
  | nil => exact counts_pure (Nat.le_refl _)
  | cons m methods ih =>
    refine counts_read_bind fun s => (propagateMethod_counts s m.1).bind fun count => ?_
    exact ((ih (index + 1)).from count).bind fun a => counts_pure (Nat.le_refl _)

theorem propagateConstants_counts (table : SymbolTable) : Counts id 0 (propagateConstants table) :=
  counts_read_bind fun methods => propagateMethods_counts table 0 methods

theorem foldNode_counts (i : NodeId) : Counts id 0 (foldNode i) := by
  refine counts_read_bind fun literal => ?_
  split
  · exact counts_pure (Nat.le_refl _)
  · exact (CountsMore.after fun _ => CountsMore.after fun _ => CountsMore.after fun _ =>
      countsMore_one).counts

theorem foldConstants_counts : Counts id 0 foldConstants :=
  counts_read_bind fun ids => Counts.sum foldNode_counts ids.reverse 0

/-! ### The last round -/

variable {table : SymbolTable} {t t' : Tree} {stats stats' : Stats}

/-- A round leaves the tree as it is. -/
def Settled (table : SymbolTable) (t : Tree) : Prop :=
  propagateConstants table t = (.ok 0, t) ∧ foldConstants t = (.ok 0, t)

/-- A round that counts nothing has seen the tree that it leaves. -/
theorem settled_of_round {t₁ : Tree} (hprop : propagateConstants table t = (.ok 0, t₁))
    (hfold : foldConstants t₁ = (.ok 0, t')) : Settled table t' := by
  obtain rfl : t₁ = t := (propagateConstants_counts table hprop).2 rfl
  obtain rfl : t' = t₁ := (foldConstants_counts hfold).2 rfl
  exact ⟨hprop, hfold⟩

/-- What rounds do that come to an end: one that counts nothing, or one that counts something and
then others. -/
theorem optimizeWithin_cases {fuel : Nat}
    (h : optimizeWithin table fuel stats t = (.ok stats', t')) :
    ∃ fuel' n m t₁ t₂, propagateConstants table t = (.ok n, t₁) ∧ foldConstants t₁ = (.ok m, t₂) ∧
      fuel = fuel' + 1 ∧
      ((n = 0 ∧ m = 0 ∧ t' = t₂ ∧
          stats' = ⟨stats.rounds + 1, stats.propagated + n, stats.folded + m⟩) ∨
        (0 < n + m ∧ optimizeWithin table fuel'
          ⟨stats.rounds + 1, stats.propagated + n, stats.folded + m⟩ t₂ = (.ok stats', t'))) := by
  cases fuel with
  | zero => cases h
  | succ fuel =>
    rw [optimizeWithin] at h
    obtain ⟨n, t₁, hprop, h⟩ := bind_ok_inv h
    obtain ⟨m, t₂, hfold, h⟩ := bind_ok_inv h
    refine ⟨fuel, n, m, t₁, t₂, hprop, hfold, rfl, ?_⟩
    split at h
    · next hnone =>
      cases h
      exact .inl ⟨hnone.1, hnone.2, rfl, rfl⟩
    · exact .inr ⟨by omega, h⟩

theorem settled_of_optimizeWithin {fuel : Nat}
    (h : optimizeWithin table fuel stats t = (.ok stats', t')) : Settled table t' := by
  induction fuel generalizing stats t with
  | zero => cases h
  | succ fuel ih =>
    obtain ⟨_, n, m, t₁, t₂, hprop, hfold, ⟨⟩, ⟨rfl, rfl, rfl, -⟩ | ⟨-, hmore⟩⟩ :=
      optimizeWithin_cases h
    · exact settled_of_round hprop hfold
    · exact ih hmore

theorem rounds_le_of_optimizeWithin {fuel : Nat}
    (h : optimizeWithin table fuel stats t = (.ok stats', t')) :
    stats'.rounds + (stats.propagated + stats.folded)
      ≤ stats.rounds + (stats'.propagated + stats'.folded) + 1 := by
  induction fuel generalizing stats t with
  | zero => cases h
  | succ fuel ih =>
    obtain ⟨_, n, m, t₁, t₂, -, -, ⟨⟩, ⟨rfl, rfl, rfl, rfl⟩ | ⟨hpos, hmore⟩⟩ :=
      optimizeWithin_cases h
    · simp only
      omega
    · have hle := ih hmore
      simp only at hle
      omega

theorem Settled.optimize_eq (h : Settled table t) : optimize table t = (.ok ⟨1, 0, 0⟩, t) := by
  rw [Optimize.optimize_eq, Tree.stepLimit, optimizeWithin, Edit.bind_ok h.1, Edit.bind_ok h.2]
  rfl

end Optimize

/-! ### What the counts say -/

/-- The number of nodes of the kinds that `q` picks among those that the root reaches. -/
def Tree.countReached (t : Tree) (q : Kind → Bool) : Except Halt Nat := do
  let kinds ← (← t.descendants t.root).mapM t.kind
  return kinds.countP q

theorem Tree.Holds.mapM_kind {t : Tree} {parent : Option NodeId} {b : Subtree}
    (h : t.Holds parent b) : b.ids.mapM t.kind = .ok b.kinds := by
  induction b generalizing parent with
  | node i k p cs ih =>
    have hall : (cs.flatMap Subtree.ids).mapM t.kind = .ok (cs.flatMap Subtree.kinds) := by
      have hcs := h.child
      clear h
      induction cs with
      | nil => rfl
      | cons c cs ihcs =>
        rw [List.flatMap_cons, List.mapM_append, ih c List.mem_cons_self (hcs c List.mem_cons_self),
          ihcs (fun d hd => ih d (List.mem_cons_of_mem _ hd))
            fun d hd => hcs d (List.mem_cons_of_mem _ hd)]
        rfl
    have hkind : t.kind i = .ok k := h.kind_eq
    rw [Subtree.ids_node, Subtree.kinds_node, List.mapM_cons, hkind, hall]
    rfl

theorem Tree.Pictures.countReached_eq {t : Tree} {p : Program} {b : Subtree} (h : t.Pictures p b)
    (q : Kind → Bool) : t.countReached q = .ok (b.count q) := by
  rw [Tree.countReached, ← h.root, h.holds.descendants_eq h.nodup]
  show (b.ids.mapM t.kind >>= _) = _
  rw [h.holds.mapM_kind]
  rfl

open Optimize in
/-- **The optimizer ends at a fixpoint.**  The tree of a program with a class has a symbol table,
and the optimizer comes to an end on it.  It counts as many replaced reads as the root reaches less
afterwards, and as many folded nodes as the root reaches less operations and parentheses; every
round but the last counts something.  The result has the same symbol table.  A second run takes one
round and leaves the whole tree as it is, also the nodes that the root does not reach. -/
theorem optimize_reaches_fixpoint (imports : List String) (c : ClassDecl) (rest : List ClassDecl) :
    ∃ table reports reports' stats t' reads folds,
      (Program.mk imports (c :: rest)).build.symbolTable = .ok (table, reports) ∧
      optimize table (Program.mk imports (c :: rest)).build = (.ok stats, t') ∧
      (Program.mk imports (c :: rest)).build.countReached isRead = .ok (stats.propagated + reads) ∧
      t'.countReached isRead = .ok reads ∧
      (Program.mk imports (c :: rest)).build.countReached isCompound = .ok (stats.folded + folds) ∧
      t'.countReached isCompound = .ok folds ∧
      stats.rounds ≤ stats.propagated + stats.folded + 1 ∧
      t'.symbolTable = .ok (table, reports') ∧
      optimize table t' = (.ok ⟨1, 0, 0⟩, t') := by
  obtain ⟨b, hb⟩ := (Program.mk imports (c :: rest)).pictures_build
  obtain ⟨reports, htable⟩ := hb.symbolTable_ok
  have hnames : NamedAlike (SymbolTable.ofDecls imports c).signatures c.methods :=
    namedAlike_ofDecl c.methods
  obtain ⟨stats, t', b', hrun, hb', hreads, hfolds⟩ := optimize_ends hb hnames
  obtain ⟨reports', htable'⟩ := hb'.symbolTable_ok
  have hlen : (SymbolTable.ofDecls imports c).signatures.length = c.methods.length :=
    List.length_map _
  rw [SymbolTable.ofDecls_improve_iterate imports c hlen] at htable'
  have hrounds := rounds_le_of_optimizeWithin (optimize_eq _ _ ▸ hrun)
  simp only [Nat.zero_add, Nat.add_zero] at hrounds
  have hsettled := settled_of_optimizeWithin (optimize_eq _ _ ▸ hrun)
  refine ⟨_, reports, reports', stats, t', b'.count isRead, b'.count isCompound, htable, hrun, ?_,
    hb'.countReached_eq _, ?_, hb'.countReached_eq _, hrounds, htable', hsettled.optimize_eq⟩
  · rw [hb.countReached_eq, hreads]
  · rw [hb.countReached_eq, hfolds]

end Classlet
