import Classlet.Proofs.Optimize.Fixpoint

/-!
# The rules of folding

What constant folding does to a tree, as rules: when a node over literals collapses (`Collapses`),
what a subtree becomes when its nodes collapse from the leaves up and how many of them do
(`Simplifies`), and when no node of it collapses any more (`Irreducible`).

* `collapse?_eq_some`: the function that decides about one node follows the rules.
* `Subtree.Simplifies.unique`, `Reads.simplifies`: the rules leave no choice, and the function that
  simplifies a subtree follows them.
* `Subtree.irreducible_simplify`: nothing of a simplified subtree collapses.
* `foldConstants_normalizes`: folding a built tree is this simplification, and leaves nothing to
  collapse.
-/

namespace Classlet

open Optimize

namespace Optimize

/-- A node of a kind over children of some kinds collapses to a literal: arithmetic on two integers,
which wraps around at 32 bits, a comparison of two integers that is not the condition of a loop,
a logical operation on truth values, and parentheses around a literal. -/
inductive Collapses (inCondition : Bool) : Kind → List Kind → Kind → Prop where
  | add (a b : Int32) :
      Collapses inCondition (.binary .add) [.intLit a, .intLit b] (.intLit (a + b))
  | sub (a b : Int32) :
      Collapses inCondition (.binary .sub) [.intLit a, .intLit b] (.intLit (a - b))
  | mul (a b : Int32) :
      Collapses inCondition (.binary .mul) [.intLit a, .intLit b] (.intLit (a * b))
  | div (a b : Int32) (h : b ≠ 0) :
      Collapses inCondition (.binary .div) [.intLit a, .intLit b] (.intLit (a / b))
  | lt (a b : Int32) (h : inCondition = false) :
      Collapses inCondition (.binary .lt) [.intLit a, .intLit b] (.boolLit (a < b))
  | and (a b : Bool) :
      Collapses inCondition (.binary .and) [.boolLit a, .boolLit b] (.boolLit (a && b))
  | or (a b : Bool) :
      Collapses inCondition (.binary .or) [.boolLit a, .boolLit b] (.boolLit (a || b))
  | not (b : Bool) : Collapses inCondition (.unary .not) [.boolLit b] (.boolLit !b)
  | paren (l : Kind) (h : l.isLiteral = true) : Collapses inCondition .paren [l] l

variable {inCondition : Bool} {k l : Kind} {ks : List Kind}

/-- **The function that collapses a node follows the rules.** -/
theorem collapse?_eq_some :
    collapse? inCondition k ks = some l ↔ Collapses inCondition k ks l := by
  constructor
  · intro h
    unfold collapse? at h
    split at h
    · next op a b =>
      split at h
      · cases h
      · next hlt =>
        cases op with
        | add => cases h; exact .add a b
        | sub => cases h; exact .sub a b
        | mul => cases h; exact .mul a b
        | div =>
          rw [foldInts, Option.ite_none_left_eq_some] at h
          cases h.2
          exact .div a b h.1
        | lt => cases h; exact .lt a b (by simpa using hlt)
        | _ => cases h
    · next op a b =>
      cases op with
      | and => cases h; exact .and a b
      | or => cases h; exact .or a b
      | _ => cases h
    · next b => cases h; exact .not b
    · next inner =>
      split at h
      · next hl => cases h; exact .paren _ hl
      · cases h
    · cases h
  · intro h
    cases h with
    | div a b h => simp [collapse?, foldInts, h]
    | lt a b h => simp [collapse?, foldInts, h]
    | paren _ h => simp [collapse?, h]
    | _ => simp [collapse?, foldInts, foldBools]

theorem collapse?_eq_none_iff :
    collapse? inCondition k ks = none ↔ ∀ l, ¬ Collapses inCondition k ks l := by
  rw [Option.eq_none_iff_forall_ne_some]
  exact forall_congr' fun l => not_congr collapse?_eq_some

end Optimize

namespace Subtree

mutual

/-- From the leaves up, every node that collapses over its simplified children is replaced by its
literal, at its position, and `n` nodes collapse. -/
inductive Simplifies : Bool → Subtree → Subtree → Nat → Prop where
  | collapses {inCondition : Bool} {i : NodeId} {k l : Kind} {p : Position} {cs ds : List Subtree}
      {n : Nat} (children : SimplifiesFrom k inCondition 0 cs ds n)
      (h : Collapses inCondition k (ds.map kind) l) :
      Simplifies inCondition (.node i k p cs) (.node i l p []) (n + 1)
  | stays {inCondition : Bool} {i : NodeId} {k : Kind} {p : Position} {cs ds : List Subtree}
      {n : Nat} (children : SimplifiesFrom k inCondition 0 cs ds n)
      (h : ∀ l, ¬ Collapses inCondition k (ds.map kind) l) :
      Simplifies inCondition (.node i k p cs) (.node i k p ds) n

/-- The same for the children of a node, from a slot on. -/
inductive SimplifiesFrom : Kind → Bool → Nat → List Subtree → List Subtree → Nat → Prop where
  | nil {k : Kind} {inCondition : Bool} {slot : Nat} : SimplifiesFrom k inCondition slot [] [] 0
  | cons {k : Kind} {inCondition : Bool} {slot : Nat} {c d : Subtree} {cs ds : List Subtree}
      {n m : Nat} (first : Simplifies (conditionSlot k inCondition slot) c d n)
      (rest : SimplifiesFrom k inCondition (slot + 1) cs ds m) :
      SimplifiesFrom k inCondition slot (c :: cs) (d :: ds) (n + m)

end

/-- No node of the subtree collapses. -/
inductive Irreducible : Bool → Subtree → Prop where
  | node {inCondition : Bool} {i : NodeId} {k : Kind} {p : Position} {cs : List Subtree}
      (here : ∀ l, ¬ Collapses inCondition k (cs.map kind) l)
      (below : ∀ slot c, cs[slot]? = some c → Irreducible (conditionSlot k inCondition slot) c) :
      Irreducible inCondition (.node i k p cs)

variable {inCondition : Bool} {b s s' : Subtree} {cs : List Subtree} {k : Kind} {slot n n' : Nat}
  {q : Kind → Bool}

mutual

/-- **The rules leave no choice.** -/
theorem Simplifies.unique {inCondition : Bool} {b s s' : Subtree} {n n' : Nat} :
    Simplifies inCondition b s n → Simplifies inCondition b s' n' → s' = s ∧ n' = n
  | .collapses hc hl, .collapses hc' hl' => by
    obtain ⟨rfl, rfl⟩ := hc.unique hc'
    cases (collapse?_eq_some.mpr hl).symm.trans (collapse?_eq_some.mpr hl')
    exact ⟨rfl, rfl⟩
  | .collapses hc hl, .stays hc' hl' => by
    obtain ⟨rfl, rfl⟩ := hc.unique hc'
    exact absurd hl (hl' _)
  | .stays hc hl, .collapses hc' hl' => by
    obtain ⟨rfl, rfl⟩ := hc.unique hc'
    exact absurd hl' (hl _)
  | .stays hc _, .stays hc' _ => by
    obtain ⟨rfl, rfl⟩ := hc.unique hc'
    exact ⟨rfl, rfl⟩

theorem SimplifiesFrom.unique {k : Kind} {inCondition : Bool} {slot : Nat}
    {cs ds ds' : List Subtree} {n n' : Nat} :
    SimplifiesFrom k inCondition slot cs ds n → SimplifiesFrom k inCondition slot cs ds' n' →
      ds' = ds ∧ n' = n
  | .nil, .nil => ⟨rfl, rfl⟩
  | .cons hc hcs, .cons hc' hcs' => by
    obtain ⟨rfl, rfl⟩ := hc.unique hc'
    obtain ⟨rfl, rfl⟩ := hcs.unique hcs'
    exact ⟨rfl, rfl⟩

end

/-! ### The function that simplifies -/

theorem simplifiesFrom_simplifyFrom (k : Kind) (inCondition : Bool) (slot : Nat)
    (hcs : ∀ c ∈ cs, ∀ inCondition, ∃ n, c.Simplifies inCondition (c.simplify inCondition) n ∧
        n + (c.simplify inCondition).count q = c.count q) :
    ∃ n, SimplifiesFrom k inCondition slot cs (simplifyFrom k inCondition slot cs) n ∧
      n + countAll q (simplifyFrom k inCondition slot cs) = countAll q cs := by
  induction cs generalizing slot with
  | nil => exact ⟨0, .nil, rfl⟩
  | cons c cs ih =>
    obtain ⟨n, hn, hcount⟩ := hcs c List.mem_cons_self (conditionSlot k inCondition slot)
    obtain ⟨m, hm, hcounts⟩ := ih (slot + 1) fun d hd => hcs d (List.mem_cons_of_mem _ hd)
    rw [simplifyFrom]
    refine ⟨n + m, .cons hn hm, ?_⟩
    rw [countAll_cons, countAll_cons]
    omega

/-- **Simplifying a subtree follows the rules**, and leaves one operation or pair of parentheses
less for every node that collapses. -/
theorem Reads.simplifies (hq : CountsFolds q) {part : Part} (h : b.Reads part)
    (inCondition : Bool) : ∃ n, b.Simplifies inCondition (b.simplify inCondition) n ∧
      n + (b.simplify inCondition).count q = b.count q := by
  induction b generalizing part inCondition with
  | node i k p cs ih =>
    obtain ⟨rfl, hcs⟩ := reads_node_iff.mp h
    obtain ⟨n, hn, hcount⟩ := simplifiesFrom_simplifyFrom part.kind inCondition 0
      fun c hc inCondition => by
        obtain ⟨part', hpart'⟩ := forall₂_of_mem hcs hc
        exact ih c hc hpart' inCondition
    have hfrom : simplifyFrom part.kind inCondition 0 cs
        = simplifyAll part.kind inCondition cs := by
      rw [simplifyFrom_eq]
      simp only [Nat.zero_add]
      rfl
    rw [hfrom] at hn hcount
    rw [simplify_node]
    cases hl : collapse? inCondition part.kind
        ((simplifyAll part.kind inCondition cs).map kind) with
    | none =>
      refine ⟨n, .stays hn (collapse?_eq_none_iff.mp hl), ?_⟩
      rw [count_node, count_node]
      omega
    | some l =>
      obtain ⟨hcompound, hliterals, hlit⟩ := collapse?_spec hl
      refine ⟨n + 1, .collapses hn (collapse?_eq_some.mp hl), ?_⟩
      have hzero : countAll q (simplifyAll part.kind inCondition cs) = 0 := by
        refine countAll_literals hq (fun d hd => ?_) hliterals
        obtain ⟨slot, hslot, rfl⟩ := List.mem_mapIdx.mp hd
        obtain ⟨part', hpart'⟩ := forall₂_of_mem hcs (List.getElem_mem hslot)
        exact ⟨_, hpart'.simplify _⟩
      rw [count_node, count_node, hq.literal l hlit, hq.compound _ hcompound, countAll_nil]
      simp only [Bool.false_eq_true, if_false, if_true]
      omega

/-! ### Irreducible subtrees -/

theorem irreducible_leaf {i : NodeId} {p : Position} (hk : isCompound k = false) :
    Irreducible inCondition (.node i k p []) :=
  .node (collapse?_eq_none_iff.mp (collapse?_eq_none hk _)) (by simp)

/-- **A simplified subtree is irreducible.** -/
theorem irreducible_simplify (b : Subtree) (inCondition : Bool) :
    (b.simplify inCondition).Irreducible inCondition := by
  induction b generalizing inCondition with
  | node i k p cs ih =>
    rw [simplify_node]
    cases hl : collapse? inCondition k ((simplifyAll k inCondition cs).map kind) with
    | none =>
      refine .node (collapse?_eq_none_iff.mp hl) fun slot c hc => ?_
      rw [simplifyAll, List.getElem?_mapIdx] at hc
      obtain ⟨d, hd, rfl⟩ := Option.map_eq_some_iff.mp hc
      exact ih d (List.mem_of_getElem? hd) _
    | some l =>
      refine irreducible_leaf ?_
      have hlit := (collapse?_spec hl).2.2
      cases l <;> first | rfl | cases hlit

theorem Irreducible.simplify_eq (h : b.Irreducible inCondition) : b.simplify inCondition = b := by
  induction h with
  | @node inCondition i k p cs here below ih =>
    have hall : simplifyAll k inCondition cs = cs := by
      refine List.ext_getElem? fun slot => ?_
      rw [simplifyAll, List.getElem?_mapIdx]
      cases hc : cs[slot]? with
      | none => rfl
      | some c => exact congrArg some (ih slot c hc)
    rw [simplify_node, hall, collapse?_eq_none_iff.mpr here]

theorem Irreducible.of_outline (h : b.Irreducible inCondition) (ho : s.outline = b.outline) :
    s.Irreducible inCondition := by
  induction h generalizing s with
  | @node inCondition i k p cs here below ih =>
    obtain ⟨j, k', p', ds⟩ := s
    rw [outline_node, outline_node] at ho
    injection ho with _ hk _ hcs
    subst hk
    refine .node (map_kind_of_outline hcs ▸ here) fun slot d hd => ?_
    have hslot : (cs[slot]?).map outline = some d.outline := by
      rw [← List.getElem?_map, ← hcs, List.getElem?_map, hd, Option.map_some]
    obtain ⟨c, hc, hcd⟩ := Option.map_eq_some_iff.mp hslot
    exact ih slot c hc hcd.symm

end Subtree

open Subtree in
/-- **One folding run simplifies the tree to the end.**  Folding a built tree succeeds.  What the
root reaches then has the kinds, positions and child order of the simplified tree, the number
returned is that of the nodes that collapsed, no node collapses any more, and a second run folds
nothing and leaves the whole tree as it is, also the nodes that the root does not reach. -/
theorem foldConstants_normalizes (p : Program) :
    ∃ b s n t' b', p.build.Pictures p b ∧ b.Simplifies false s n ∧
      foldConstants p.build = (.ok n, t') ∧ t'.Pictures p.simplify b' ∧ b'.outline = s.outline ∧
      b'.Irreducible false ∧ foldConstants t' = (.ok 0, t') := by
  obtain ⟨b, hb⟩ := p.pictures_build
  obtain ⟨n, t', b', hrun, hb', hout, hcount⟩ := foldConstants_ok countsFolds_isCompound hb
  obtain ⟨m, hm, hcount'⟩ := hb.reads.simplifies countsFolds_isCompound false
  -- both numbers count the operations and parentheses that are gone
  have hsame := count_of_outline hout isCompound
  obtain rfl : m = n := by omega
  have hirr : b'.Irreducible false := (irreducible_simplify b false).of_outline hout
  obtain ⟨n₂, t₂, b₂, hrun₂, hb₂, hout₂, hcount₂⟩ := foldConstants_ok countsFolds_isCompound hb'
  rw [hirr.simplify_eq] at hout₂
  have hsame₂ := count_of_outline hout₂ isCompound
  obtain rfl : n₂ = 0 := by omega
  obtain rfl : t₂ = t' := (foldConstants_counts hrun₂).2 rfl
  exact ⟨b, _, m, _, b', hb, hm, hrun, hb', hout, hirr, hrun₂⟩

end Classlet
