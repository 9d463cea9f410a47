import Classlet.Optimize
import Classlet.Proofs.Syntax.Copying
import Classlet.Proofs.Syntax.Splicing

/-!
# Sequences of tree operations

A tree starts as one node and changes by five operations, in any order, on attached and detached
nodes alike.

* `Operation.Admissible`: the nodes an operation is about exist, what it attaches is neither the
  root nor above the place it goes to, and what it appends has no parent.
* `Operation.Refused`: a replacement by an attached node, or of a detached one.
* `Operation.Admissible.perform_cases`: one operation keeps parent links and child lists in
  agreement.
* `Tree.Reachable.links_agree`: so they agree in every tree that operations lead to, where exactly
  the refused replacements fail, and all others exchange one block of the pre-order.
-/

namespace Classlet

open Classlet.Optimize

/-- One operation on a tree. -/
inductive Operation where
  | add (kind : Kind) (position : Position)
  | addChild (parent : NodeId) (kind : Kind) (position : Position)
  | deepCopy (id : NodeId)
  | appendChild (parent child : NodeId)
  | replace (old new : NodeId)

namespace Operation

/-- Does an operation and returns the id of the node it has made. -/
def perform : Operation → Edit (Option NodeId)
  | .add kind position => do return some (← Edit.step fun t => return t.add kind position)
  | .addChild parent kind position => do
    return some (← Edit.step fun t => t.addChild parent kind position)
  | .deepCopy id => do return some (← Edit.step fun t => t.deepCopy id)
  | .appendChild parent child => Edit.step fun t => return (none, ← t.appendChild parent child)
  | .replace old new => do Edit.replace old new; return none

/-- The nodes exist, and no node is attached below itself or loses the root its place. -/
def Admissible (t : Tree) : Operation → Prop
  | .add .. => True
  | .addChild parent .. => parent < t.size
  | .deepCopy id => id < t.size
  | .appendChild parent child => parent < t.size ∧ t.parent child = .ok none ∧ child ≠ t.root ∧
      ¬ t.Contains child parent
  | .replace old new => old < t.size ∧ new < t.size ∧ new ≠ t.root ∧ ¬ t.Contains new old

/-- A replacement by an attached node, or of a parentless node that is not the root. -/
def Refused (t : Tree) : Operation → Prop
  | .replace old new => t.parent new ≠ .ok none ∨ t.parent old = .ok none ∧ old ≠ t.root
  | _ => False

instance (t : Tree) : (op : Operation) → Decidable (op.Admissible t)
  | .add .. => inferInstanceAs (Decidable True)
  | .addChild parent .. => inferInstanceAs (Decidable (parent < t.size))
  | .deepCopy id => inferInstanceAs (Decidable (id < t.size))
  | .appendChild parent child => inferInstanceAs (Decidable (parent < t.size ∧
      t.parent child = .ok none ∧ child ≠ t.root ∧ ¬ t.Contains child parent))
  | .replace old new => inferInstanceAs (Decidable (old < t.size ∧ new < t.size ∧ new ≠ t.root ∧
      ¬ t.Contains new old))

instance (t : Tree) : (op : Operation) → Decidable (op.Refused t)
  | .add .. | .addChild .. | .deepCopy _ | .appendChild .. => inferInstanceAs (Decidable False)
  | .replace old new => inferInstanceAs (Decidable
      (t.parent new ≠ .ok none ∨ t.parent old = .ok none ∧ old ≠ t.root))

/-! ### One operation -/

variable {t : Tree} {op : Operation} {parent old new : NodeId}

theorem exists_node_of_parent {i : NodeId} {p : Option NodeId} (h : t.parent i = .ok p) :
    ∃ n : Node, t.nodes[i]? = some n ∧ n.parent = p := by
  obtain ⟨n, hn, hp⟩ := Halt.bind_ok h
  exact ⟨n, Tree.node_ok_inv hn, Except.ok.inj hp⟩

theorem addChild_eq (hp : parent < t.size) (kind : Kind) (position : Position) :
    t.addChild parent kind position
      = .ok (t.size, (t.add kind position).2.link parent t.size) := by
  have happ : (t.add kind position).2.appendChild parent t.size
      = .ok ((t.add kind position).2.link parent t.size) :=
    Tree.appendChild_eq (by simpa using Nat.lt_succ_of_lt hp) (by simp)
  show (do
    let t' ← (t.add kind position).2.appendChild parent t.size
    return (t.size, t')) = _
  rw [happ]
  rfl

theorem wellLinked_addChild (h : t.WellLinked) (hp : parent < t.size) (kind : Kind)
    (position : Position) : ((t.add kind position).2.link parent t.size).WellLinked := by
  have hnew : (t.add kind position).2.nodes[t.size]? = some ⟨kind, position, none, []⟩ := by
    rw [Tree.getElem?_nodes_add, if_pos rfl]
  have hroot : t.size ≠ t.root := fun e => by
    obtain ⟨r, hr, -⟩ := h.root
    exact Nat.lt_irrefl _ (e ▸ (Array.getElem?_eq_some_iff.mp hr).1)
  refine (h.add kind position).link hnew rfl hroot (by simpa using Nat.lt_succ_of_lt hp)
    fun hpath => ?_
  rcases Relation.ReflTransGen.cases_head hpath with he | ⟨c, ⟨n, hn, hc⟩, -⟩
  · exact Nat.lt_irrefl _ (he ▸ hp)
  · cases hnew.symm.trans hn
    cases hc

theorem replace_cases (h : t.WellLinked) (ha : (Operation.replace old new).Admissible t) :
    ((Operation.replace old new).Refused t ∧ ∃ e, t.replace old new = .error (.error e)) ∨
    (¬ (Operation.replace old new).Refused t ∧ ∃ t', t.replace old new = .ok t' ∧ t'.WellLinked ∧
      t.Replaced t' old new) := by
  obtain ⟨hold, hnew, hroot, hbelow⟩ := ha
  obtain ⟨m, hm⟩ : ∃ m, t.nodes[old]? = some m := ⟨_, Array.getElem?_eq_getElem hold⟩
  obtain ⟨n, hn⟩ : ∃ n, t.nodes[new]? = some n := ⟨_, Array.getElem?_eq_getElem hnew⟩
  have hrefused : (Operation.replace old new).Refused t ↔
      n.parent ≠ none ∨ m.parent = none ∧ old ≠ t.root := by
    simp [Refused, Tree.parent_eq_ok hn, Tree.parent_eq_ok hm]
  by_cases hbad : n.parent ≠ none ∨ m.parent = none ∧ old ≠ t.root
  · exact .inl ⟨hrefused.mpr hbad, Tree.WellLinked.replace_eq_error hn hm hbad⟩
  · refine .inr ⟨fun hr => hbad (hrefused.mp hr), ?_⟩
    obtain ⟨hnp, hmp⟩ := not_or.mp hbad
    obtain ⟨t', ht'⟩ := h.replace_eq_ok hn hm (not_not.mp hnp) fun hp =>
      not_not.mp (not_and.mp hmp hp)
    exact ⟨t', ht', h.replace ht' hroot fun hp => hbelow ((h.contains_iff_path hn).mpr hp),
      h.replaced ht' hroot hbelow⟩

/-- **An admissible operation** is refused and changes nothing, or it succeeds and leaves the tree
well linked. -/
theorem Admissible.perform_cases (h : t.WellLinked) (ha : op.Admissible t) :
    (op.Refused t ∧ ∃ e, op.perform t = (.error (.error e), t)) ∨
    (¬ op.Refused t ∧ ∃ made t', op.perform t = (.ok made, t') ∧ t'.WellLinked ∧
      ∀ old new, op = .replace old new → t.Replaced t' old new) := by
  cases op with
  | add kind position =>
    exact .inr ⟨id, _, _, Edit.bind_ok (Edit.step_ok rfl), h.add kind position, by simp⟩
  | addChild parent kind position =>
    exact .inr ⟨id, _, _, Edit.bind_ok (Edit.step_ok (addChild_eq ha kind position)),
      wellLinked_addChild h ha kind position, by simp⟩
  | deepCopy i =>
    obtain ⟨b, hb, rfl⟩ := h.exists_holds (Array.getElem?_eq_getElem ha)
    obtain ⟨t', ht', c, hc, -⟩ := Tree.deepCopy_eq hb (h.nodup_ids hb)
    exact .inr ⟨id, _, t', Edit.bind_ok (Edit.step_ok ht'), h.gains hc, by simp⟩
  | appendChild parent child =>
    obtain ⟨hp, hc, hroot, hbelow⟩ := ha
    obtain ⟨n, hn, hnp⟩ := exists_node_of_parent hc
    have happ := Tree.appendChild_eq hp (Array.getElem?_eq_some_iff.mp hn).1
    refine .inr ⟨id, none, t.link parent child, ?_, ?_, by simp⟩
    · rw [perform, Edit.step, happ]
      rfl
    · exact h.link hn hnp hroot hp fun hpath => hbelow ((h.contains_iff_path hn).mpr hpath)
  | replace old new =>
    rcases replace_cases h ha with ⟨hr, e, he⟩ | ⟨hr, t', ht', hw, hrep⟩
    · refine .inl ⟨hr, e, ?_⟩
      rw [perform, Edit.bind_apply, Edit.replace, Edit.step, he]
      rfl
    · refine .inr ⟨hr, none, t', Edit.bind_ok (Edit.replace_ok ht'), hw, ?_⟩
      rintro _ _ ⟨⟩
      exact hrep

end Operation

/-! ### Runs of operations -/

/-- The trees that admissible operations lead to, from one node. -/
inductive Tree.Reachable : Tree → Prop where
  | ofKind (kind : Kind) (position : Position) : Reachable (.ofKind kind position)
  | perform {t : Tree} {op : Operation} (h : t.Reachable) (ha : op.Admissible t) :
      Reachable (op.perform t).2

theorem Tree.wellLinked_ofKind (kind : Kind) (position : Position) :
    (Tree.ofKind kind position).WellLinked := by
  have hroot : (Tree.ofKind kind position).nodes[0]? = some ⟨kind, position, none, []⟩ := rfl
  have hone : (Tree.ofKind kind position).Holds none (.node 0 kind position []) :=
    .node hroot (by simp)
  refine hone.wellLinked rfl (by simp) fun i hi => ?_
  have hi : i < 1 := hi
  simp only [Subtree.ids_node, List.flatMap_nil, List.mem_singleton]
  omega

/-- **Parent links and child lists agree** in every tree that admissible operations lead to.  There
the refused replacements fail with an error and change nothing, all other admissible operations
succeed, and a replacement that succeeds exchanges one block of the pre-order and changes no other
subtree. -/
theorem Tree.Reachable.links_agree {t : Tree} (h : t.Reachable) :
    t.WellLinked ∧ ∀ op : Operation, op.Admissible t →
      (op.Refused t → ∃ e, op.perform t = (.error (.error e), t)) ∧
      (¬ op.Refused t → ∃ made t', op.perform t = (.ok made, t') ∧
        ∀ old new, op = .replace old new → t.Replaced t' old new) := by
  have hw : t.WellLinked := by
    induction h with
    | ofKind kind position => exact wellLinked_ofKind kind position
    | perform _ ha ih =>
      rcases ha.perform_cases ih with ⟨-, e, he⟩ | ⟨-, made, t', ht', hw, -⟩
      · rwa [he]
      · rwa [ht']
  refine ⟨hw, fun op ha => ?_⟩
  rcases ha.perform_cases hw with ⟨hr, he⟩ | ⟨hr, made, t', ht', -, hrep⟩
  · exact ⟨fun _ => he, fun hn => absurd hr hn⟩
  · exact ⟨fun h => absurd h hr, fun _ => ⟨made, t', ht', hrep⟩⟩

/-- A block with a literal below a root, a copy of the block, and a second block appended to the
copy: the copy comes into the place of the original, which cannot be replaced again then. -/
theorem links_agree_after_replace :
    ∃ t : Tree, t.WellLinked ∧ t.descendants 0 = .ok [0, 3, 4, 5] ∧
      (∃ e, (Operation.replace 1 2).perform t = (.error (.error e), t)) ∧
      ∃ made t', (Operation.replace 3 1).perform t = (.ok made, t') ∧ t.Replaced t' 3 1 := by
  have h₀ : (Tree.ofKind .program ⟨1, 1⟩).Reachable := .ofKind ..
  have h₁ := h₀.perform (show (Operation.addChild 0 .block ⟨2, 1⟩).Admissible _ by decide)
  have h₂ := h₁.perform (show (Operation.addChild 1 (.intLit 5) ⟨2, 3⟩).Admissible _ by decide)
  have h₃ := h₂.perform (show (Operation.deepCopy 1).Admissible _ by decide +kernel)
  have h₄ := h₃.perform (show (Operation.add .block ⟨3, 1⟩).Admissible _ by decide +kernel)
  have h₅ := h₄.perform (show (Operation.appendChild 3 5).Admissible _ by decide +kernel)
  have h₆ := h₅.perform (show (Operation.replace 1 3).Admissible _ by decide +kernel)
  obtain ⟨hw, hall⟩ := h₆.links_agree
  refine ⟨_, hw, by decide +kernel, ?_, ?_⟩
  · exact (hall (.replace 1 2) (by decide +kernel)).1 (by decide +kernel)
  · obtain ⟨made, t', ht', hrep⟩ :=
      (hall (.replace 3 1) (by decide +kernel)).2 (by decide +kernel)
    exact ⟨made, t', ht', hrep 3 1 rfl⟩

end Classlet
