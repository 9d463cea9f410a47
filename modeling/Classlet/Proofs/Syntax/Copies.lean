import Classlet.Proofs.Syntax.Copying
import Classlet.Proofs.Syntax.Inside

/-!
# What a copy looks like

A copy of a subtree shows, node by node along its pre-order, what the original shows: kind, position
and number of children.  The original need not be below the root, and its ids may be in any order;
those of the copy are the next free ones, in increasing order.

* `Linked`: parent links and child lists agree, in a tree of which nothing is said about the root.
* `Subtree.labels`: what a subtree shows along its pre-order; it does not depend on the ids.
* `Linked.exists_holds`: a node of such a tree is the topmost one of a held subtree.

Main statement: `Linked.deepCopy_isomorphic`.
-/

namespace Classlet

open Relation Subtree

/-! ### What the nodes show -/

namespace Subtree

/-- What the topmost node shows: kind, position and number of children. -/
def label : Subtree → Kind × Position × Nat
  | .node _ kind position children => (kind, position, children.length)

/-- What the nodes show in pre-order. -/
def labels (b : Subtree) : List (Kind × Position × Nat) := b.subtrees.map label

@[simp]
theorem labels_node (i : NodeId) (k : Kind) (p : Position) (cs : List Subtree) :
    (node i k p cs).labels = (k, p, cs.length) :: cs.flatMap labels := by
  rw [labels, subtrees_node, List.map_cons, List.map_flatMap]
  rfl

/-- **What the nodes show does not depend on the ids.** -/
theorem labels_outline (b : Subtree) : b.outline.labels = b.labels := by
  induction b with
  | node i k p cs ih =>
    rw [outline_node, labels_node, labels_node, List.length_map, List.flatMap_map,
      List.flatMap_congr ih]

theorem length_labels (b : Subtree) : b.labels.length = b.ids.length := by
  rw [labels, ← b.map_id_subtrees, List.length_map, List.length_map]

end Subtree

namespace Tree

variable {t : Tree} {i : NodeId} {parent : Option NodeId} {b : Subtree}

/-- What the node at an id shows: kind, position and number of children. -/
def label (t : Tree) (i : NodeId) : Except Halt (Kind × Position × Nat) :=
  return ((← t.kind i), (← t.position i), (← t.children i).length)

theorem Holds.map_label (h : t.Holds parent b) : b.ids.map t.label = b.labels.map .ok := by
  rw [← b.map_id_subtrees, Subtree.labels, List.map_map, List.map_map]
  refine List.map_congr_left fun d hd => ?_
  obtain ⟨above, hheld⟩ := h.within (Subtree.mem_subtrees.mp hd)
  obtain ⟨j, k, p, cs⟩ := d
  have hnode := node_eq_ok hheld.here
  simp [label, kind, position, children, hnode, bind, Except.bind, pure, Except.pure,
    Subtree.label]

/-! ### Links that agree -/

/-- Parent links and child lists agree, and there is no cycle.  The root may be any id. -/
structure Linked (t : Tree) : Prop where
  listed : ∀ {i : NodeId} {n : Node} {p : NodeId}, t.nodes[i]? = some n → n.parent = some p →
    ∃ m : Node, t.nodes[p]? = some m ∧ m.children.count i = 1
  parent_eq : ∀ {p c : NodeId}, t.Lists p c → ∃ n : Node, t.nodes[c]? = some n ∧ n.parent = some p
  acyclic : ∀ i, ¬ TransGen t.Lists i i

theorem WellLinked.linked (h : t.WellLinked) : t.Linked := ⟨h.listed, h.parent_eq, h.acyclic⟩

namespace Linked

/-- Going up from a node leads to one without a parent. -/
theorem exists_parentless (h : t.Linked) (hi : i < t.size) :
    ∃ (r : NodeId) (n : Node), t.nodes[r]? = some n ∧ n.parent = none := by
  refine (wellFounded_lists h.acyclic).induction (C := fun _ => _) ⟨i, hi⟩ fun a ih => ?_
  have ha : t.nodes[a.val]? = some t.nodes[a.val] := Array.getElem?_eq_getElem a.isLt
  cases hp : t.nodes[a.val].parent with
  | none => exact ⟨a, _, ha, hp⟩
  | some p =>
    obtain ⟨m, hm, hcount⟩ := h.listed ha hp
    have hlists : t.Lists p a := ⟨m, hm, List.count_pos_iff.mp (by omega)⟩
    exact ih ⟨p, (Array.getElem?_eq_some_iff.mp hm).1⟩ (.single hlists)

theorem exists_wellLinked (h : t.Linked) (hi : i < t.size) :
    ∃ r, ({ t with root := r } : Tree).WellLinked := by
  obtain ⟨r, n, hr, hp⟩ := h.exists_parentless hi
  exact ⟨r, h.listed, h.parent_eq, ⟨n, hr, hp⟩, h.acyclic⟩

/-- **Each node is the topmost one of a held subtree**, which has each of its nodes once. -/
theorem exists_holds (h : t.Linked) (hi : i < t.size) :
    ∃ parent b, t.Holds parent b ∧ b.ids.Nodup ∧ b.id = i := by
  obtain ⟨r, hr⟩ := h.exists_wellLinked hi
  obtain ⟨b, hb, hid⟩ := hr.exists_holds (Array.getElem?_eq_getElem hi)
  exact ⟨_, b, hb.congr fun _ _ => rfl, hr.nodup_ids hb, hid⟩

/-- **A copy of a subtree looks like the original.**  Let `ids` be the pre-order at a node, which
has the nodes that child links lead to from there, each of them once.  Then the copy is made without
changing any node that exists; it has as many nodes as the original, with the next free ids; its
topmost node has the first of these and no parent, and its pre-order is that of the ids.  Along the
two pre-orders the nodes show the same kinds, positions and numbers of children.  No node is in
both. -/
theorem deepCopy_isomorphic (h : t.Linked) (hi : i < t.size) :
    ∃ (ids : List NodeId) (labels : List (Kind × Position × Nat)) (t' : Tree),
      (ids.Nodup ∧ ∀ j, j ∈ ids ↔ ReflTransGen t.Lists i j) ∧
      t.descendants i = .ok ids ∧ ids.map t.label = labels.map .ok ∧
      t.deepCopy i = .ok (t.size, t') ∧
      t'.root = t.root ∧ (∀ j < t.size, t'.nodes[j]? = t.nodes[j]?) ∧
      t'.size = t.size + ids.length ∧
      t'.parent t.size = .ok none ∧
      t'.descendants t.size = .ok (List.range' t.size ids.length) ∧
      (List.range' t.size ids.length).map t'.label = labels.map .ok ∧
      ids.Disjoint (List.range' t.size ids.length) := by
  obtain ⟨parent, b, hb, hnodup, rfl⟩ := h.exists_holds hi
  obtain ⟨t', ht', c, hc, hout⟩ := deepCopy_eq hb hnodup
  have hlabels : c.labels = b.labels := by rw [← c.labels_outline, hout, b.labels_outline]
  have hsize : t'.size = t.size + b.ids.length := by
    rw [hc.size_eq, ← length_labels, hlabels, length_labels]
  have hblock : List.range' t.size b.ids.length = c.ids := by
    rw [hc.ids_eq, hsize, Nat.add_sub_cancel_left]
  refine ⟨b.ids, b.labels, t', ⟨hnodup, fun j => hb.mem_ids_iff⟩, hb.descendants_eq hnodup,
    hb.map_label, ht', hc.root_eq, hc.nodes_eq, hsize, hc.parent_eq, ?_, ?_, fun j hj hj' => ?_⟩
  · rw [hblock, ← hc.id_eq, hc.holds.descendants_eq hc.nodup_ids]
  · rw [hblock, hc.holds.map_label, hlabels]
  · exact Nat.not_le.mpr (hb.lt_size hj) (List.mem_range'_1.mp hj').1

end Linked

/-- The statement `7 < 9;` in a tree whose ids are in no order, with a block that is detached. -/
def scattered : Tree where
  nodes := #[⟨.block, ⟨3, 1⟩, none, []⟩, ⟨.intLit 9, ⟨2, 7⟩, some 3, []⟩,
    ⟨.exprStmt, ⟨2, 1⟩, some 4, [3]⟩, ⟨.binary .lt, ⟨2, 3⟩, some 2, [5, 1]⟩,
    ⟨.program, ⟨1, 1⟩, none, [2]⟩, ⟨.intLit 7, ⟨2, 5⟩, some 3, []⟩]
  root := 4

/-- What the root of it reaches. -/
def scatteredUnit : Subtree :=
  .node 4 .program ⟨1, 1⟩ [.node 2 .exprStmt ⟨2, 1⟩ [.node 3 (.binary .lt) ⟨2, 3⟩
    [.node 5 (.intLit 7) ⟨2, 5⟩ [], .node 1 (.intLit 9) ⟨2, 7⟩ []]]]

theorem linked_scattered : scattered.Linked := by
  have hunit : scattered.Holds none scatteredUnit := by
    refine .node rfl (List.forall_mem_singleton.mpr ?_)
    refine .node rfl (List.forall_mem_singleton.mpr ?_)
    refine .node rfl (List.forall_mem_cons.mpr ⟨?_, List.forall_mem_singleton.mpr ?_⟩)
    · exact .node rfl (by simp)
    · exact .node rfl (by simp)
  have hblock : scattered.Holds none (.node 0 .block ⟨3, 1⟩ []) := .node rfl (by simp)
  refine (wellLinked_of_holds ⟨_, rfl, rfl⟩ fun i hi => ?_).linked
  by_cases h : i = 0
  · exact ⟨_, hblock, by simp, by simp [h]⟩
  · refine ⟨_, hunit, by decide, ?_⟩
    have hi : i < 6 := hi
    have hall : ∀ i < 6, i ≠ 0 → i ∈ scatteredUnit.ids := by decide
    exact hall i hi h

/-- The copy of the statement has its four nodes in order. -/
theorem deepCopy_isomorphic_scattered : scattered.Linked ∧ 2 < scattered.size ∧
    scattered.descendants 2 = .ok [2, 3, 5, 1] ∧
    ∃ t', scattered.deepCopy 2 = .ok (6, t') ∧ t'.size = 10 ∧
      t'.descendants 6 = .ok [6, 7, 8, 9] ∧ [6, 7, 8, 9].map t'.label =
        [.ok (.exprStmt, ⟨2, 1⟩, 1), .ok (.binary .lt, ⟨2, 3⟩, 2), .ok (.intLit 7, ⟨2, 5⟩, 0),
          .ok (.intLit 9, ⟨2, 7⟩, 0)] := by
  have hsize : 2 < scattered.size := by decide
  have hids : scattered.descendants 2 = .ok [2, 3, 5, 1] := by decide +kernel
  obtain ⟨ids, labels, t', -, hids', hold, ht', -, -, hsize', -, hcopy, hnew, -⟩ :=
    linked_scattered.deepCopy_isomorphic hsize
  obtain rfl : [2, 3, 5, 1] = ids := Except.ok.inj (hids.symm.trans hids')
  exact ⟨linked_scattered, hsize, hids, t', ht', hsize', hcopy, hnew.trans (hold.symm.trans rfl)⟩

end Tree

end Classlet
