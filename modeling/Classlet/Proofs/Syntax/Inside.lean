import Classlet.Proofs.Syntax.Edited

/-!
# Parts inside parts

The parts that are met on the way down from a part are those that the nodes of its subtree stand
for: `Reads.within` goes from nodes to parts, `Reads.exists_within` from parts to nodes.
-/

namespace Classlet

/-- A part inside another, or the whole. -/
inductive Part.Inside : Part → Part → Prop where
  | refl (part : Part) : Inside part part
  | part {part whole inner : Part} (hc : inner ∈ whole.parts) (h : Inside part inner) :
      Inside part whole

namespace Part

theorem inside_iff {part whole : Part} :
    part.Inside whole ↔ part = whole ∨ ∃ inner ∈ whole.parts, part.Inside inner := by
  constructor
  · rintro (_ | ⟨hc, h⟩)
    · exact .inl rfl
    · exact .inr ⟨_, hc, h⟩
  · rintro (rfl | ⟨inner, hc, h⟩)
    · exact .refl _
    · exact .part hc h

theorem Inside.of_mem {part whole : Part} (h : part ∈ whole.parts) : part.Inside whole :=
  .part h (.refl _)

theorem Inside.trans {p q r : Part} (h : p.Inside q) (h' : q.Inside r) : p.Inside r := by
  induction h' with
  | refl => exact h
  | part hc _ ih => exact .part hc ih

theorem Inside.operand {e a : Expr} {whole : Part} (h : (Part.expr e).Inside whole)
    (ha : a ∈ e.parts) : (Part.expr a).Inside whole :=
  .trans (.of_mem (List.mem_map_of_mem ha)) h

theorem Inside.member {s : Stmt} {part whole : Part} (h : (Part.stmt s).Inside whole)
    (hp : part ∈ s.parts) : part.Inside whole :=
  have hinside : part.Inside (.stmt s) := .of_mem hp
  hinside.trans h

theorem Inside.expr {part : Part} {e : Expr} (h : part.Inside (.expr e)) :
    ∃ e', part = .expr e' := by
  generalize hw : Part.expr e = whole at h
  induction h generalizing e with
  | refl => exact ⟨e, hw.symm⟩
  | part hc _ ih =>
    subst hw
    obtain ⟨a, -, rfl⟩ := List.mem_map.mp hc
    exact ih rfl

end Part

namespace Subtree

theorem Within.trans {b c d : Subtree} (h : b.Within c) (h' : c.Within d) : b.Within d := by
  induction h' with
  | refl => exact h
  | child hc _ ih => exact .child hc ih

theorem Within.nodup {b c : Subtree} (h : b.Within c) (hn : c.ids.Nodup) : b.ids.Nodup := by
  induction h with
  | refl => exact hn
  | child hc _ ih => exact ih (nodup_child hn hc)

mutual

/-- The subtrees in pre-order, the whole first. -/
def subtrees : Subtree → List Subtree
  | .node id kind position children =>
    .node id kind position children :: subtreesOfAll children

/-- The subtrees of several subtrees, one after the other. -/
def subtreesOfAll : List Subtree → List Subtree
  | [] => []
  | b :: rest => b.subtrees ++ subtreesOfAll rest

end

theorem subtreesOfAll_eq (bs : List Subtree) : subtreesOfAll bs = bs.flatMap subtrees := by
  induction bs with
  | nil => rfl
  | cons b bs ih => rw [subtreesOfAll, ih, List.flatMap_cons]

@[simp]
theorem subtrees_node (i : NodeId) (k : Kind) (p : Position) (cs : List Subtree) :
    (node i k p cs).subtrees = node i k p cs :: cs.flatMap subtrees := by
  rw [subtrees, subtreesOfAll_eq]

theorem mem_subtrees {b d : Subtree} : d ∈ b.subtrees ↔ d.Within b := by
  induction b with
  | node i k p cs ih =>
    rw [subtrees_node, List.mem_cons, List.mem_flatMap]
    constructor
    · rintro (rfl | ⟨c, hc, hd⟩)
      · exact .refl _
      · exact .child hc ((ih c hc).mp hd)
    · intro hd
      cases hd with
      | refl => exact .inl rfl
      | child hc hd => exact .inr ⟨_, hc, (ih _ hc).mpr hd⟩

theorem map_id_subtrees (b : Subtree) : b.subtrees.map id = b.ids := by
  induction b with
  | node i k p cs ih =>
    rw [subtrees_node, List.map_cons, List.map_flatMap, List.flatMap_congr ih, ids_node, id_node]

theorem Reads.within {b d : Subtree} {whole : Part} (h : b.Reads whole) (hd : d.Within b) :
    ∃ part, d.Reads part ∧ part.Inside whole := by
  induction hd generalizing whole with
  | refl => exact ⟨whole, h, .refl _⟩
  | child hc _ ih =>
    obtain ⟨-, hcs⟩ := reads_node_iff.mp h
    obtain ⟨inner, hinner, hread⟩ := forall₂_of_mem_left hcs hc
    obtain ⟨part, hpart, hin⟩ := ih hread
    exact ⟨part, hpart, .part hinner hin⟩

/-- What is inside a part has a node inside the subtree. -/
theorem Reads.exists_within {b : Subtree} {part whole : Part} (h : b.Reads whole)
    (hp : part.Inside whole) : ∃ d : Subtree, d.Within b ∧ d.Reads part := by
  induction hp generalizing b with
  | refl => exact ⟨b, .refl b, h⟩
  | part hc _ ih =>
    obtain ⟨i, p, cs, rfl, hcs⟩ := reads_iff.mp h
    obtain ⟨c, hmem, hread⟩ := forall₂_of_mem_right hcs hc
    obtain ⟨d, hd, hpart⟩ := ih hread
    exact ⟨d, .child hmem hd, hpart⟩

end Subtree

open Subtree

theorem Tree.Pictures.exists_node {t : Tree} {p : Program} {b : Subtree} {ids : List NodeId}
    (h : t.Pictures p b) (hids : t.descendants t.root = .ok ids) {part : Part}
    (hin : part.Inside (.program p)) : ∃ id ∈ ids, t.kind id = .ok part.kind := by
  rw [← h.root, h.holds.descendants_eq h.nodup] at hids
  cases hids
  obtain ⟨d, hd, hread⟩ := h.reads.exists_within hin
  obtain ⟨_, hheld⟩ := h.holds.within hd
  exact ⟨d.id, hd.ids_subset d.id_mem_ids, by rw [hheld.kind_eq, hread.kind_eq]⟩

theorem Part.inside_program {imports : List String} {c : ClassDecl} {m : MethodDecl}
    (hm : m ∈ c.methods) : (Part.method m).Inside (.program ⟨imports, [c]⟩) := by
  have hclass : (Part.classDecl c).Inside (.program ⟨imports, [c]⟩) :=
    .of_mem (List.mem_append_right _ List.mem_cons_self)
  exact .trans (.of_mem (List.mem_append_right _ (List.mem_map_of_mem hm))) hclass

end Classlet
