import Classlet.Syntax.Shape
import Mathlib.Algebra.GroupWithZero.Nat
import Mathlib.Data.List.Nodup
import Mathlib.Data.List.Perm.Subperm

/-!
# Subtrees written out

A `Subtree` is a finite piece of a tree with its ids, kinds and positions.  `t.Holds parent b` says
that the nodes of `b` stand in the array of `t` with exactly these links, the topmost of them below
`parent`.  While no id is repeated, a subtree is changed only by changing its own nodes
(`Holds.congr`), and following the child links of the tree shows it (`Holds.shape_eq`).
Every id of a held subtree is that of a smaller one it holds (`Holds.exists_subtree`), and every id
but the topmost that of a child (`Holds.exists_parent`).

`b.count q` counts the nodes of `b` by their kinds, and `b.outline` is `b` without its ids.
-/

namespace Classlet

/-- A finite piece of a tree. -/
inductive Subtree where
  | node (id : NodeId) (kind : Kind) (position : Position) (children : List Subtree)
  deriving Inhabited

namespace Subtree

@[elab_as_elim, induction_eliminator]
theorem ind {motive : Subtree → Prop}
    (node : ∀ id kind position children, (∀ c ∈ children, motive c) →
      motive (.node id kind position children)) : ∀ b, motive b
  | .node id kind position children =>
    node id kind position children fun c _ => ind node c

/-- The id of the topmost node. -/
def id : Subtree → NodeId
  | .node id _ _ _ => id

/-- The kind of the topmost node. -/
def kind : Subtree → Kind
  | .node _ kind _ _ => kind

@[simp]
theorem id_node (i : NodeId) (k : Kind) (p : Position) (cs : List Subtree) :
    (node i k p cs).id = i := rfl

@[simp]
theorem kind_node (i : NodeId) (k : Kind) (p : Position) (cs : List Subtree) :
    (node i k p cs).kind = k := rfl

mutual

/-- The ids in pre-order. -/
def ids : Subtree → List NodeId
  | .node id _ _ children => id :: idsOfAll children

/-- The ids of several subtrees, one after the other. -/
def idsOfAll : List Subtree → List NodeId
  | [] => []
  | b :: rest => b.ids ++ idsOfAll rest

end

theorem idsOfAll_eq (bs : List Subtree) : idsOfAll bs = bs.flatMap ids := by
  induction bs with
  | nil => rfl
  | cons b bs ih => rw [idsOfAll, ih, List.flatMap_cons]

@[simp]
theorem ids_node (i : NodeId) (k : Kind) (p : Position) (cs : List Subtree) :
    (node i k p cs).ids = i :: cs.flatMap ids := by
  rw [ids, idsOfAll_eq]

theorem id_mem_ids (b : Subtree) : b.id ∈ b.ids := by
  cases b; simp

theorem mem_ids_of_child {b : Subtree} {i : NodeId} {k : Kind} {p : Position} {cs : List Subtree}
    {j : NodeId} (hb : b ∈ cs) (hj : j ∈ b.ids) : j ∈ (node i k p cs).ids := by
  rw [ids_node]
  exact List.mem_cons_of_mem _ (List.mem_flatMap.mpr ⟨b, hb, hj⟩)

theorem length_ids_pos (b : Subtree) : 0 < b.ids.length := List.length_pos_of_mem b.id_mem_ids

theorem length_ids_child {b : Subtree} {i : NodeId} {k : Kind} {p : Position} {cs : List Subtree}
    (hb : b ∈ cs) : b.ids.length < (node i k p cs).ids.length := by
  obtain ⟨before, after, rfl⟩ := List.append_of_mem hb
  rw [ids_node]
  simp only [List.flatMap_append, List.flatMap_cons, List.length_cons, List.length_append]
  omega

theorem sublist_flatMap_ids {b : Subtree} {cs : List Subtree} (hb : b ∈ cs) :
    b.ids.Sublist (cs.flatMap ids) := by
  obtain ⟨before, after, rfl⟩ := List.append_of_mem hb
  rw [List.flatMap_append, List.flatMap_cons]
  exact (List.sublist_append_left ..).trans (List.sublist_append_right ..)

/-! ### Ids without repetition -/

theorem nodup_child {b : Subtree} {i : NodeId} {k : Kind} {p : Position} {cs : List Subtree}
    (h : (node i k p cs).ids.Nodup) (hb : b ∈ cs) : b.ids.Nodup := by
  rw [ids_node] at h
  exact (List.nodup_flatMap.mp h.of_cons).1 b hb

theorem not_mem_child {b : Subtree} {i : NodeId} {k : Kind} {p : Position} {cs : List Subtree}
    (h : (node i k p cs).ids.Nodup) (hb : b ∈ cs) : i ∉ b.ids := fun hi => by
  rw [ids_node, List.nodup_cons] at h
  exact h.1 (List.mem_flatMap.mpr ⟨b, hb, hi⟩)

theorem nodup_map_id {cs : List Subtree} (h : (cs.flatMap ids).Nodup) : (cs.map id).Nodup := by
  induction cs with
  | nil => simp
  | cons b cs ih =>
    rw [List.flatMap_cons, List.nodup_append] at h
    rw [List.map_cons, List.nodup_cons]
    refine ⟨fun hmem => ?_, ih h.2.1⟩
    obtain ⟨c, hc, hid⟩ := List.mem_map.mp hmem
    exact h.2.2 b.id b.id_mem_ids c.id (List.mem_flatMap.mpr ⟨c, hc, c.id_mem_ids⟩) hid.symm

/-! ### Kinds -/

mutual

/-- The kinds of the nodes in pre-order. -/
def kinds : Subtree → List Kind
  | .node _ kind _ children => kind :: kindsOfAll children

/-- The kinds of the nodes of several subtrees, one after the other. -/
def kindsOfAll : List Subtree → List Kind
  | [] => []
  | b :: rest => b.kinds ++ kindsOfAll rest

end

theorem kindsOfAll_eq (bs : List Subtree) : kindsOfAll bs = bs.flatMap kinds := by
  induction bs with
  | nil => rfl
  | cons b bs ih => rw [kindsOfAll, ih, List.flatMap_cons]

@[simp]
theorem kinds_node (i : NodeId) (k : Kind) (p : Position) (cs : List Subtree) :
    (node i k p cs).kinds = k :: cs.flatMap kinds := by
  rw [kinds, kindsOfAll_eq]

theorem length_kinds (b : Subtree) : b.kinds.length = b.ids.length := by
  induction b with
  | node i k p cs ih =>
    rw [kinds_node, ids_node, List.length_cons, List.length_cons, List.length_flatMap,
      List.length_flatMap, List.map_congr_left ih]

/-- The number of nodes of the kinds that `q` picks. -/
def count (q : Kind → Bool) (b : Subtree) : Nat := b.kinds.countP q

/-- The number of nodes of the kinds that `q` picks in several subtrees. -/
def countAll (q : Kind → Bool) (bs : List Subtree) : Nat := (bs.map (count q)).sum

theorem count_node (q : Kind → Bool) (i : NodeId) (k : Kind) (p : Position) (cs : List Subtree) :
    (node i k p cs).count q = countAll q cs + if q k then 1 else 0 := by
  rw [count, kinds_node, List.countP_cons, List.countP_flatMap]
  rfl

@[simp]
theorem countAll_nil (q : Kind → Bool) : countAll q [] = 0 := rfl

@[simp]
theorem countAll_cons (q : Kind → Bool) (b : Subtree) (bs : List Subtree) :
    countAll q (b :: bs) = b.count q + countAll q bs := rfl

@[simp]
theorem countAll_append (q : Kind → Bool) (as bs : List Subtree) :
    countAll q (as ++ bs) = countAll q as + countAll q bs := by
  simp [countAll]

theorem count_le_length (q : Kind → Bool) (b : Subtree) : b.count q ≤ b.ids.length := by
  rw [← length_kinds]
  exact List.countP_le_length

/-! ### Forgetting the ids -/

mutual

/-- The subtree without its ids. -/
def outline : Subtree → Subtree
  | .node _ kind position children => .node 0 kind position (outlines children)

/-- The subtrees without their ids. -/
def outlines : List Subtree → List Subtree
  | [] => []
  | b :: rest => b.outline :: outlines rest

end

theorem outlines_eq (bs : List Subtree) : outlines bs = bs.map outline := by
  induction bs with
  | nil => rfl
  | cons b bs ih => rw [outlines, ih, List.map_cons]

@[simp]
theorem outline_node (i : NodeId) (k : Kind) (p : Position) (cs : List Subtree) :
    (node i k p cs).outline = node 0 k p (cs.map outline) := by
  rw [outline, outlines_eq]

@[simp]
theorem kind_outline (b : Subtree) : b.outline.kind = b.kind := by
  cases b; rfl

@[simp]
theorem kinds_outline (b : Subtree) : b.outline.kinds = b.kinds := by
  induction b with
  | node i k p cs ih =>
    rw [outline_node, kinds_node, kinds_node, List.flatMap_map, List.flatMap_congr ih]

theorem count_of_outline {a b : Subtree} (h : a.outline = b.outline) (q : Kind → Bool) :
    a.count q = b.count q := by
  rw [count, count, ← kinds_outline a, h, kinds_outline]

theorem map_kind_of_outline {as bs : List Subtree} (h : as.map outline = bs.map outline) :
    as.map kind = bs.map kind := by
  have hk : ∀ cs : List Subtree, (cs.map outline).map kind = cs.map kind := fun cs => by
    rw [List.map_map]
    exact List.map_congr_left fun b _ => b.kind_outline
  rw [← hk as, ← hk bs, h]

/-! ### As a shape -/

mutual

/-- The shape that a subtree shows. -/
def toShape : Subtree → Shape
  | .node id kind position children => .node id kind position (toShapes children)

/-- The shapes that subtrees show. -/
def toShapes : List Subtree → Shapes
  | [] => []
  | b :: rest => (fun _ => b.toShape) :: toShapes rest

end

theorem toShapes_eq (bs : List Subtree) : toShapes bs = bs.map fun b _ => b.toShape := by
  induction bs with
  | nil => rfl
  | cons b bs ih => rw [toShapes, ih, List.map_cons]

@[simp]
theorem toShape_node (i : NodeId) (k : Kind) (p : Position) (cs : List Subtree) :
    (node i k p cs).toShape = .node i k p (cs.map fun c _ => c.toShape) := by
  rw [toShape, toShapes_eq]

@[simp]
theorem id_toShape (b : Subtree) : b.toShape.id = b.id := by
  cases b; rfl

theorem kind_toShape (b : Subtree) : b.toShape.kind = .ok b.kind := by
  cases b; rfl

theorem ids_toShape (b : Subtree) : b.toShape.ids = .ok b.ids := by
  induction b with
  | node i k p cs ih =>
    have hall : Shape.idsOfAll (cs.map fun c _ => c.toShape) = .ok (cs.flatMap ids) := by
      induction cs with
      | nil => rfl
      | cons c cs ihc =>
        rw [List.map_cons, Shape.idsOfAll, ih c List.mem_cons_self,
          ihc fun d hd => ih d (List.mem_cons_of_mem _ hd)]
        rfl
    rw [toShape_node, Shape.ids, hall, ids_node]
    rfl

/-! ### Replacing a node -/

mutual

/-- The subtree with `new` in the place of the node `old`. -/
def graft (old : NodeId) (new : Subtree) : Subtree → Subtree
  | .node id kind position children =>
    if id = old then new else .node id kind position (graftAll old new children)

/-- The subtrees with `new` in the place of the node `old`. -/
def graftAll (old : NodeId) (new : Subtree) : List Subtree → List Subtree
  | [] => []
  | b :: rest => graft old new b :: graftAll old new rest

end

theorem graftAll_eq (old : NodeId) (new : Subtree) (bs : List Subtree) :
    graftAll old new bs = bs.map (graft old new) := by
  induction bs with
  | nil => rfl
  | cons b bs ih => rw [graftAll, ih, List.map_cons]

@[simp]
theorem graft_node (old : NodeId) (new : Subtree) (i : NodeId) (k : Kind) (p : Position)
    (cs : List Subtree) : graft old new (node i k p cs)
      = if i = old then new else node i k p (cs.map (graft old new)) := by
  rw [graft, graftAll_eq]

theorem id_graft (old : NodeId) (new b : Subtree) :
    (graft old new b).id = if b.id = old then new.id else b.id := by
  cases b
  rw [graft_node]
  split <;> simp_all

theorem graft_eq_self {old : NodeId} {new b : Subtree} (h : old ∉ b.ids) :
    graft old new b = b := by
  induction b with
  | node i k p cs ih =>
    rw [ids_node, List.mem_cons, not_or] at h
    rw [graft_node, if_neg (fun e => h.1 e.symm)]
    congr 1
    calc cs.map (graft old new)
        = cs.map fun c => c := List.map_congr_left fun c hc =>
          ih c hc fun hm => h.2 (List.mem_flatMap.mpr ⟨c, hc, hm⟩)
      _ = cs := List.map_id' cs

/-- The ids of a graft are old ones, or those of the new subtree where the node occurs. -/
theorem mem_ids_graft {old i : NodeId} {new b : Subtree} (h : i ∈ (graft old new b).ids) :
    i ∈ new.ids ∧ old ∈ b.ids ∨ i ∈ b.ids := by
  induction b with
  | node j k p cs ih =>
    rw [graft_node] at h
    split at h
    · next hj => exact .inl ⟨h, by simp [hj]⟩
    · rw [ids_node, List.mem_cons, List.flatMap_map, List.mem_flatMap] at h
      rcases h with rfl | ⟨c, hc, hi⟩
      · exact .inr (by simp)
      · rcases ih c hc hi with ⟨hi, ho⟩ | hi
        · exact .inl ⟨hi, mem_ids_of_child hc ho⟩
        · exact .inr (mem_ids_of_child hc hi)

theorem nodup_graft {old : NodeId} {new b : Subtree} (hb : b.ids.Nodup) (hn : new.ids.Nodup)
    (hd : ∀ i ∈ new.ids, i ∉ b.ids) : (graft old new b).ids.Nodup := by
  induction b with
  | node j k p cs ih =>
    rw [graft_node]
    split
    · exact hn
    · rw [ids_node, List.nodup_cons] at hb
      have hd' : ∀ c ∈ cs, ∀ i ∈ new.ids, i ∉ c.ids := fun c hc i hi hm =>
        hd i hi (mem_ids_of_child hc hm)
      rw [ids_node, List.nodup_cons, List.nodup_flatMap, List.pairwise_map]
      refine ⟨fun hj => ?_, ?_, ?_⟩
      · obtain ⟨c', hc', hi⟩ := List.mem_flatMap.mp hj
        obtain ⟨c, hc, rfl⟩ := List.mem_map.mp hc'
        rcases mem_ids_graft hi with ⟨hi, -⟩ | hi
        · exact hd j hi (by simp)
        · exact hb.1 (List.mem_flatMap.mpr ⟨c, hc, hi⟩)
      · intro c' hc'
        obtain ⟨c, hc, rfl⟩ := List.mem_map.mp hc'
        exact ih c hc ((List.nodup_flatMap.mp hb.2).1 c hc) (hd' c hc)
      · refine (List.nodup_flatMap.mp hb.2).2.imp_of_mem fun {a c} ha hc hac i hia hic => ?_
        rcases mem_ids_graft hia with ⟨hn₁, ho₁⟩ | hia <;>
          rcases mem_ids_graft hic with ⟨hn₂, ho₂⟩ | hic
        · exact hac ho₁ ho₂
        · exact hd' c hc i hn₁ hic
        · exact hd' a ha i hn₂ hia
        · exact hac hia hic

end Subtree

/-! ### Subtrees of a tree -/

/-- The nodes of a subtree stand in the tree with exactly these links, the topmost below `parent`.
-/
inductive Tree.Holds (t : Tree) : Option NodeId → Subtree → Prop where
  | node {parent : Option NodeId} {id : NodeId} {kind : Kind} {position : Position}
      {children : List Subtree}
      (here : t.nodes[id]? = some ⟨kind, position, parent, children.map Subtree.id⟩)
      (below : ∀ c ∈ children, t.Holds (some id) c) :
      t.Holds parent (.node id kind position children)

namespace Tree.Holds

open Subtree

variable {t t' : Tree} {parent : Option NodeId} {b : Subtree}

theorem here {i : NodeId} {k : Kind} {p : Position} {cs : List Subtree}
    (h : t.Holds parent (.node i k p cs)) :
    t.nodes[i]? = some ⟨k, p, parent, cs.map Subtree.id⟩ := by
  cases h; assumption

theorem child {i : NodeId} {k : Kind} {p : Position} {cs : List Subtree}
    (h : t.Holds parent (.node i k p cs)) : ∀ c ∈ cs, t.Holds (some i) c := by
  cases h; assumption

/-- **A subtree depends on its own nodes only.** -/
theorem congr (h : t.Holds parent b) (hn : ∀ i ∈ b.ids, t'.nodes[i]? = t.nodes[i]?) :
    t'.Holds parent b := by
  induction b generalizing parent with
  | node i k p cs ih =>
    refine .node ?_ fun c hc => ?_
    · rw [hn i (by simp), h.here]
    · exact ih c hc (h.child c hc) fun j hj => hn j (mem_ids_of_child hc hj)

/-- A subtree without repeated ids below another node: only the parent link at its top changes. -/
theorem reparent {above : Option NodeId} (h : t.Holds parent b) (hb : b.ids.Nodup)
    (htop : t'.nodes[b.id]? = t.nodes[b.id]?.map fun n : Node => { n with parent := above })
    (hn : ∀ i ∈ b.ids, i ≠ b.id → t'.nodes[i]? = t.nodes[i]?) : t'.Holds above b := by
  obtain ⟨i, k, p, cs⟩ := b
  refine .node ?_ fun c hc => (h.child c hc).congr fun j hj => ?_
  · rw [id_node] at htop
    rw [htop, h.here]
    rfl
  · refine hn j (mem_ids_of_child hc hj) fun e => not_mem_child hb hc ?_
    rw [id_node] at e
    exact e ▸ hj

theorem lt_size (h : t.Holds parent b) {i : NodeId} (hi : i ∈ b.ids) : i < t.size := by
  induction b generalizing parent with
  | node j k p cs ih =>
    rw [ids_node, List.mem_cons, List.mem_flatMap] at hi
    rcases hi with rfl | ⟨c, hc, hi⟩
    · exact (Array.getElem?_eq_some_iff.mp h.here).1
    · exact ih c hc (h.child c hc) hi

theorem length_ids_le (h : t.Holds parent b) (hb : b.ids.Nodup) : b.ids.length ≤ t.size := by
  have hsub : b.ids ⊆ List.range t.size := fun i hi => List.mem_range.mpr (h.lt_size hi)
  simpa using (hb.subperm hsub).length_le

/-- **Following the child links of a tree shows the subtree it holds.** -/
theorem shapeWithin_eq (h : t.Holds parent b) {fuel : Nat} (hf : b.ids.length ≤ fuel) :
    t.shapeWithin fuel b.id = b.toShape := by
  induction b generalizing parent fuel with
  | node i k p cs ih =>
    obtain ⟨fuel, rfl⟩ : ∃ n, fuel = n + 1 :=
      ⟨fuel - 1, by have := (Subtree.node i k p cs).length_ids_pos; omega⟩
    rw [Tree.shapeWithin, id_node, h.here, toShape_node]
    simp only [List.map_map]
    congr 1
    refine List.map_congr_left fun c hc => funext fun _ => ?_
    exact ih c hc (h.child c hc) (by have := length_ids_child (i := i) (k := k) (p := p) hc; omega)

theorem shape_eq (h : t.Holds parent b) (hb : b.ids.Nodup) : t.shape b.id = b.toShape :=
  h.shapeWithin_eq (by have := h.length_ids_le hb; unfold Tree.stepLimit; omega)

theorem descendants_eq (h : t.Holds parent b) (hb : b.ids.Nodup) :
    t.descendants b.id = .ok b.ids := by
  rw [Tree.descendants, h.shape_eq hb, ids_toShape]

theorem exists_subtree (h : t.Holds parent b) {i : NodeId} (hi : i ∈ b.ids) :
    ∃ above c, t.Holds above c ∧ c.id = i ∧ c.ids.Sublist b.ids := by
  induction b generalizing parent with
  | node j k p cs ih =>
    rw [ids_node, List.mem_cons, List.mem_flatMap] at hi
    rcases hi with rfl | ⟨c, hc, hi⟩
    · exact ⟨parent, _, h, rfl, List.Sublist.refl _⟩
    · obtain ⟨above, d, hd, hid, hsub⟩ := ih c hc (h.child c hc) hi
      refine ⟨above, d, hd, hid, hsub.trans ?_⟩
      rw [ids_node]
      exact (sublist_flatMap_ids hc).trans (List.sublist_cons_self ..)

theorem exists_parent (h : t.Holds parent b) {i : NodeId} (hi : i ∈ b.ids) (hne : i ≠ b.id) :
    ∃ above j k p cs c, t.Holds above (.node j k p cs) ∧
      (Subtree.node j k p cs).ids.Sublist b.ids ∧ c ∈ cs ∧ c.id = i := by
  induction b generalizing parent with
  | node j k p cs ih =>
    rw [ids_node, List.mem_cons, List.mem_flatMap] at hi
    rcases hi with rfl | ⟨c, hc, hi⟩
    · exact absurd rfl hne
    · by_cases hci : i = c.id
      · exact ⟨parent, j, k, p, cs, c, h, List.Sublist.refl _, hc, hci.symm⟩
      · obtain ⟨above, j', k', p', cs', d, hd, hsub, hdc, hid⟩ := ih c hc (h.child c hc) hi hci
        refine ⟨above, j', k', p', cs', d, hd, hsub.trans ?_, hdc, hid⟩
        rw [ids_node]
        exact (sublist_flatMap_ids hc).trans (List.sublist_cons_self ..)

/-- The children of a node of a held subtree belong to the subtree and have the node as parent. -/
theorem child_of_mem (h : t.Holds parent b) {i j : NodeId} (hi : i ∈ b.ids) {n : Node}
    (hn : t.nodes[i]? = some n) (hj : j ∈ n.children) :
    j ∈ b.ids ∧ ∃ m, t.nodes[j]? = some m ∧ m.parent = some i := by
  obtain ⟨above, ⟨i', k, p, cs⟩, hc, rfl, hsub⟩ := h.exists_subtree hi
  rw [id_node, hc.here] at hn
  cases hn
  obtain ⟨⟨j', k', p', ds⟩, hd, rfl⟩ := List.mem_map.mp hj
  have hdh := (hc.child _ hd).here
  exact ⟨hsub.subset (mem_ids_of_child hd (id_mem_ids _)), _, hdh, rfl⟩

end Tree.Holds

end Classlet
