import Classlet.Proofs.Syntax.Subtree

/-!
# Adding and replacing nodes

What the two edits of a tree do to the subtrees it holds.

* `Holds.add`: adding a detached node changes no subtree.
* `Holds.replace_inside`: replacing a node below the topmost one of a held subtree by a detached
  leaf succeeds and replaces it in the subtree; no node outside the subtree changes.
* `Tree.Grows`: along all edits, nodes keep their kind, position and number of children.
-/

namespace Classlet

open Subtree

namespace Tree

theorem node_eq_ok {t : Tree} {i : NodeId} {n : Node} (h : t.nodes[i]? = some n) :
    t.node i = .ok n := by
  simp [node, h]

theorem kind_eq_ok {t : Tree} {i : NodeId} {n : Node} (h : t.nodes[i]? = some n) :
    t.kind i = .ok n.kind := by
  rw [kind, node_eq_ok h]
  rfl

theorem parent_eq_ok {t : Tree} {i : NodeId} {n : Node} (h : t.nodes[i]? = some n) :
    t.parent i = .ok n.parent := by
  rw [parent, node_eq_ok h]
  rfl

theorem children_eq_ok {t : Tree} {i : NodeId} {n : Node} (h : t.nodes[i]? = some n) :
    t.children i = .ok n.children := by
  rw [children, node_eq_ok h]
  rfl

theorem node_ok_inv {t : Tree} {i : NodeId} {n : Node} (h : t.node i = .ok n) :
    t.nodes[i]? = some n := by
  unfold node at h
  split at h
  · cases h; assumption
  · cases h

theorem Holds.kind_eq {t : Tree} {parent : Option NodeId} {b : Subtree} (h : t.Holds parent b) :
    t.kind b.id = .ok b.kind := by
  obtain ⟨i, k, p, cs⟩ := b
  exact kind_eq_ok h.here

theorem Holds.child_eq {t : Tree} {parent : Option NodeId} {i : NodeId} {k : Kind} {p : Position}
    {cs : List Subtree} (h : t.Holds parent (.node i k p cs)) {j : Nat} {c : Subtree}
    (hc : cs[j]? = some c) : t.child i j = .ok c.id := by
  have hj : (cs.map Subtree.id)[j]? = some c.id := by rw [List.getElem?_map, hc, Option.map_some]
  rw [Tree.child, node_eq_ok h.here]
  simp only [bind, Except.bind, hj]
  rfl

/-! ### Growing trees -/

/-- Later edits leave the nodes of `t` with their kinds, positions and numbers of children. -/
structure Grows (t t' : Tree) : Prop where
  root_eq : t'.root = t.root
  size_le : t.size ≤ t'.size
  keeps : ∀ {i : NodeId} {n : Node}, t.nodes[i]? = some n →
    ∃ n', t'.nodes[i]? = some n' ∧ n'.kind = n.kind ∧
    n'.position = n.position ∧ n'.children.length = n.children.length

theorem Grows.refl (t : Tree) : Grows t t := ⟨rfl, Nat.le_refl _, fun h => ⟨_, h, rfl, rfl, rfl⟩⟩

theorem Grows.trans {t₁ t₂ t₃ : Tree} (h₁ : Grows t₁ t₂) (h₂ : Grows t₂ t₃) : Grows t₁ t₃ := by
  refine ⟨h₂.root_eq.trans h₁.root_eq, Nat.le_trans h₁.size_le h₂.size_le, fun h => ?_⟩
  obtain ⟨n₂, e₂, hk₂, hp₂, hc₂⟩ := h₁.keeps h
  obtain ⟨n₃, e₃, hk₃, hp₃, hc₃⟩ := h₂.keeps e₂
  exact ⟨n₃, e₃, hk₃.trans hk₂, hp₃.trans hp₂, hc₃.trans hc₂⟩

/-! ### Adding -/

theorem nodes_add_of_lt (t : Tree) (k : Kind) (p : Position) {i : NodeId} (h : i < t.size) :
    (t.add k p).2.nodes[i]? = t.nodes[i]? := by
  rw [getElem?_nodes_add, if_neg (Nat.ne_of_lt h)]

theorem grows_add (t : Tree) (k : Kind) (p : Position) : Grows t (t.add k p).2 := by
  refine ⟨rfl, by simp, fun {i n} h => ⟨n, ?_, rfl, rfl, rfl⟩⟩
  rw [nodes_add_of_lt t k p (Array.getElem?_eq_some_iff.mp h).1, h]

theorem Holds.add {t : Tree} {parent : Option NodeId} {b : Subtree} (h : t.Holds parent b)
    (k : Kind) (p : Position) : (t.add k p).2.Holds parent b :=
  h.congr fun _ hi => nodes_add_of_lt t k p (h.lt_size hi)

/-! ### Replacing -/

/-- From `t` to `t'` the detached node `new` got into the slot of `old` below `q`, which `old` left,
and all else stayed. -/
structure Splices (t t' : Tree) (old new q : NodeId) (slot : Nat) : Prop where
  root_eq : t'.root = t.root
  size_eq : t'.size = t.size
  detached : ∃ n, t.nodes[new]? = some n ∧ n.parent = none
  below : ∃ n, t.nodes[old]? = some n ∧ n.parent = some q
  slot_eq : ∃ n, t.nodes[q]? = some n ∧ n.children.idxOf? old = some slot
  nodes_eq : ∀ i : NodeId, t'.nodes[i]? = t.nodes[i]?.map fun x : Node => {
    x with
    parent := if i = old then none else if i = new then some q else x.parent
    children := if i = q then x.children.set slot new else x.children }

theorem exists_splices {t : Tree} {old new q slot : NodeId} {l m n : Node}
    (hl : t.nodes[new]? = some l) (hlp : l.parent = none) (hm : t.nodes[old]? = some m)
    (hmp : m.parent = some q) (hn : t.nodes[q]? = some n) (hs : n.children.idxOf? old = some slot) :
    ∃ t', t.replace old new = .ok t' ∧ t.Splices t' old new q slot := by
  refine ⟨((t.update q fun n => { n with children := n.children.set slot new }).update new fun n =>
    { n with parent := some q }).update old fun n => { n with parent := none }, ?_, rfl, by simp,
    ⟨l, hl, hlp⟩, ⟨m, hm, hmp⟩, ⟨n, hn, hs⟩, fun i => ?_⟩
  · simp only [replace, parent, children, node_eq_ok hl, node_eq_ok hm, node_eq_ok hn, hlp, hmp, hs,
      bind, Except.bind, pure, Except.pure, Option.isSome_none, Bool.false_eq_true, if_false]
  · simp only [getElem?_nodes_update]
    rcases t.nodes[i]? with _ | x
    · simp
    · by_cases h₁ : i = old <;> by_cases h₂ : i = new <;> by_cases h₃ : i = q <;>
        simp_all [eq_comm]

theorem Splices.grows {t t' : Tree} {old new q slot : NodeId} (h : t.Splices t' old new q slot) :
    Grows t t' := by
  refine ⟨h.root_eq, Nat.le_of_eq h.size_eq.symm, fun {i n} hi => ?_⟩
  rw [h.nodes_eq, hi]
  refine ⟨_, rfl, rfl, rfl, ?_⟩
  show (if i = q then n.children.set slot new else n.children).length = _
  split <;> simp

/-- A replacement that succeeds puts a detached node into a slot, or makes it the root. -/
theorem replace_ok_inv {t t' : Tree} {old new : NodeId} (h : t.replace old new = .ok t') :
    (∃ q slot, t.Splices t' old new q slot) ∨
      old = t.root ∧ t' = { t with root := new } ∧
        ∃ n, t.nodes[new]? = some n ∧ n.parent = none := by
  simp only [replace, parent, children, bind, Except.bind, pure, Except.pure] at h
  rcases hl : t.node new with _ | l <;> simp only [hl] at h
  · cases h
  rcases hlp : l.parent with _ | _ <;> simp only [hlp] at h
  · rcases hm : t.node old with _ | m <;> simp only [hm] at h
    · cases h
    rcases hmp : m.parent with _ | q <;> simp only [hmp] at h
    · split at h
      · cases h
      · split at h
        · cases h
          exact .inr ⟨‹_›, rfl, l, node_ok_inv hl, hlp⟩
        · cases h
    · rcases hn : t.node q with _ | n <;> simp only [hn] at h
      · cases h
      rcases hs : n.children.idxOf? old with _ | slot <;> simp only [hs] at h
      · cases h
      obtain ⟨t₁, ht₁, hsplices⟩ :=
        exists_splices (node_ok_inv hl) hlp (node_ok_inv hm) hmp (node_ok_inv hn) hs
      simp only [replace, parent, children, hl, hm, hn, hlp, hmp, hs, bind, Except.bind, pure,
        Except.pure] at ht₁
      cases h.symm.trans ht₁
      exact .inl ⟨q, slot, hsplices⟩
  · simp [fail] at h

/-- A slot of a list without repetition is the place of the one it holds. -/
theorem set_idxOf?_eq_map {old new : NodeId} : ∀ {l : List NodeId} {slot : Nat}, l.Nodup →
    l.idxOf? old = some slot → l.set slot new = l.map fun c => if c = old then new else c
  | c :: l, slot, hd, hs => by
    rw [List.nodup_cons] at hd
    rw [List.idxOf?_cons] at hs
    by_cases hc : c = old
    · subst hc
      simp only [beq_self_eq_true, if_true, Option.some.injEq] at hs
      subst hs
      simp only [List.set_cons_zero, List.map_cons, if_true]
      congr 1
      calc l = l.map fun c => c := (List.map_id' l).symm
        _ = l.map fun d => if d = c then new else d := List.map_congr_left fun d hm => by
          rw [if_neg fun e : d = c => hd.1 (e ▸ hm)]
    · simp only [beq_iff_eq, hc, if_false, Option.map_eq_some_iff] at hs
      obtain ⟨slot, hs, rfl⟩ := hs
      simp only [List.set_cons_succ, List.map_cons, hc, if_false]
      rw [set_idxOf?_eq_map hd.2 hs]

theorem map_subst_eq_self {old new : NodeId} {l : List NodeId} (h : old ∉ l) :
    (l.map fun c => if c = old then new else c) = l := by
  calc (l.map fun c => if c = old then new else c)
      = l.map fun c => c := List.map_congr_left fun c hc => by
        rw [if_neg fun e : c = old => h (e ▸ hc)]
    _ = l := List.map_id' l

/-- The graft is held where every node of the subtree has the topmost node of `new` among its
children in the place of `old`, and `new` is held below the parent of `old`. -/
theorem Holds.graft {t t' : Tree} {parent : Option NodeId} {b new : Subtree} {old q : NodeId}
    (h : t.Holds parent b) (hnew : t'.Holds (some q) new)
    (hq : ∀ m, t.nodes[old]? = some m → m.parent = some q) (hne : b.id ≠ old)
    (hn : ∀ i ∈ b.ids, i ≠ old → ∀ n, t.nodes[i]? = some n → t'.nodes[i]? = some
      { n with children := n.children.map fun c => if c = old then new.id else c }) :
    t'.Holds parent (Subtree.graft old new b) := by
  induction b generalizing parent with
  | node i k p cs ih =>
    rw [graft_node, if_neg (show i ≠ old from hne)]
    refine .node ?_ fun c' hc' => ?_
    · rw [hn i (by simp) hne _ h.here]
      simp only [List.map_map]
      congr 2
      refine List.map_congr_left fun c _ => ?_
      rw [Function.comp_apply, Function.comp_apply, id_graft]
    · obtain ⟨c, hc, rfl⟩ := List.mem_map.mp hc'
      by_cases hco : c.id = old
      · obtain ⟨j, k₁, p₁, ds⟩ := c
        rw [id_node] at hco
        subst hco
        have hpar := hq _ (h.child _ hc).here
        simp only at hpar
        rw [graft_node, if_pos rfl, hpar]
        exact hnew
      · exact ih c hc (h.child c hc) hco fun j hj => hn j (mem_ids_of_child hc hj)

/-- **Replacing a node inside a held subtree by a detached leaf.** -/
theorem Holds.replace_inside {t : Tree} {parent : Option NodeId} {b : Subtree} {old new : NodeId}
    {k : Kind} {p : Position} (h : t.Holds parent b) (hb : b.ids.Nodup) (hold : old ∈ b.ids)
    (hne : old ≠ b.id) (hnew : t.nodes[new]? = some ⟨k, p, none, []⟩) (hfresh : new ∉ b.ids) :
    ∃ t', t.replace old new = .ok t' ∧ t'.Holds parent (Subtree.graft old (.node new k p []) b) ∧
      Grows t t' ∧ t'.size = t.size ∧
      ∀ i, i ∉ b.ids → i ≠ new → t'.nodes[i]? = t.nodes[i]? := by
  obtain ⟨above, q, kq, pq, cs, c, hq, hsub, hc, hco⟩ := h.exists_parent hold hne
  have hqb : q ∈ b.ids := hsub.subset (by simp)
  have hnd : (cs.map Subtree.id).Nodup := by
    have := hsub.nodup hb
    rw [ids_node, List.nodup_cons] at this
    exact nodup_map_id this.2
  have hoc : old ∈ cs.map Subtree.id := List.mem_map.mpr ⟨c, hc, hco⟩
  obtain ⟨slot, hslot⟩ : ∃ s, (cs.map Subtree.id).idxOf? old = some s :=
    Option.isSome_iff_exists.mp (by rw [List.isSome_idxOf?]; exact hoc)
  obtain ⟨-, m, hm, hmq⟩ := h.child_of_mem hqb hq.here hoc
  obtain ⟨t', ht', hsplices⟩ := exists_splices hnew rfl hm hmq hq.here hslot
  have hnodes := hsplices.nodes_eq
  have hnq : new ≠ q := fun e => hfresh (e ▸ hqb)
  have hno : new ≠ old := fun e => hfresh (e ▸ hold)
  refine ⟨t', ht', ?_, hsplices.grows, hsplices.size_eq, fun i hi hin => ?_⟩
  · refine h.graft (q := q) (.node ?_ (by simp)) (fun m' hm' => ?_) hne.symm
      fun i hi hio n hni => ?_
    · rw [hnodes, hnew]; simp [hno, hnq]
    · rw [hm] at hm'; cases hm'; exact hmq
    · have hin : i ≠ new := fun e => hfresh (e ▸ hi)
      rw [hnodes, hni]
      by_cases hiq : i = q
      · subst hiq
        rw [hq.here] at hni
        cases hni
        simp [hio, hin, set_idxOf?_eq_map hnd hslot]
      · have hnot : old ∉ n.children := fun hmem => by
          obtain ⟨-, m', hm', hmi⟩ := h.child_of_mem hi hni hmem
          rw [hm] at hm'; cases hm'
          rw [hmq] at hmi; cases hmi
          exact hiq rfl
        simp [hio, hin, hiq, map_subst_eq_self hnot]
  · have hio : i ≠ old := fun e => hi (e ▸ hold)
    have hiq : i ≠ q := fun e => hi (e ▸ hqb)
    rw [hnodes]
    cases t.nodes[i]? <;> simp [hio, hin, hiq]

end Tree

end Classlet
