import Classlet.Proofs.Syntax.Forest

/-!
# Copying a subtree

A copy takes the next free ids in pre-order.  It is made from the top: first the topmost node, then
each child with all that is below it, which is put below its parent once it is complete.

* `Tree.Gains t t' b`: from `t` to `t'` the detached subtree `b` was added at the end.
* `Tree.copyWithin_eq`, `Tree.deepCopy_eq`: a copy is a subtree added at the end, with the kinds and
  positions of the original in the same shape.
* `WellLinked.gains`: a tree stays well linked when a detached subtree is added.
-/

namespace Classlet

open Subtree

namespace Tree

/-- From `t` to `t'` the detached subtree `b` was added, with the next free ids in pre-order, and
all else stayed. -/
structure Gains (t t' : Tree) (b : Subtree) : Prop where
  root_eq : t'.root = t.root
  ids_eq : b.ids = List.range' t.size (t'.size - t.size)
  nodes_eq : ∀ i < t.size, t'.nodes[i]? = t.nodes[i]?
  holds : t'.Holds none b

/-- From `t` to `t'` a copy of `b` was added. -/
def Copies (t t' : Tree) (b : Subtree) : Prop := ∃ c, Gains t t' c ∧ c.outline = b.outline

variable {t t' : Tree} {parent : Option NodeId} {b : Subtree} {bs : List Subtree}

namespace Gains

theorem lt_size (h : Gains t t' b) : t.size < t'.size := by
  have hpos := b.length_ids_pos
  rw [h.ids_eq, List.length_range'] at hpos
  omega

theorem size_eq (h : Gains t t' b) : t'.size = t.size + b.ids.length := by
  have hlt := h.lt_size
  rw [h.ids_eq, List.length_range']
  omega

theorem mem_ids_iff (h : Gains t t' b) {i : NodeId} : i ∈ b.ids ↔ t.size ≤ i ∧ i < t'.size := by
  rw [h.ids_eq, List.mem_range'_1, Nat.add_sub_cancel' (Nat.le_of_lt h.lt_size)]

theorem nodup_ids (h : Gains t t' b) : b.ids.Nodup := h.ids_eq ▸ List.nodup_range'

theorem id_eq (h : Gains t t' b) : b.id = t.size := by
  obtain ⟨i, k, p, cs⟩ := b
  have hsize : t'.size - t.size = t'.size - t.size - 1 + 1 := by
    have hlt := h.lt_size
    omega
  have hids := h.ids_eq
  rw [hsize, List.range'_succ, ids_node] at hids
  exact (List.cons.inj hids).1

theorem parent_eq (h : Gains t t' b) : t'.parent t.size = .ok none := by
  rw [← h.id_eq]
  obtain ⟨i, k, p, cs⟩ := b
  exact parent_eq_ok h.holds.here

end Gains

theorem Gains.link {i : NodeId} (h : Gains t t' b) (hi : i < t.size) :
    Appends i t (t'.link i b.id) [b] := by
  have hlt := h.lt_size
  have hid := h.id_eq
  refine ⟨h.root_eq, by simpa using hlt.le, ?_, fun j hj => ?_, fun c hc => ?_⟩
  · rw [List.flatMap_cons, List.flatMap_nil, List.append_nil, size_link, h.ids_eq]
  · have hjb : j ≠ b.id := hid ▸ Nat.ne_of_lt hj
    rw [nodes_link, h.nodes_eq j hj]
    simp [hjb]
  · rw [List.mem_singleton] at hc
    subst hc
    have hne : ∀ j ∈ c.ids, j ≠ i := fun j hj e =>
      Nat.not_le.mpr hi (e ▸ (h.mem_ids_iff.mp hj).1)
    refine h.holds.reparent h.nodup_ids ?_ fun j hj hjc => ?_
    · rw [nodes_link]
      simp [hne _ c.id_mem_ids]
    · rw [nodes_link]
      simp [hne j hj, hjc]

theorem Appends.gains {k : Kind} {p : Position} (h : Appends t.size (t.add k p).2 t' bs) :
    Gains t t' (.node t.size k p bs) := by
  have hle := h.size_le
  rw [size_add] at hle
  refine ⟨h.root_eq, ?_, fun i hi => ?_, .node ?_ h.holds⟩
  · have hsize : t'.size - t.size = t'.size - (t.size + 1) + 1 := by omega
    rw [ids_node, h.ids_eq, size_add, hsize, List.range'_succ]
  · rw [h.nodes_eq i (by simp; omega), nodes_add_of_lt t k p hi]
    simp [Nat.ne_of_lt hi]
  · rw [h.nodes_eq t.size (by simp), getElem?_nodes_add]
    simp

/-! ### The copy -/

/-- Copying the children into the copy of their parent, given that each alone can be copied. -/
theorem copyChildren_eq {fuel : Nat} {copy : NodeId} (hcopy : copy < t.size)
    (hbs : ∀ b ∈ bs, copy ∉ b.ids ∧ ∃ above, t.Holds above b)
    (h : ∀ b ∈ bs, ∀ (t : Tree) (above : Option NodeId), t.Holds above b →
      ∃ t', t.copyWithin fuel b.id = .ok (t.size, t') ∧ Copies t t' b) :
    ∃ t' cs, (bs.map Subtree.id).foldlM (fun t child => do
        let (childCopy, t) ← copyWithin fuel t child
        t.appendChild copy childCopy) t = .ok t' ∧
      Appends copy t t' cs ∧ cs.map outline = bs.map outline := by
  induction bs generalizing t with
  | nil => exact ⟨t, [], rfl, .refl copy t, rfl⟩
  | cons b bs ih =>
    obtain ⟨-, above, hb⟩ := hbs b List.mem_cons_self
    obtain ⟨t₁, ht₁, c, hc, hcb⟩ := h b List.mem_cons_self t above hb
    have happ : Appends copy t (t₁.link copy c.id) [c] := hc.link hcopy
    -- the copy of the first child leaves the others as they are
    have hrest : ∀ d ∈ bs, copy ∉ d.ids ∧ ∃ above, (t₁.link copy c.id).Holds above d := by
      intro d hd
      obtain ⟨hnot, above, hd⟩ := hbs d (List.mem_cons_of_mem _ hd)
      refine ⟨hnot, above, hd.congr fun i hi => ?_⟩
      have hne : i ≠ copy := fun e => hnot (e ▸ hi)
      rw [happ.nodes_eq i (hd.lt_size hi)]
      simp [hne]
    obtain ⟨t₂, cs, ht₂, hcs, hout⟩ := ih (Nat.lt_of_lt_of_le hcopy happ.size_le) hrest
      fun d hd => h d (List.mem_cons_of_mem _ hd)
    refine ⟨t₂, c :: cs, ?_, happ.trans hcopy hcs, by rw [List.map_cons, List.map_cons, hcb, hout]⟩
    have hcopy₁ : copy < t₁.size := hcopy.trans hc.lt_size
    have hlink : t₁.appendChild copy t.size = .ok (t₁.link copy c.id) :=
      hc.id_eq ▸ appendChild_eq hcopy₁ (hc.id_eq ▸ hc.lt_size)
    rw [List.map_cons, List.foldlM_cons, ht₁]
    simp only [bind, Except.bind] at ht₂ ⊢
    rw [hlink]
    exact ht₂

/-- **Copying a subtree** adds a copy at the end. -/
theorem copyWithin_eq {fuel : Nat} (h : t.Holds parent b) (hf : b.ids.length ≤ fuel) :
    ∃ t', t.copyWithin fuel b.id = .ok (t.size, t') ∧ Copies t t' b := by
  induction b generalizing t parent fuel with
  | node i k p cs ih =>
    obtain ⟨fuel, rfl⟩ : ∃ n, fuel = n + 1 :=
      ⟨fuel - 1, by have := (Subtree.node i k p cs).length_ids_pos; omega⟩
    have hfuel : ∀ c ∈ cs, c.ids.length ≤ fuel := fun c hc => by
      have := length_ids_child (i := i) (k := k) (p := p) hc
      omega
    have hcs : ∀ c ∈ cs, t.size ∉ c.ids ∧ ∃ above, (t.add k p).2.Holds above c := fun c hc =>
      ⟨fun hm => Nat.lt_irrefl _ ((h.child c hc).lt_size hm), some i, (h.child c hc).add k p⟩
    obtain ⟨t', ds, ht', hds, hout⟩ := copyChildren_eq (t := (t.add k p).2) (by simp) hcs
      fun c hc t above hc' => ih c hc hc' (hfuel c hc)
    refine ⟨t', ?_, .node t.size k p ds, hds.gains, by rw [outline_node, outline_node, hout]⟩
    rw [copyWithin, id_node, node_eq_ok h.here]
    simp only [bind, Except.bind] at ht' ⊢
    rw [show (t.add k p).1 = t.size from rfl, ht']
    rfl

theorem deepCopy_eq (h : t.Holds parent b) (hb : b.ids.Nodup) :
    ∃ t', t.deepCopy b.id = .ok (t.size, t') ∧ Copies t t' b :=
  copyWithin_eq h (by have := h.length_ids_le hb; unfold stepLimit; omega)

/-- **A tree stays well linked** when a detached subtree is added. -/
theorem WellLinked.gains (h : t.WellLinked) (hg : Gains t t' b) : t'.WellLinked := by
  have hkeep : ∀ {above c}, t.Holds above c → t'.Holds above c := fun hc =>
    hc.congr fun i hi => hg.nodes_eq i (hc.lt_size hi)
  refine wellLinked_of_holds ?_ fun i hi => ?_
  · obtain ⟨n, hn, hp⟩ := h.root
    exact ⟨n, by rw [hg.root_eq, hg.nodes_eq _ (Array.getElem?_eq_some_iff.mp hn).1, hn], hp⟩
  · by_cases hit : i < t.size
    · obtain ⟨c, hc, hic⟩ := h.exists_top hit
      exact ⟨c, hkeep hc, h.nodup_ids hc, hic⟩
    · exact ⟨b, hg.holds, hg.nodup_ids, hg.mem_ids_iff.mpr ⟨Nat.not_lt.mp hit, hi⟩⟩

end Tree

end Classlet
