import Classlet.Proofs.Syntax.Forest

/-!
# Putting a subtree in the place of another

In a well linked tree a replacement exchanges one block of a pre-order for another.

* `Tree.Contains`: a node is in the subtree at another, as the pre-order shows it.
* `Within.ids_graft`: a graft exchanges a block of the ids.
* `Tree.Replaced t t' old new`: what a replacement leads to, at every node of the tree.
* `WellLinked.replaced`: every replacement that succeeds leads to that, if `old` is not below `new`.
* `WellLinked.replace_eq_ok`, `replace_eq_error`: which replacements succeed.
-/

namespace Classlet

open Subtree Relation

/-- A graft exchanges the block of ids of the subtree it replaces. -/
theorem Subtree.Within.ids_graft {b d : Subtree} (hd : d.Within b) (hb : b.ids.Nodup) :
    ∃ before after, b.ids = before ++ d.ids ++ after ∧
      ∀ new : Subtree, (graft d.id new b).ids = before ++ new.ids ++ after := by
  induction hd with
  | refl =>
    obtain ⟨i, k, p, cs⟩ := d
    exact ⟨[], [], by simp, fun new => by simp⟩
  | @child c i k p cs hc hd ih =>
    obtain ⟨before, after, hids, hgraft⟩ := ih (nodup_child hb hc)
    obtain ⟨left, right, rfl⟩ := List.append_of_mem hc
    refine ⟨i :: (left.flatMap ids ++ before), after ++ right.flatMap ids, ?_, fun new => ?_⟩
    · simp [hids]
    · rw [graft_in_child hb (hd.ids_subset d.id_mem_ids)]
      simp [hgraft]

namespace Tree

/-- The pre-order at `a` has `c`. -/
def Contains (t : Tree) (a c : NodeId) : Prop := ∃ ids, t.descendants a = .ok ids ∧ c ∈ ids

instance (t : Tree) (a c : NodeId) : Decidable (t.Contains a c) :=
  match h : t.descendants a with
  | .ok ids => decidable_of_iff (c ∈ ids) <| by simp [Contains, h]
  | .error e => isFalse <| by simp [Contains, h]

/-- From `t` to `t'` the subtree at `new` came into the place of the one at `old`, and all else
stayed. -/
structure Replaced (t t' : Tree) (old new : NodeId) : Prop where
  root_eq : t'.root = if old = t.root then new else t.root
  /-- The old node has no parent, is nobody's child and is not the root. -/
  detached : t'.parent old = .ok none ∧ (∀ p, ¬ t'.Lists p old) ∧ old ≠ t'.root
  /-- Wherever the old node was inside, its block of the pre-order is exchanged for the new one. -/
  spliced : ∀ a, t.Contains a old → ∃ before olds news after,
    t.descendants old = .ok olds ∧ t.descendants new = .ok news ∧
    t.descendants a = .ok (before ++ olds ++ after) ∧
    t'.descendants (if a = old then new else a) = .ok (before ++ news ++ after)
  /-- The subtrees that do not have the old node inside are what they were, also its own. -/
  kept : ∀ a < t.size, ¬ t.Contains a old ∨ a = old → t'.shape a = t.shape a
  labels : ∀ i, t'.kind i = t.kind i ∧ t'.position i = t.position i

variable {t t' : Tree} {old new q a c i p slot : NodeId} {n : Node} {above : Option NodeId}
  {b : Subtree}

theorem Splices.lists (h : t.Splices t' old new q slot) : t.Lists q old := by
  obtain ⟨m, hm, hslot⟩ := h.slot_eq
  obtain ⟨hlt, hold, -⟩ := List.idxOf?_eq_some_iff.mp hslot
  exact ⟨m, hm, hold ▸ List.getElem_mem hlt⟩

namespace WellLinked

theorem contains_iff (h : t.WellLinked) :
    t.Contains a c ↔ ∃ above b, t.Holds above b ∧ b.id = a ∧ c ∈ b.ids := by
  constructor
  · rintro ⟨ids, hids, hc⟩
    rcases hn : t.nodes[a]? with _ | n
    · simp [descendants, shape, stepLimit, shapeWithin, hn, Shape.ids, breakOff] at hids
    · obtain ⟨b, hb, rfl⟩ := h.exists_holds hn
      rw [h.descendants_eq hb] at hids
      cases hids
      exact ⟨_, b, hb, rfl, hc⟩
  · rintro ⟨above, b, hb, rfl, hc⟩
    exact ⟨_, h.descendants_eq hb, hc⟩

/-- The subtree at a node has what paths from there lead to. -/
theorem contains_iff_path (h : t.WellLinked) (hn : t.nodes[a]? = some n) :
    t.Contains a c ↔ ReflTransGen t.Lists a c := by
  constructor
  · intro hc
    obtain ⟨above, b, hb, rfl, hcb⟩ := h.contains_iff.mp hc
    exact hb.mem_ids_iff.mp hcb
  · intro hp
    obtain ⟨b, hb, rfl⟩ := h.exists_holds hn
    exact h.contains_iff.mpr ⟨_, b, hb, rfl, hb.mem_ids_iff.mpr hp⟩

theorem eq_id_of_parentless (h : t.WellLinked) (hb : t.Holds above b) (hi : i ∈ b.ids)
    (hn : t.nodes[i]? = some n) (hp : n.parent = none) : i = b.id := by
  rcases ReflTransGen.cases_tail (hb.mem_ids_iff.mp hi) with he | ⟨p, -, hpi⟩
  · exact he
  · exact absurd hpi (h.not_lists hn hp)

/-! ### The subtrees around a slot -/

/-- **Subtrees without the slot** stay what they are; below another node are the old subtree and
the new one. -/
theorem holds_of_splices (h : t.WellLinked) (hs : t.Splices t' old new q slot)
    (hb : t.Holds above b) (hold : old ∉ b.ids ∨ b.id = old) :
    t'.Holds (if b.id = old then none else if b.id = new then some q else above) b := by
  obtain ⟨l, hl, hlp⟩ := hs.detached
  -- with the slot inside, the old node would be inside too, and not as the topmost
  have hq : ∀ i ∈ b.ids, i ≠ q := fun i hi e => by
    have hpath : TransGen t.Lists b.id old := .tail' (hb.mem_ids_iff.mp (e ▸ hi)) hs.lists
    rcases hold with hold | hold
    · exact hold (hb.mem_ids_iff.mpr hpath.to_reflTransGen)
    · exact h.acyclic old (hold ▸ hpath)
  refine hb.reparent (h.nodup_ids hb) ?_ fun i hi hib => ?_
  · obtain ⟨j, k, r, cs⟩ := b
    rw [hs.nodes_eq, id_node, hb.here]
    simp [hq j (by simp)]
  · have hio : i ≠ old := fun e => by
      rcases hold with hold | hold
      · exact hold (e ▸ hi)
      · exact hib (e.trans hold.symm)
    have hin : i ≠ new := fun e => hib (h.eq_id_of_parentless hb hi (e ▸ hl) hlp)
    rw [hs.nodes_eq]
    cases t.nodes[i]? <;> simp [hio, hin, hq i hi]

/-- **Subtrees around the slot** get the new subtree. -/
theorem holds_graft_of_splices {N : Subtree} (h : t.WellLinked)
    (hs : t.Splices t' old N.id q slot) (hN : t.Holds none N) (hbelow : old ∉ N.ids)
    (hb : t.Holds above b) (hold : old ∈ b.ids) : ∃ p, t'.Holds p (graft old N b) := by
  obtain ⟨l, hl, hlp⟩ := hs.detached
  obtain ⟨m, hm, hmq⟩ := hs.below
  have hNo : N.id ≠ old := fun e => hbelow (e ▸ N.id_mem_ids)
  have hnew : t'.Holds (some q) N := by
    simpa only [if_neg hNo, if_pos] using h.holds_of_splices hs hN (.inl hbelow)
  by_cases hne : b.id = old
  · obtain ⟨j, k, r, cs⟩ := b
    exact ⟨some q, by rwa [graft_node, if_pos (show j = old from hne)]⟩
  have hnot : N.id ∉ b.ids := fun hmem => by
    have hNb : N.id = b.id := h.eq_id_of_parentless hb hmem hl hlp
    exact hbelow (hN.mem_ids_iff.mpr (hNb ▸ hb.mem_ids_iff.mp hold))
  refine ⟨above, hb.graft hnew (fun m' hm' => by cases hm.symm.trans hm'; exact hmq) hne
    fun i hi hio n hn => ?_⟩
  have hin : i ≠ N.id := fun e => hnot (e ▸ hi)
  rw [hs.nodes_eq, hn]
  by_cases hiq : i = q
  · obtain ⟨k, hk, hslot⟩ := hs.slot_eq
    cases (hiq ▸ hn).symm.trans hk
    simp only [Option.map_some, if_neg hio, if_neg hin, if_pos hiq,
      set_idxOf?_eq_map (h.nodup_children hk) hslot]
  · have hlists : old ∉ n.children := fun hmem => hiq (h.eq_of_lists ⟨n, hn, hmem⟩ hs.lists)
    simp [hio, hin, hiq, map_subst_eq_self hlists]

/-! ### What a replacement leads to -/

/-- Around the slot, the block of the old subtree is exchanged for that of the new one. -/
theorem descendants_of_splices {N : Subtree} (h : t.WellLinked) (h' : t'.WellLinked)
    (hs : t.Splices t' old N.id q slot) (hN : t.Holds none N) (hbelow : old ∉ N.ids)
    (ha : t.Contains a old) : ∃ before olds news after,
      t.descendants old = .ok olds ∧ t.descendants N.id = .ok news ∧
      t.descendants a = .ok (before ++ olds ++ after) ∧
      t'.descendants (if a = old then N.id else a) = .ok (before ++ news ++ after) := by
  obtain ⟨above, b, hb, rfl, hmem⟩ := h.contains_iff.mp ha
  obtain ⟨d, hd, rfl⟩ := exists_within hmem
  obtain ⟨q', hd'⟩ := hb.within hd
  obtain ⟨before, after, hids, hgraft⟩ := hd.ids_graft (h.nodup_ids hb)
  obtain ⟨p, hp⟩ := h.holds_graft_of_splices hs hN hbelow hb hmem
  refine ⟨before, d.ids, N.ids, after, h.descendants_eq hd', h.descendants_eq hN,
    hids ▸ h.descendants_eq hb, ?_⟩
  rw [← id_graft, h'.descendants_eq hp, hgraft]

theorem shape_of_splices (h : t.WellLinked) (hs : t.Splices t' old new q slot) (ha : a < t.size)
    (hkeep : ¬ t.Contains a old ∨ a = old) : t'.shape a = t.shape a := by
  obtain ⟨b, hb, rfl⟩ := h.exists_holds (Array.getElem?_eq_getElem ha)
  have hold : old ∉ b.ids ∨ b.id = old := hkeep.imp_left fun hnot hmem =>
    hnot (h.contains_iff.mpr ⟨_, b, hb, rfl, hmem⟩)
  have hb' := h.holds_of_splices hs hb hold
  rw [hb'.shape_eq (h.nodup_ids hb), hb.shape_eq (h.nodup_ids hb)]

/-- **A replacement below a node** exchanges one block of the pre-order and detaches the old
node. -/
theorem replaced_of_splices (h : t.WellLinked) (hs : t.Splices t' old new q slot)
    (hroot : new ≠ t.root) (hbelow : ¬ t.Contains new old) : t.Replaced t' old new := by
  obtain ⟨l, hl, hlp⟩ := hs.detached
  obtain ⟨m, hm, hmq⟩ := hs.below
  obtain ⟨N, hN, rfl⟩ := h.exists_holds hl
  have hnot : old ∉ N.ids := fun hmem => hbelow (h.contains_iff.mpr ⟨_, N, hN, rfl, hmem⟩)
  have hwell : t'.WellLinked := h.splice hs hroot fun hp => hnot (hN.mem_ids_iff.mpr hp)
  have hne : old ≠ t.root := fun e => by
    obtain ⟨r, hr, hrp⟩ := h.root
    cases hr.symm.trans (e ▸ hm)
    cases hrp.symm.trans hmq
  have hold' : t'.nodes[old]? = some { m with
      parent := none, children := if old = q then m.children.set slot N.id else m.children } := by
    rw [hs.nodes_eq, hm]
    simp
  refine ⟨by rw [hs.root_eq, if_neg hne], ⟨parent_eq_ok hold', fun p => hwell.not_lists hold' rfl,
    by rwa [hs.root_eq]⟩, fun a ha => h.descendants_of_splices hwell hs (hlp ▸ hN) hnot ha,
    fun a ha hkeep => h.shape_of_splices hs ha hkeep, fun i => ?_⟩
  simp only [kind, position, node, hs.nodes_eq i, hs.size_eq]
  rcases t.nodes[i]? with _ | n <;> exact ⟨rfl, rfl⟩

theorem replaced_of_root (h : t.WellLinked) (hn : t.nodes[new]? = some n)
    (hbelow : ¬ t.Contains new t.root) :
    t.Replaced { t with root := new } t.root new := by
  obtain ⟨r, hr, hrp⟩ := h.root
  obtain ⟨N, hN, rfl⟩ := h.exists_holds hn
  have hne : t.root ≠ N.id := fun e =>
    hbelow (h.contains_iff.mpr ⟨_, N, hN, rfl, e ▸ N.id_mem_ids⟩)
  have hkeep : ∀ {above b}, t.Holds above b → ({ t with root := N.id } : Tree).Holds above b :=
    fun hb => hb.congr fun _ _ => rfl
  refine ⟨(if_pos rfl).symm, ⟨hrp ▸ parent_eq_ok hr, fun p => h.not_lists hr hrp, hne⟩,
    fun a ha => ?_, fun a ha _ => ?_, fun i => ⟨rfl, rfl⟩⟩
  · obtain ⟨above, b, hb, rfl, hmem⟩ := h.contains_iff.mp ha
    have hb' : t.root = b.id := h.eq_id_of_parentless hb hmem hr hrp
    refine ⟨[], b.ids, N.ids, [], hb' ▸ h.descendants_eq hb, h.descendants_eq hN, ?_, ?_⟩
    · rw [List.nil_append, List.append_nil, h.descendants_eq hb]
    · rw [if_pos hb'.symm, List.nil_append, List.append_nil]
      exact (hkeep hN).descendants_eq (h.nodup_ids hN)
  · obtain ⟨b, hb, rfl⟩ := h.exists_holds (Array.getElem?_eq_getElem ha)
    rw [(hkeep hb).shape_eq (h.nodup_ids hb), hb.shape_eq (h.nodup_ids hb)]

theorem replaced (h : t.WellLinked) (hr : t.replace old new = .ok t') (hroot : new ≠ t.root)
    (hbelow : ¬ t.Contains new old) : t.Replaced t' old new := by
  rcases replace_ok_inv hr with ⟨q, slot, hs⟩ | ⟨rfl, rfl, n, hn, -⟩
  · exact h.replaced_of_splices hs hroot hbelow
  · exact h.replaced_of_root hn hbelow

/-! ### Which replacements succeed -/

theorem replace_eq_error {m : Node} (hn : t.nodes[new]? = some n) (hm : t.nodes[old]? = some m)
    (hbad : n.parent ≠ none ∨ m.parent = none ∧ old ≠ t.root) :
    ∃ e, t.replace old new = .error (.error e) := by
  rcases hp : n.parent with _ | p
  · obtain ⟨hmp, hne⟩ := hbad.resolve_left (not_not_intro hp)
    refine ⟨.malformedTree old "node is detached", ?_⟩
    simp [Tree.replace, parent_eq_ok hn, parent_eq_ok hm, hp, hmp, hne, bind, Except.bind, fail]
  · refine ⟨.malformedTree new "replacement node is already attached", ?_⟩
    simp [Tree.replace, parent_eq_ok hn, hp, bind, Except.bind, fail]

theorem replace_eq_ok {m : Node} (h : t.WellLinked) (hn : t.nodes[new]? = some n)
    (hm : t.nodes[old]? = some m) (hnp : n.parent = none) (hmp : m.parent = none → old = t.root) :
    ∃ t', t.replace old new = .ok t' := by
  rcases hp : m.parent with _ | q
  · refine ⟨{ t with root := new }, ?_⟩
    obtain rfl : old = t.root := hmp hp
    simp [Tree.replace, parent_eq_ok hn, parent_eq_ok hm, hnp, hp, bind, Except.bind, pure,
      Except.pure]
  · obtain ⟨k, hk, hcount⟩ := h.listed hm hp
    obtain ⟨slot, hslot⟩ : ∃ s, k.children.idxOf? old = some s := by
      rw [← Option.isSome_iff_exists, List.isSome_idxOf?, ← List.count_pos_iff, hcount]
      exact Nat.one_pos
    obtain ⟨t', ht', -⟩ := exists_splices hn hnp hm hp hk hslot
    exact ⟨t', ht'⟩

end WellLinked

end Tree

end Classlet
