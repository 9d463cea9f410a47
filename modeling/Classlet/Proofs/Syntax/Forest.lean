import Classlet.Proofs.Syntax.Edited
import Classlet.Proofs.Syntax.Links
import Mathlib.Data.Fintype.EquivFin
import Mathlib.Data.Fintype.Card

/-!
# Well linked trees as forests

The nodes of a well linked tree form a forest, whether the root reaches them or not.

* `WellLinked.exists_holds`: each node is the topmost one of a subtree that the tree holds.
* `WellLinked.exists_top`: each node is in a held subtree whose topmost node has no parent.
* `Holds.mem_ids_iff`, `WellLinked.nodup_ids`: a held subtree has the nodes that paths from its
  topmost node lead to, each of them once.
* `WellLinked.descendants_eq`: so the pre-order at a node can always be read.
-/

namespace Classlet

open Subtree Relation

/-- Paths without a cycle in a finite graph do not go on forever. -/
theorem wellFounded_transGen {α : Type} [Finite α] {r : α → α → Prop}
    (h : ∀ a, ¬ TransGen r a a) : WellFounded (TransGen r) := by
  have : Std.Irrefl (TransGen r) := ⟨h⟩
  exact Finite.wellFounded_of_trans_of_irrefl _

namespace Tree

variable {t : Tree} {i j p c : NodeId} {n : Node} {parent : Option NodeId} {b d : Subtree}

theorem wellFounded_lists (h : ∀ i, ¬ TransGen t.Lists i i) :
    WellFounded (TransGen fun p c : Fin t.size => t.Lists p c) :=
  wellFounded_transGen fun a ha => h a <| ha.lift Fin.val fun _ _ hpc => hpc

/-- **A held subtree has the nodes that paths from its topmost node lead to.** -/
theorem Holds.mem_ids_iff (hb : t.Holds parent b) :
    i ∈ b.ids ↔ ReflTransGen t.Lists b.id i := by
  refine ⟨fun hi => ?_, fun hp => ?_⟩
  · induction b generalizing parent with
    | node j k q cs ih =>
      rw [ids_node, List.mem_cons, List.mem_flatMap] at hi
      rcases hi with rfl | ⟨c, hc, hi⟩
      · exact .refl
      · exact .head ⟨_, hb.here, List.mem_map_of_mem hc⟩ (ih c hc (hb.child c hc) hi)
  · induction hp with
    | refl => exact b.id_mem_ids
    | tail _ hc ih =>
      obtain ⟨n, hn, hc⟩ := hc
      exact (hb.child_of_mem ih hn hc).1

namespace WellLinked

theorem lt_size_of_lists (h : t.WellLinked) (hpc : t.Lists p c) : p < t.size ∧ c < t.size := by
  obtain ⟨n, hn, -⟩ := h.parent_eq hpc
  obtain ⟨m, hm, -⟩ := hpc
  exact ⟨(Array.getElem?_eq_some_iff.mp hm).1, (Array.getElem?_eq_some_iff.mp hn).1⟩

theorem lists_of_parent (h : t.WellLinked) (hn : t.nodes[c]? = some n) (hp : n.parent = some p) :
    t.Lists p c := by
  obtain ⟨m, hm, hcount⟩ := h.listed hn hp
  exact ⟨m, hm, List.count_pos_iff.mp (by omega)⟩

theorem eq_of_lists (h : t.WellLinked) (hi : t.Lists i c) (hj : t.Lists j c) : i = j := by
  obtain ⟨n, hn, hp⟩ := h.parent_eq hi
  obtain ⟨m, hm, hq⟩ := h.parent_eq hj
  cases hn.symm.trans hm
  exact Option.some.inj (hp.symm.trans hq)

/-! ### Induction along the links -/

/-- Induction downwards: what holds of a node if it holds of its children, holds of all nodes. -/
theorem ind_children (h : t.WellLinked) {motive : NodeId → Prop}
    (step : ∀ i < t.size, (∀ c, t.Lists i c → motive c) → motive i) (hi : i < t.size) :
    motive i := by
  have hwf : WellFounded (TransGen fun c p : Fin t.size => t.Lists p c) :=
    wellFounded_transGen fun a ha => h.acyclic a <| transGen_swap.mp <|
      ha.lift Fin.val fun _ _ hpc => hpc
  refine hwf.induction (C := fun i => motive i) ⟨i, hi⟩ fun a ih => step a a.isLt fun c hc => ?_
  exact ih ⟨c, (h.lt_size_of_lists hc).2⟩ (.single hc)

theorem ind_parent (h : t.WellLinked) {motive : NodeId → Prop}
    (step : ∀ i < t.size, (∀ p, t.Lists p i → motive p) → motive i) (hi : i < t.size) :
    motive i := by
  refine (wellFounded_lists h.acyclic).induction (C := fun i => motive i) ⟨i, hi⟩ fun a ih =>
    step a a.isLt fun p hp => ?_
  exact ih ⟨p, (h.lt_size_of_lists hp).1⟩ (.single hp)

/-! ### Held subtrees -/

/-- **Each node is the topmost one of a held subtree.** -/
theorem exists_holds (h : t.WellLinked) (hn : t.nodes[i]? = some n) :
    ∃ b, t.Holds n.parent b ∧ b.id = i := by
  refine h.ind_children (motive := fun i => ∀ n : Node, t.nodes[i]? = some n →
    ∃ b, t.Holds n.parent b ∧ b.id = i) (fun i _ ih n hn => ?_)
    (Array.getElem?_eq_some_iff.mp hn).1 n hn
  have hc : ∀ c ∈ n.children, ∃ b, t.Holds (some i) b ∧ b.id = c := fun c hc => by
    obtain ⟨m, hm, hp⟩ := h.parent_eq ⟨n, hn, hc⟩
    exact hp ▸ ih c ⟨n, hn, hc⟩ m hm
  choose! below hbelow hid using hc
  refine ⟨.node i n.kind n.position (n.children.map below), .node ?_ fun b hb => ?_, rfl⟩
  · have hids : n.children.map (Subtree.id ∘ below) = n.children.map fun c => c :=
      List.map_congr_left hid
    rw [hn, List.map_map, hids, List.map_id']
  · obtain ⟨c, hc, rfl⟩ := List.mem_map.mp hb
    exact hbelow c hc

theorem exists_top (h : t.WellLinked) (hi : i < t.size) : ∃ b, t.Holds none b ∧ i ∈ b.ids := by
  refine h.ind_parent (motive := fun i => ∃ b, t.Holds none b ∧ i ∈ b.ids) (fun i hi ih => ?_) hi
  obtain ⟨n, hn⟩ : ∃ n, t.nodes[i]? = some n := ⟨_, Array.getElem?_eq_getElem hi⟩
  rcases hp : n.parent with _ | p
  · obtain ⟨b, hb, rfl⟩ := h.exists_holds hn
    exact ⟨b, hp ▸ hb, b.id_mem_ids⟩
  · have hpi : t.Lists p i := h.lists_of_parent hn hp
    obtain ⟨b, hb, hpb⟩ := ih p hpi
    obtain ⟨m, hm, hmi⟩ := hpi
    exact ⟨b, hb, (hb.child_of_mem hpb hm hmi).1⟩

theorem total_of_below (h : t.WellLinked) (hi : ReflTransGen t.Lists i c)
    (hj : ReflTransGen t.Lists j c) : ReflTransGen t.Lists i j ∨ ReflTransGen t.Lists j i := by
  have hunique : Relator.RightUnique (Function.swap t.Lists) := fun _ _ _ => h.eq_of_lists
  rcases ReflTransGen.total_of_right_unique hunique (reflTransGen_swap.mpr hi)
    (reflTransGen_swap.mpr hj) with hij | hji
  · exact .inr (reflTransGen_swap.mp hij)
  · exact .inl (reflTransGen_swap.mp hji)

theorem eq_of_siblings (h : t.WellLinked) (hi : t.Lists p i) (hj : t.Lists p j)
    (hij : ReflTransGen t.Lists i j) : i = j := by
  rcases ReflTransGen.cases_tail hij with he | ⟨q, hiq, hqj⟩
  · exact he.symm
  · cases h.eq_of_lists hqj hj
    exact absurd (TransGen.head' hi hiq) (h.acyclic _)

/-- **A held subtree has each of its nodes once.** -/
theorem nodup_ids (h : t.WellLinked) (hb : t.Holds parent b) : b.ids.Nodup := by
  induction b generalizing parent with
  | node i k q cs ih =>
    have hlists : ∀ c ∈ cs, t.Lists i c.id := fun c hc => ⟨_, hb.here, List.mem_map_of_mem hc⟩
    have hpath : ∀ c ∈ cs, ∀ j ∈ c.ids, ReflTransGen t.Lists c.id j := fun c hc j hj =>
      (hb.child c hc).mem_ids_iff.mp hj
    have hne : cs.Pairwise fun c d => c.id ≠ d.id :=
      List.pairwise_map.mp (h.nodup_children hb.here)
    rw [ids_node, List.nodup_cons, List.nodup_flatMap]
    refine ⟨fun hi => ?_, fun c hc => ih c hc (hb.child c hc), ?_⟩
    · obtain ⟨c, hc, hi⟩ := List.mem_flatMap.mp hi
      exact h.acyclic i (.head' (hlists c hc) (hpath c hc i hi))
    · refine hne.imp_of_mem fun {c d} hc hd hcd j hjc hjd => ?_
      rcases h.total_of_below (hpath c hc j hjc) (hpath d hd j hjd) with hp | hp
      · exact hcd (h.eq_of_siblings (hlists c hc) (hlists d hd) hp)
      · exact hcd (h.eq_of_siblings (hlists d hd) (hlists c hc) hp).symm

theorem descendants_eq (h : t.WellLinked) (hb : t.Holds parent b) :
    t.descendants b.id = .ok b.ids :=
  hb.descendants_eq (h.nodup_ids hb)

end WellLinked

end Tree

end Classlet
