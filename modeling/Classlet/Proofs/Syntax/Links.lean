import Classlet.Proofs.Syntax.Building
import Classlet.Proofs.Syntax.Replace
import Mathlib.Logic.Relation

/-!
# Parent and child links

A tree is well linked if its parent links and its child lists agree: a node with a parent is listed
there, exactly once, and nowhere else; and if nothing is below itself.  This is said of the whole
array, so also of the nodes that the root does not reach.

* `WellLinked.add`, `WellLinked.replace`, `WellLinked.link`: adding, replacing and appending nodes
  keep a tree well linked.
* `Program.wellLinked_build`: a built tree is well linked.
-/

namespace Classlet

open Subtree

namespace Tree

variable {t t' : Tree} {i p c : NodeId} {n : Node}

/-- The node at an id has another among its children. -/
def Lists (t : Tree) (p c : NodeId) : Prop := ∃ n, t.nodes[p]? = some n ∧ c ∈ n.children

/-- Parent and child links agree, and there is no cycle. -/
structure WellLinked (t : Tree) : Prop where
  listed : ∀ {i : NodeId} {n : Node} {p : NodeId}, t.nodes[i]? = some n → n.parent = some p →
    ∃ m : Node, t.nodes[p]? = some m ∧ m.children.count i = 1
  parent_eq : ∀ {p c : NodeId}, t.Lists p c → ∃ n : Node, t.nodes[c]? = some n ∧ n.parent = some p
  root : ∃ n : Node, t.nodes[t.root]? = some n ∧ n.parent = none
  acyclic : ∀ i, ¬ Relation.TransGen t.Lists i i

namespace WellLinked

theorem count_eq_one (h : t.WellLinked) (hn : t.nodes[p]? = some n) (hc : c ∈ n.children) :
    n.children.count c = 1 := by
  obtain ⟨m, hm, hparent⟩ := h.parent_eq ⟨n, hn, hc⟩
  obtain ⟨n', hn', hcount⟩ := h.listed hm hparent
  cases hn.symm.trans hn'
  exact hcount

theorem nodup_children (h : t.WellLinked) (hn : t.nodes[p]? = some n) : n.children.Nodup :=
  List.nodup_iff_count_eq_one.mpr fun _ => h.count_eq_one hn

/-! ### Adding -/

theorem add (h : t.WellLinked) (k : Kind) (q : Position) : (t.add k q).2.WellLinked := by
  have hold : ∀ {i : NodeId} {n : Node}, t.nodes[i]? = some n →
      (t.add k q).2.nodes[i]? = some n := by
    intro i n hi
    rw [nodes_add_of_lt t k q (Array.getElem?_eq_some_iff.mp hi).1, hi]
  have hlists : (t.add k q).2.Lists = t.Lists := by
    funext p c
    refine propext ⟨?_, fun ⟨n, hn, hc⟩ => ⟨n, hold hn, hc⟩⟩
    rintro ⟨n, hn, hc⟩
    rw [getElem?_nodes_add] at hn
    split at hn
    · cases hn
      cases hc
    · exact ⟨n, hn, hc⟩
  refine ⟨fun {i n p} hn hp => ?_, fun {p c} hc => ?_, ?_, ?_⟩
  · rw [getElem?_nodes_add] at hn
    split at hn
    · cases hn
      cases hp
    · obtain ⟨m, hm, hcount⟩ := h.listed hn hp
      exact ⟨m, hold hm, hcount⟩
  · rw [hlists] at hc
    obtain ⟨n, hn, hp⟩ := h.parent_eq hc
    exact ⟨n, hold hn, hp⟩
  · obtain ⟨n, hn, hp⟩ := h.root
    exact ⟨n, hold hn, hp⟩
  · rw [hlists]
    exact h.acyclic

end WellLinked

/-! ### Replacing -/

/-- A path that may use one link more is a path without it, or goes to it and on from it. -/
theorem transGen_cases_of_link {α : Type} {r s : α → α → Prop} {x y a b : α}
    (hs : ∀ a b, s a b → r a b ∨ a = x ∧ b = y) (h : Relation.TransGen s a b) :
    Relation.TransGen r a b ∨ Relation.ReflTransGen r a x ∧ Relation.ReflTransGen r y b := by
  induction h with
  | single hab =>
    rcases hs _ _ hab with hr | ⟨rfl, rfl⟩
    · exact .inl (.single hr)
    · exact .inr ⟨.refl, .refl⟩
  | @tail b c _ hbc ih =>
    rcases hs _ _ hbc with hr | ⟨rfl, rfl⟩
    · exact ih.imp (.tail · hr) fun ⟨ha, hb⟩ => ⟨ha, hb.tail hr⟩
    · rcases ih with ih | ⟨ha, -⟩
      · exact .inr ⟨ih.to_reflTransGen, .refl⟩
      · exact .inr ⟨ha, .refl⟩

/-- Whatever has a child list counts `new` in the slot that held `old`. -/
theorem Splices.count_children {old new q slot : NodeId} (h : t.Splices t' old new q slot)
    (hn : t.nodes[p]? = some n) : ∃ n' : Node, t'.nodes[p]? = some n' ∧
      ∀ c, n'.children.count c = if p = q then
        n.children.count c - (if old = c then 1 else 0) + if new = c then 1 else 0
      else n.children.count c := by
  refine ⟨_, (h.nodes_eq p).trans (congrArg _ hn), fun c => ?_⟩
  by_cases hpq : p = q
  · obtain ⟨m, hm, hs⟩ := h.slot_eq
    cases (hpq ▸ hn).symm.trans hm
    obtain ⟨hlt, hold, -⟩ := List.idxOf?_eq_some_iff.mp hs
    simp only [if_pos hpq]
    rw [List.count_set hlt, hold]
    simp only [beq_iff_eq]
  · simp only [if_neg hpq]

namespace WellLinked

variable {old new q slot : NodeId}

theorem lists_of_splices (h : t.WellLinked) (hs : t.Splices t' old new q slot)
    (hpc : t'.Lists p c) : t.Lists p c ∧ c ≠ old ∨ p = q ∧ c = new := by
  obtain ⟨n', hn', hc⟩ := hpc
  obtain ⟨n, hn, -⟩ := Option.map_eq_some_iff.mp ((hs.nodes_eq p).symm.trans hn')
  obtain ⟨n₁, hn₁, hcount⟩ := hs.count_children hn
  cases hn'.symm.trans hn₁
  have hpos := List.count_pos_iff.mpr hc
  rw [hcount] at hpos
  by_cases hpq : p = q
  · rw [if_pos hpq] at hpos
    by_cases hcn : new = c
    · exact .inr ⟨hpq, hcn.symm⟩
    rw [if_neg hcn, Nat.add_zero] at hpos
    have hmem : c ∈ n.children := List.count_pos_iff.mp (by omega)
    refine .inl ⟨⟨n, hn, hmem⟩, fun e => ?_⟩
    rw [h.count_eq_one hn hmem, if_pos e.symm] at hpos
    exact Nat.lt_irrefl 0 hpos
  · rw [if_neg hpq] at hpos
    have hmem : c ∈ n.children := List.count_pos_iff.mp hpos
    refine .inl ⟨⟨n, hn, hmem⟩, fun e => hpq ?_⟩
    obtain ⟨m, hm, hmp⟩ := h.parent_eq ⟨n, hn, hmem⟩
    obtain ⟨m', hm', hmq⟩ := hs.below
    cases hm.symm.trans (e ▸ hm')
    exact Option.some.inj (hmp.symm.trans hmq)

theorem not_lists (h : t.WellLinked) (hn : t.nodes[c]? = some n) (hp : n.parent = none) :
    ¬ t.Lists p c := fun hpc => by
  obtain ⟨m, hm, hmp⟩ := h.parent_eq hpc
  cases hn.symm.trans hm
  cases hp.symm.trans hmp

theorem splice (h : t.WellLinked) (hs : t.Splices t' old new q slot) (hroot : new ≠ t.root)
    (hbelow : ¬ Relation.ReflTransGen t.Lists new old) : t'.WellLinked := by
  obtain ⟨l, hl, hlp⟩ := hs.detached
  have hno : new ≠ old := fun e => hbelow (e ▸ .refl)
  have hlists : ∀ {p c}, t'.Lists p c → t.Lists p c ∧ c ≠ old ∨ p = q ∧ c = new :=
    h.lists_of_splices hs
  refine ⟨fun {i n' p} hi hp => ?_, fun {p c} hc => ?_, ?_, fun i hi => ?_⟩
  · obtain ⟨n, hn, rfl⟩ := Option.map_eq_some_iff.mp ((hs.nodes_eq i).symm.trans hi)
    have hio : i ≠ old := fun e => by
      simp only [if_pos e] at hp
      cases hp
    simp only [if_neg hio] at hp
    by_cases hin : i = new
    · obtain ⟨m, hm, hslot⟩ := hs.slot_eq
      obtain ⟨m', hm', hcount⟩ := hs.count_children hm
      rw [if_pos hin] at hp
      cases hp
      have hzero : m.children.count i = 0 := List.count_eq_zero.mpr fun hmem =>
        h.not_lists hl hlp ⟨m, hm, hin ▸ hmem⟩
      refine ⟨m', hm', ?_⟩
      rw [hcount, if_pos rfl, hzero, if_neg (Ne.symm hio), if_pos hin.symm]
    · rw [if_neg hin] at hp
      obtain ⟨m, hm, hone⟩ := h.listed hn hp
      obtain ⟨m', hm', hcount⟩ := hs.count_children hm
      refine ⟨m', hm', ?_⟩
      rw [hcount, hone, if_neg (Ne.symm hio), if_neg (Ne.symm hin), ite_self]
  · rcases hlists hc with ⟨hpc, hco⟩ | ⟨rfl, rfl⟩
    · obtain ⟨n, hn, hp⟩ := h.parent_eq hpc
      have hcn : c ≠ new := fun e => h.not_lists hl hlp (e ▸ hpc)
      refine ⟨_, (hs.nodes_eq c).trans (congrArg _ hn), ?_⟩
      simp only [if_neg hco, if_neg hcn, hp]
    · refine ⟨_, (hs.nodes_eq c).trans (congrArg _ hl), ?_⟩
      simp only [if_neg hno, if_pos]
  · obtain ⟨r, hr, hrp⟩ := h.root
    refine ⟨_, (hs.nodes_eq _).trans (congrArg _ (hs.root_eq ▸ hr)), ?_⟩
    simp only [hs.root_eq, if_neg hroot.symm, hrp, ite_self]
  · -- a cycle through the new link leads from `new` down to `old`
    rcases transGen_cases_of_link (fun a b hab => (hlists hab).imp_left And.left) hi with
      hi | ⟨hiq, hni⟩
    · exact h.acyclic i hi
    · obtain ⟨m, hm, hslot⟩ := hs.slot_eq
      have hmem : old ∈ m.children := by
        obtain ⟨hlt, hold, -⟩ := List.idxOf?_eq_some_iff.mp hslot
        exact hold ▸ List.getElem_mem hlt
      exact hbelow ((hni.trans hiq).tail ⟨m, hm, hmem⟩)

/-- **Replacing a node** by one that is not above it. -/
theorem replace (h : t.WellLinked) (hr : t.replace old new = .ok t') (hroot : new ≠ t.root)
    (hbelow : ¬ Relation.ReflTransGen t.Lists new old) : t'.WellLinked := by
  rcases replace_ok_inv hr with ⟨q, slot, hs⟩ | ⟨-, rfl, l, hl, hlp⟩
  · exact h.splice hs hroot hbelow
  · exact ⟨h.listed, h.parent_eq, ⟨l, hl, hlp⟩, h.acyclic⟩

end WellLinked

/-! ### Appending -/

theorem nodes_link (t : Tree) (p c i : NodeId) :
    (t.link p c).nodes[i]? = t.nodes[i]?.map fun n : Node => {
      n with
      parent := if i = c then some p else n.parent
      children := if i = p then n.children ++ [c] else n.children } := by
  simp only [link, getElem?_nodes_update]
  rcases t.nodes[i]? with _ | n
  · simp
  · by_cases hp : i = p <;> by_cases hc : i = c <;> simp_all [eq_comm]

theorem appendChild_eq {p c : NodeId} (hp : p < t.size) (hc : c < t.size) :
    t.appendChild p c = .ok (t.link p c) := by
  rw [appendChild, node_eq_ok (Array.getElem?_eq_getElem hc),
    node_eq_ok (Array.getElem?_eq_getElem hp)]
  rfl

theorem lists_of_link {p a b : NodeId} (h : (t.link p c).Lists a b) :
    t.Lists a b ∨ a = p ∧ b = c := by
  obtain ⟨m', hm', hb⟩ := h
  obtain ⟨m, hm, rfl⟩ := Option.map_eq_some_iff.mp ((nodes_link t p c a).symm.trans hm')
  by_cases ha : a = p
  · simp only [if_pos ha, List.mem_append, List.mem_singleton] at hb
    exact hb.imp (fun hb => ⟨m, hm, hb⟩) fun hb => ⟨ha, hb⟩
  · exact .inl ⟨m, hm, by simpa only [if_neg ha] using hb⟩

/-- A node that nobody lists is listed once by the node it is appended to, and all others are listed
as before. -/
theorem WellLinked.listed_link (h : t.WellLinked) {p q i : NodeId} {n : Node}
    (hnot : ∀ {q}, ¬ t.Lists q c) (hp : p < t.size) (hi : (t.link p c).nodes[i]? = some n)
    (hq : n.parent = some q) :
    ∃ m : Node, (t.link p c).nodes[q]? = some m ∧ m.children.count i = 1 := by
  obtain ⟨l, hl, rfl⟩ := Option.map_eq_some_iff.mp ((nodes_link t p c i).symm.trans hi)
  by_cases hic : i = c
  · simp only [if_pos hic, Option.some.injEq] at hq
    subst hq hic
    refine ⟨_, (nodes_link t p i p).trans (congrArg _ (Array.getElem?_eq_getElem hp)), ?_⟩
    have hzero : t.nodes[p].children.count i = 0 := List.count_eq_zero.mpr fun hm =>
      hnot ⟨_, Array.getElem?_eq_getElem hp, hm⟩
    simp only [if_pos, List.count_append, hzero, List.count_singleton_self]
  · simp only [if_neg hic] at hq
    obtain ⟨m, hm, hone⟩ := h.listed hl hq
    refine ⟨_, (nodes_link t p c q).trans (congrArg _ hm), ?_⟩
    have hzero : [c].count i = 0 := List.count_eq_zero.mpr (by simpa using hic)
    by_cases hqp : q = p <;> simp [hqp, hone, hzero]

/-- **Appending a parentless node** to one that is not below it. -/
theorem WellLinked.link (h : t.WellLinked) (hn : t.nodes[c]? = some n) (hc : n.parent = none)
    (hroot : c ≠ t.root) (hp : p < t.size) (hbelow : ¬ Relation.ReflTransGen t.Lists c p) :
    (t.link p c).WellLinked := by
  have hnot : ∀ {q}, ¬ t.Lists q c := h.not_lists hn hc
  refine ⟨h.listed_link hnot hp, fun {a b} hab => ?_, ?_, fun i hi => ?_⟩
  · rcases lists_of_link hab with hab | ⟨rfl, rfl⟩
    · obtain ⟨m, hm, hma⟩ := h.parent_eq hab
      have hbc : b ≠ c := fun e => hnot (e ▸ hab)
      exact ⟨_, (nodes_link t p c b).trans (congrArg _ hm), by simp only [if_neg hbc, hma]⟩
    · exact ⟨_, (nodes_link t a b b).trans (congrArg _ hn), by simp only [if_pos]⟩
  · obtain ⟨r, hr, hrp⟩ := h.root
    exact ⟨_, (nodes_link t p c t.root).trans (congrArg _ hr), by
      simp only [if_neg hroot.symm, hrp]⟩
  · -- a cycle through the new link leads from `c` down to `p`
    rcases transGen_cases_of_link (fun a b hab => lists_of_link hab) hi with hi | ⟨hip, hci⟩
    · exact h.acyclic i hi
    · exact hbelow (hci.trans hip)

/-! ### Trees that hold all their nodes -/

theorem Holds.mem_of_transGen {parent : Option NodeId} {k : Kind} {q : Position} {cs : List Subtree}
    (h : t.Holds parent (.node i k q cs)) (hp : Relation.TransGen t.Lists i c) :
    c ∈ cs.flatMap ids := by
  induction hp with
  | single hc =>
    obtain ⟨n, hn, hc⟩ := hc
    rw [h.here] at hn
    cases hn
    obtain ⟨b, hb, rfl⟩ := List.mem_map.mp hc
    exact List.mem_flatMap.mpr ⟨b, hb, b.id_mem_ids⟩
  | tail _ hc ih =>
    obtain ⟨n, hn, hc⟩ := hc
    obtain ⟨b, hb, hj⟩ := List.mem_flatMap.mp ih
    exact List.mem_flatMap.mpr ⟨b, hb, ((h.child b hb).child_of_mem hj hn hc).1⟩

/-- **A tree is well linked** if each node is in a subtree without repeated ids whose topmost node
has no parent. -/
theorem wellLinked_of_holds (hroot : ∃ n : Node, t.nodes[t.root]? = some n ∧ n.parent = none)
    (hall : ∀ i < t.size, ∃ b, t.Holds none b ∧ b.ids.Nodup ∧ i ∈ b.ids) : t.WellLinked := by
  have htop : ∀ {i : NodeId} {n : Node}, t.nodes[i]? = some n →
      ∃ b, t.Holds none b ∧ b.ids.Nodup ∧ i ∈ b.ids := fun hi =>
    hall _ (Array.getElem?_eq_some_iff.mp hi).1
  refine ⟨fun {i n p} hi hp => ?_, fun {p c} ⟨n, hp, hc⟩ => ?_, hroot, fun i hi => ?_⟩
  · obtain ⟨b, h, hn, hib⟩ := htop hi
    have hne : i ≠ b.id := fun e => by
      obtain ⟨j, k, q, cs⟩ := b
      rw [e] at hi
      cases hi.symm.trans h.here
      cases hp
    obtain ⟨above, j, k, q, cs, d, hd, hsub, hmemd, rfl⟩ := h.exists_parent hib hne
    obtain ⟨e, k', q', ds⟩ := d
    cases hi.symm.trans (hd.child _ hmemd).here
    cases hp
    refine ⟨_, hd.here, List.count_eq_one_of_mem ?_ (List.mem_map_of_mem hmemd)⟩
    have hnd := hsub.nodup hn
    rw [ids_node, List.nodup_cons] at hnd
    exact nodup_map_id hnd.2
  · obtain ⟨b, h, -, hpb⟩ := htop hp
    exact (h.child_of_mem hpb hp hc).2
  · obtain ⟨n, ⟨m, hm, hc⟩, -⟩ := Relation.TransGen.head'_iff.mp hi
    obtain ⟨b, h, hn, hib⟩ := htop hm
    obtain ⟨above, ⟨j, k, q, cs⟩, hd, rfl, hsub⟩ := h.exists_subtree hib
    have hnd := hsub.nodup hn
    rw [ids_node, List.nodup_cons] at hnd
    exact hnd.1 (hd.mem_of_transGen hi)

theorem Holds.wellLinked {b : Subtree} (h : t.Holds none b) (hroot : b.id = t.root)
    (hn : b.ids.Nodup) (hall : ∀ i < t.size, i ∈ b.ids) : t.WellLinked := by
  refine wellLinked_of_holds ?_ fun i hi => ⟨b, h, hn, hall i hi⟩
  obtain ⟨i, k, q, cs⟩ := b
  rw [← hroot]
  exact ⟨_, h.here, rfl⟩

end Tree

/-- **A built tree is well linked.** -/
theorem Program.wellLinked_build (p : Program) : p.build.WellLinked := by
  obtain ⟨b, hb⟩ := p.pictures_build
  exact hb.holds.wellLinked hb.root hb.nodup fun i hi => hb.mem_ids_build hi

end Classlet
