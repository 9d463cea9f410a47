import Classlet.Proofs.Syntax.Reading
import Classlet.Proofs.Syntax.Replace

/-!
# Edits inside a subtree

`Edited t t' parent b b'` says that a tree holds `b'` after an edit where it held `b` before, and
that the edit has touched no other node.  Edits follow one another (`Edited.trans`), and an edit
inside a child is one of the whole subtree (`Edited.in_child`).

* `edited_leaf`: putting a new leaf in the place of a node inside a subtree.
* `Subtree.graft_isExpr`: a subtree with a node replaced reads as an expression that is related to
  the one before by every relation that the expressions pass on to those they are part of.
-/

namespace Classlet

namespace Subtree

/-- A subtree inside another, or the whole. -/
inductive Within : Subtree → Subtree → Prop where
  | refl (b : Subtree) : Within b b
  | child {b c : Subtree} {i : NodeId} {k : Kind} {p : Position} {cs : List Subtree}
      (hc : c ∈ cs) (h : Within b c) : Within b (node i k p cs)

theorem Within.ids_subset {b c : Subtree} (h : b.Within c) : b.ids ⊆ c.ids := by
  induction h with
  | refl => exact fun _ hi => hi
  | child hc _ ih => exact fun _ hi => mem_ids_of_child hc (ih hi)

theorem IsExpr.within {b c : Subtree} {e : Expr} (h : b.IsExpr e) (hw : c.Within b) :
    ∃ e', c.IsExpr e' := by
  induction hw generalizing e with
  | refl => exact ⟨e, h⟩
  | child hc _ ih =>
    obtain ⟨_, _, _, hnode, hcs⟩ := isExpr_iff.mp h
    cases hnode
    obtain ⟨e', he'⟩ := forall₂_of_mem hcs hc
    exact ih he'

theorem exists_within {b : Subtree} {i : NodeId} (h : i ∈ b.ids) :
    ∃ d : Subtree, d.Within b ∧ d.id = i := by
  induction b with
  | node j k p cs ih =>
    rw [ids_node, List.mem_cons, List.mem_flatMap] at h
    rcases h with rfl | ⟨c, hc, hi⟩
    · exact ⟨_, .refl _, rfl⟩
    · obtain ⟨d, hd, hid⟩ := ih c hc hi
      exact ⟨d, .child hc hd, hid⟩

theorem graft_in_child {old i : NodeId} {k : Kind} {p : Position} {new c : Subtree}
    {before after : List Subtree} (hn : (node i k p (before ++ c :: after)).ids.Nodup)
    (hold : old ∈ c.ids) : graft old new (node i k p (before ++ c :: after))
      = node i k p (before ++ graft old new c :: after) := by
  have hne : i ≠ old := fun e => not_mem_child hn (by simp) (e ▸ hold)
  simp only [ids_node, List.flatMap_append, List.flatMap_cons, List.nodup_cons, List.nodup_append',
    List.disjoint_append_right] at hn
  obtain ⟨-, -, ⟨-, -, hCA⟩, hBC, -⟩ := hn
  have hsame : ∀ ds : List Subtree, old ∉ ds.flatMap ids → ds.map (graft old new) = ds := by
    intro ds hds
    calc ds.map (graft old new)
        = ds.map fun d => d := List.map_congr_left fun d hd =>
          graft_eq_self fun hm => hds (List.mem_flatMap.mpr ⟨d, hd, hm⟩)
      _ = ds := List.map_id' ds
  rw [graft_node, if_neg hne, List.map_append, List.map_cons,
    hsame before fun h => hBC h hold, hsame after fun h => hCA hold h]

/-- **Counting after a replacement**: the nodes of the subtree that is replaced are gone, and those
of the new one are there. -/
theorem count_graft (q : Kind → Bool) {b d : Subtree} (new : Subtree) (hb : b.ids.Nodup)
    (hd : d.Within b) : (graft d.id new b).count q + d.count q = b.count q + new.count q := by
  induction hd with
  | refl =>
    obtain ⟨i, k, p, cs⟩ := d
    rw [graft_node, id_node, if_pos rfl, Nat.add_comm]
  | @child c i k p cs hc hd ih =>
    have hrec := ih (nodup_child hb hc)
    obtain ⟨before, after, rfl⟩ := List.append_of_mem hc
    rw [graft_in_child hb (hd.ids_subset d.id_mem_ids), count_node, count_node]
    simp only [countAll_append, countAll_cons]
    omega

theorem Within.of_graft {old : NodeId} {new b d : Subtree} (h : d.Within (graft old new b)) :
    d.Within new ∨ ∃ d₀ : Subtree, d₀.Within b ∧ d₀.id ≠ old ∧ d = graft old new d₀ := by
  induction b with
  | node i k p cs ih =>
    rw [graft_node] at h
    split at h
    · exact .inl h
    · next hi =>
      cases h with
      | refl => exact .inr ⟨.node i k p cs, .refl _, hi, by rw [graft_node, if_neg hi]⟩
      | child hc hd =>
        obtain ⟨c, hcs, rfl⟩ := List.mem_map.mp hc
        rcases ih c hcs hd with hd | ⟨d₀, hd₀, hne, rfl⟩
        · exact .inl hd
        · exact .inr ⟨d₀, .child hcs hd₀, hne, rfl⟩

theorem mem_ids_graft_of_leaf {old j : NodeId} {new b : Subtree}
    (hleaf : ∀ d : Subtree, d.Within b → d.id = old → d.ids = [old]) (hj : j ∈ b.ids)
    (hne : j ≠ old) : j ∈ (graft old new b).ids := by
  induction b with
  | node i k p cs ih =>
    rw [graft_node]
    split
    · next hi =>
      rw [hleaf _ (.refl _) hi, List.mem_singleton] at hj
      exact absurd hj hne
    · rw [ids_node, List.mem_cons, List.mem_flatMap] at hj
      rcases hj with rfl | ⟨c, hc, hj⟩
      · simp
      · have hmem : j ∈ (graft old new c).ids := ih c hc (fun d hd => hleaf d (.child hc hd)) hj
        exact mem_ids_of_child (List.mem_map_of_mem hc) hmem

end Subtree

namespace Tree

open Subtree

theorem Holds.within {t : Tree} {parent : Option NodeId} {b c : Subtree} (h : t.Holds parent b)
    (hw : c.Within b) : ∃ above, t.Holds above c := by
  induction hw generalizing parent with
  | refl => exact ⟨parent, h⟩
  | child hc _ ih => exact ih (h.child _ hc)

/-- The tree holds `b'` where it held `b`, and no other node has changed. -/
structure Edited (t t' : Tree) (parent : Option NodeId) (b b' : Subtree) : Prop where
  holds : t'.Holds parent b'
  nodup : b'.ids.Nodup
  /-- The ids are old ones or new ones. -/
  ids : ∀ i ∈ b'.ids, i ∈ b.ids ∨ t.size ≤ i
  grows : Grows t t'
  frame : ∀ i, i ∉ b.ids → i < t.size → t'.nodes[i]? = t.nodes[i]?

namespace Edited

variable {t t₁ t₂ : Tree} {parent : Option NodeId} {b b₁ b₂ : Subtree}

theorem refl (h : t.Holds parent b) (hb : b.ids.Nodup) : Edited t t parent b b :=
  ⟨h, hb, fun _ hi => .inl hi, .refl t, fun _ _ _ => rfl⟩

theorem trans (h : Edited t t₁ parent b b₁) (h₁ : Edited t₁ t₂ parent b₁ b₂) :
    Edited t t₂ parent b b₂ where
  holds := h₁.holds
  nodup := h₁.nodup
  ids := by
    intro i hi
    rcases h₁.ids i hi with hi | hi
    · exact h.ids i hi
    · exact .inr (Nat.le_trans h.grows.size_le hi)
  grows := h.grows.trans h₁.grows
  frame := by
    intro i hi hlt
    have hi₁ : i ∉ b₁.ids := fun hmem => by
      rcases h.ids i hmem with hmem | hle
      · exact hi hmem
      · exact absurd hlt (Nat.not_lt.mpr hle)
    rw [h₁.frame i hi₁ (Nat.lt_of_lt_of_le hlt h.grows.size_le), h.frame i hi hlt]

/-- **An edit inside a child.** -/
theorem in_child {i : NodeId} {k : Kind} {p : Position} {before after : List Subtree}
    {c c' : Subtree} (hb : t.Holds parent (.node i k p (before ++ c :: after)))
    (hn : (Subtree.node i k p (before ++ c :: after)).ids.Nodup)
    (h : Edited t t₁ (some i) c c') (hid : c'.id = c.id) :
    Edited t t₁ parent (.node i k p (before ++ c :: after))
      (.node i k p (before ++ c' :: after)) := by
  have hlt : ∀ j ∈ (Subtree.node i k p (before ++ c :: after)).ids, j < t.size :=
    fun j hj => hb.lt_size hj
  simp only [ids_node, List.flatMap_append, List.flatMap_cons, List.nodup_cons, List.nodup_append',
    List.mem_cons, List.mem_append, not_or, List.disjoint_append_right] at hn hlt
  obtain ⟨⟨hiB, hiC, hiA⟩, hB, ⟨hC, hA, hCA⟩, hBC, hBA⟩ := hn
  -- an id of the new child that is not one of the old child is new
  have hnew : ∀ j ∈ c'.ids, j ∉ c.ids → t.size ≤ j := fun j hj hjc =>
    (h.ids j hj).resolve_left hjc
  have hsib : ∀ d, d ∈ before ∨ d ∈ after → ∀ j ∈ d.ids, t₁.nodes[j]? = t.nodes[j]? := by
    rintro d (hd | hd) j hj
    · have hjB : j ∈ before.flatMap Subtree.ids := List.mem_flatMap.mpr ⟨d, hd, hj⟩
      exact h.frame j (hBC hjB) (hlt j (.inr (.inl hjB)))
    · have hjA : j ∈ after.flatMap Subtree.ids := List.mem_flatMap.mpr ⟨d, hd, hj⟩
      exact h.frame j (fun hjc => hCA hjc hjA) (hlt j (.inr (.inr (.inr hjA))))
  refine ⟨.node ?_ fun d hd => ?_, ?_, fun j hj => ?_, h.grows, fun j hj hjt => ?_⟩
  · rw [h.frame i hiC (hlt i (.inl rfl)), hb.here]
    simp [hid]
  · rcases List.mem_append.mp hd with hd | hd
    · exact (hb.child d (by simp [hd])).congr (hsib d (.inl hd))
    · rcases List.mem_cons.mp hd with rfl | hd
      · exact h.holds
      · exact (hb.child d (by simp [hd])).congr (hsib d (.inr hd))
  · simp only [ids_node, List.flatMap_append, List.flatMap_cons, List.nodup_cons,
      List.nodup_append', List.mem_append, not_or, List.disjoint_append_right]
    refine ⟨⟨hiB, fun hi => ?_, hiA⟩, hB, ⟨h.nodup, hA, fun j hj hjA => ?_⟩,
      fun j hjB hj => ?_, hBA⟩
    · exact absurd (hnew i hi hiC) (Nat.not_le.mpr (hlt i (.inl rfl)))
    · exact absurd (hnew j hj fun hjc => hCA hjc hjA)
        (Nat.not_le.mpr (hlt j (.inr (.inr (.inr hjA)))))
    · exact absurd (hnew j hj (hBC hjB)) (Nat.not_le.mpr (hlt j (.inr (.inl hjB))))
  · simp only [ids_node, List.flatMap_append, List.flatMap_cons, List.mem_cons,
      List.mem_append] at hj ⊢
    rcases hj with hj | hj | hj | hj
    · exact .inl (.inl hj)
    · exact .inl (.inr (.inl hj))
    · rcases h.ids j hj with hj | hj
      · exact .inl (.inr (.inr (.inl hj)))
      · exact .inr hj
    · exact .inl (.inr (.inr (.inr hj)))
  · refine h.frame j (fun hjc => hj ?_) hjt
    exact mem_ids_of_child (by simp) hjc

end Edited

/-- **A new leaf in the place of a node inside a subtree.** -/
theorem edited_leaf {t : Tree} {parent : Option NodeId} {b : Subtree} {old : NodeId}
    (h : t.Holds parent b) (hb : b.ids.Nodup) (hold : old ∈ b.ids) (hne : old ≠ b.id) (k : Kind)
    (p : Position) :
    ∃ t', (t.add k p).2.replace old t.size = .ok t' ∧
      Edited t t' parent b (graft old (.node t.size k p []) b) := by
  have hfresh : t.size ∉ b.ids := fun hm => Nat.lt_irrefl _ (h.lt_size hm)
  have hnew : (t.add k p).2.nodes[t.size]? = some ⟨k, p, none, []⟩ := by
    rw [getElem?_nodes_add, if_pos rfl]
  obtain ⟨t', ht', hh, hg, hs, hf⟩ := (h.add k p).replace_inside hb hold hne hnew hfresh
  refine ⟨t', ht', hh, nodup_graft hb (by simp) (by simpa using hfresh), fun i hi => ?_,
    (grows_add t k p).trans hg, fun i hi hlt => ?_⟩
  · rcases mem_ids_graft hi with ⟨hi, -⟩ | hi
    · exact .inr (by simp at hi; simp [hi])
    · exact .inl hi
  · rw [hf i hi (Nat.ne_of_lt hlt), nodes_add_of_lt t k p hlt]

/-- The tree after an edit below its root pictures what the edited subtree reads as. -/
theorem Pictures.edited {t t' : Tree} {p p' : Program} {b b' : Subtree} (h : t.Pictures p b)
    (he : Edited t t' none b b') (hid : b'.id = b.id) (hp : b'.Reads (.program p')) :
    t'.Pictures p' b' :=
  ⟨he.holds, hid.trans (h.root.trans he.grows.root_eq.symm), he.nodup, hp⟩

end Tree

/-! ### Reading a subtree with a node replaced -/

namespace Subtree

theorem forall₂_exists_map {α β : Type} {R : α → β → Prop} {S : β → β → Prop} {f : α → α}
    {l : List α} {m : List β} (h : List.Forall₂ R l m)
    (hf : ∀ a ∈ l, ∀ b, R a b → ∃ b', R (f a) b' ∧ S b b') :
    ∃ m', List.Forall₂ R (l.map f) m' ∧ List.Forall₂ S m m' := by
  induction h with
  | nil => exact ⟨[], .nil, .nil⟩
  | cons hab _ ih =>
    obtain ⟨b', hb', hs⟩ := hf _ List.mem_cons_self _ hab
    obtain ⟨m', hm', hsm⟩ := ih fun a ha => hf a (List.mem_cons_of_mem _ ha)
    exact ⟨b' :: m', .cons hb' hm', .cons hs hsm⟩

/-- A relation that expressions pass on to those they are part of is passed on from a replaced node
to the whole. -/
theorem graft_isExpr {S : Expr → Expr → Prop}
    (hS : ∀ {e : Expr} {es : List Expr}, List.Forall₂ S e.parts es →
      ∃ e' : Expr, e'.kind = e.kind ∧ e'.parts = es ∧ S e e')
    {old : NodeId} {new b : Subtree} {e : Expr} (hb : b.IsExpr e)
    (hold : ∀ (c : Subtree) e, c.Within b → c.id = old → c.IsExpr e →
      ∃ e', new.IsExpr e' ∧ S e e') :
    ∃ e', (graft old new b).IsExpr e' ∧ S e e' := by
  induction b generalizing e with
  | node i k p cs ih =>
    rw [graft_node]
    split
    · next hi => exact hold _ e (.refl _) hi hb
    · obtain ⟨_, _, _, hnode, hcs⟩ := isExpr_iff.mp hb
      cases hnode
      obtain ⟨es, hcs', hs⟩ := forall₂_exists_map hcs fun c hc e hce =>
        ih c hc hce fun d e hd => hold d e (.child hc hd)
      obtain ⟨e', hk', rfl, hs'⟩ := hS hs
      exact ⟨e', isExpr_iff.mpr ⟨i, p, _, by rw [hk'], hcs'⟩, hs'⟩

end Subtree

end Classlet
