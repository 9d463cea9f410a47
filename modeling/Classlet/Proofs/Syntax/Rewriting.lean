import Classlet.Proofs.Syntax.Edited
import Classlet.Proofs.Syntax.Links

/-!
# Rewriting expressions to literals

One step of rewriting adds a literal and puts it into the place of an expression that a literal may
replace (`RewriteStep`).  Any number of such steps, in any order and anywhere in the array, keep a
tree `Sound`, and where they end every node that was there at the start has its kind and position;
in each of its slots is the child from the start, or a literal in the place of an expression that a
literal may replace (`Rewritten`).

* `RewriteStep.sound`, `Rewritten.step`: what one step keeps.
* `Rewrites.sound_rewritten`: what any number of steps keep.
* `Tree.Rewritten.subtree`: what the steps make of a subtree, in which all stays that is no
  expression (`Subtree.Rewritten.mem_ids`).
-/

namespace Classlet

open Subtree

/-- The kinds of the expressions that a literal may replace. -/
def Kind.isReplaceable : Kind → Bool
  | varRef _ | binary _ | unary .not | paren => true
  | _ => false

theorem Kind.isReplaceable_of_isLiteral {k : Kind} (h : k.isLiteral = true) :
    k.isReplaceable = false := by
  cases k with
  | intLit | boolLit => rfl
  | _ => cases h

theorem Kind.isExpression_of_isReplaceable {k : Kind} (h : k.isReplaceable = true) :
    k.isExpression = true := by
  cases k with
  | varRef | binary | unary | paren => rfl
  | _ => cases h

namespace Tree

variable {t t₁ t' : Tree} {i : NodeId} {n : Node}

/-- The tree is well linked, its root stays, and its literals are leaves. -/
structure Sound (t : Tree) : Prop where
  linked : t.WellLinked
  root_kept : ∀ {n : Node}, t.nodes[t.root]? = some n → n.kind.isReplaceable = false
  leaf : ∀ {i : NodeId} {n : Node}, t.nodes[i]? = some n → n.kind.isLiteral = true →
    n.children = []

/-- A new literal gets into the place of an expression that a literal may replace. -/
inductive RewriteStep (t t' : Tree) : Prop where
  | intro {old : NodeId} {n : Node} {literal : Kind} {position : Position}
      (here : t.nodes[old]? = some n) (replaceable : n.kind.isReplaceable = true)
      (isLiteral : literal.isLiteral = true)
      (replaced : (t.add literal position).2.replace old t.size = .ok t')

/-- Any number of steps. -/
def Rewrites : Tree → Tree → Prop := Relation.ReflTransGen RewriteStep

/-- The slot of a child `c` holds `c` still, or a literal instead. -/
def Slot (t t' : Tree) (c c' : NodeId) : Prop :=
  c' = c ∨ (∃ n, t.nodes[c]? = some n ∧ n.kind.isReplaceable = true) ∧ t.size ≤ c' ∧
    ∃ n', t'.nodes[c']? = some n' ∧ n'.kind.isLiteral = true ∧ n'.children = []

/-- From `t` to `t'` some expressions were replaced by literals, and all else stayed.  An expression
that was replaced has no parent any more. -/
structure Rewritten (t t' : Tree) : Prop where
  root_eq : t'.root = t.root
  size_le : t.size ≤ t'.size
  keeps : ∀ {i : NodeId} {n : Node}, t.nodes[i]? = some n → ∃ n', t'.nodes[i]? = some n' ∧
    n'.kind = n.kind ∧ n'.position = n.position ∧
    (n'.parent = n.parent ∨ n.kind.isReplaceable = true ∧ n'.parent = none) ∧
    List.Forall₂ (t.Slot t') n.children n'.children

/-! ### One step -/

theorem Sound.exists_splices (h : t.Sound) {old : NodeId} {k : Kind} {p : Position}
    (hn : t.nodes[old]? = some n) (hk : n.kind.isReplaceable = true)
    (hr : (t.add k p).2.replace old t.size = .ok t') :
    ∃ q slot, (t.add k p).2.Splices t' old t.size q slot := by
  refine (replace_ok_inv hr).resolve_right fun hroot => ?_
  have hkept := h.root_kept (hroot.1 ▸ hn)
  rw [hk] at hkept
  cases hkept

theorem RewriteStep.grows (hs : t.RewriteStep t') (h : t.Sound) : Grows t t' := by
  obtain ⟨hn, hk, -, hr⟩ := hs
  obtain ⟨q, slot, hsplices⟩ := h.exists_splices hn hk hr
  exact (grows_add t _ _).trans hsplices.grows

/-- **A step keeps a tree sound.** -/
theorem RewriteStep.sound (hs : t.RewriteStep t') (h : t.Sound) : t'.Sound := by
  have hg := hs.grows h
  obtain @⟨old, n, l, p, hn, hk, hl, hr⟩ := hs
  obtain ⟨q, slot, hsplices⟩ := h.exists_splices hn hk hr
  have hlt : old < t.size := (Array.getElem?_eq_some_iff.mp hn).1
  have hnew : (t.add l p).2.nodes[t.size]? = some ⟨l, p, none, []⟩ := by
    rw [getElem?_nodes_add, if_pos rfl]
  refine ⟨(h.linked.add l p).replace hr ?_ fun hpath => ?_, fun {m'} hm' => ?_,
    fun {i m'} hm' hlit => ?_⟩
  · obtain ⟨r, hr₀, -⟩ := h.linked.root
    exact Nat.ne_of_gt (Array.getElem?_eq_some_iff.mp hr₀).1
  · -- the new node is a leaf, and it is not `old`
    rcases hpath.cases_head with e | ⟨c, ⟨m, hm, hc⟩, -⟩
    · exact Nat.ne_of_gt hlt e
    · cases hnew.symm.trans hm
      cases hc
  · obtain ⟨r, hr₀, -⟩ := h.linked.root
    obtain ⟨r', hr', hkind, -⟩ := hg.keeps hr₀
    rw [hg.root_eq] at hm'
    cases hr'.symm.trans hm'
    rw [hkind]
    exact h.root_kept hr₀
  · obtain ⟨m, hm, rfl⟩ := Option.map_eq_some_iff.mp ((hsplices.nodes_eq i).symm.trans hm')
    have hchildren : m.children = [] := by
      rw [getElem?_nodes_add] at hm
      split at hm
      · cases hm
        rfl
      · exact h.leaf hm hlit
    simp only [hchildren, List.set_nil, ite_self]

theorem forall₂_set {α β : Type} {R S : α → β → Prop} {l : List α} {m : List β} {b : β} {slot : Nat}
    (h : List.Forall₂ R l m) (hRS : ∀ a c, R a c → S a c)
    (hb : ∀ a ∈ l, ∀ c, m[slot]? = some c → R a c → S a b) :
    List.Forall₂ S l (m.set slot b) := by
  induction h generalizing slot with
  | nil => exact .nil
  | cons hac hrest ih =>
    cases slot with
    | zero => exact .cons (hb _ List.mem_cons_self _ rfl hac) (hrest.imp hRS)
    | succ slot => exact .cons (hRS _ _ hac) (ih fun a ha => hb a (List.mem_cons_of_mem _ ha))

theorem Slot.refl (t t' : Tree) (c : NodeId) : t.Slot t' c c := .inl rfl

theorem Rewritten.refl (t : Tree) : Rewritten t t :=
  ⟨rfl, Nat.le_refl _, fun {_ n} h => ⟨n, h, rfl, rfl, .inl rfl,
    List.forall₂_same.mpr fun c _ => .refl t t c⟩⟩

theorem Slot.grows {c c' : NodeId} (h : t.Slot t₁ c c') (hg : Grows t₁ t') : t.Slot t' c c' := by
  refine h.imp_right fun ⟨hc, hle, n, hn, hlit, hleaf⟩ => ⟨hc, hle, ?_⟩
  obtain ⟨n', hn', hkind, -, hlen⟩ := hg.keeps hn
  refine ⟨n', hn', hkind ▸ hlit, List.length_eq_zero_iff.mp ?_⟩
  rw [hlen, hleaf, List.length_nil]

/-- **A step after others.** -/
theorem Rewritten.step (h : t.Rewritten t₁) (hs : t₁.RewriteStep t') (h₁ : t₁.Sound)
    (ht : t.WellLinked) : t.Rewritten t' := by
  have hg := hs.grows h₁
  obtain @⟨old, m, l, p, hm, hk, hl, hr⟩ := hs
  obtain ⟨q, slot, hsplices⟩ := h₁.exists_splices hm hk hr
  refine ⟨hg.root_eq.trans h.root_eq, Nat.le_trans h.size_le hg.size_le, fun {i n} hn => ?_⟩
  obtain ⟨n₁, hn₁, hkind, hpos, hparent, hslots⟩ := h.keeps hn
  have hlt : i < t₁.size := (Array.getElem?_eq_some_iff.mp hn₁).1
  have hn' := (hsplices.nodes_eq i).trans (congrArg _ ((nodes_add_of_lt t₁ l p hlt).trans hn₁))
  obtain ⟨new, hnew, hnewKind, hleaf⟩ :
      ∃ n', t'.nodes[t₁.size]? = some n' ∧ n'.kind = l ∧ n'.children = [] := by
    have hadd : (t₁.add l p).2.nodes[t₁.size]? = some ⟨l, p, none, []⟩ := by
      rw [getElem?_nodes_add, if_pos rfl]
    refine ⟨_, (hsplices.nodes_eq _).trans (congrArg _ hadd), rfl, ?_⟩
    simp only [List.set_nil, ite_self]
  refine ⟨_, hn', hkind, hpos, ?_, ?_⟩
  · simp only [if_neg (Nat.ne_of_lt hlt)]
    split
    · next hio =>
      cases (hio ▸ hn₁).symm.trans hm
      exact .inr ⟨hkind ▸ hk, rfl⟩
    · exact hparent
  · show List.Forall₂ (t.Slot t') n.children
      (if i = q then n₁.children.set slot t₁.size else n₁.children)
    split
    swap
    · exact hslots.imp fun _ _ hc => Slot.grows hc hg
    next hiq =>
    obtain ⟨above, habove, hslot⟩ := hsplices.slot_eq
    rw [← hiq, nodes_add_of_lt t₁ l p hlt, hn₁] at habove
    cases habove
    obtain ⟨hbound, hold, -⟩ := List.idxOf?_eq_some_iff.mp hslot
    refine forall₂_set hslots (fun _ _ hc => Slot.grows hc hg) fun c hmem c₁ hc₁ hc => .inr ?_
    obtain rfl : old = c₁ := by
      rw [List.getElem?_eq_getElem hbound, hold] at hc₁
      exact Option.some.inj hc₁
    -- a literal is not replaced, so the slot still held the child from the start
    rcases hc with rfl | ⟨-, -, m₁, hm₁, hlit, -⟩
    · obtain ⟨m₀, hm₀, -⟩ := ht.parent_eq ⟨n, hn, hmem⟩
      obtain ⟨m₁, hm₁, hkind₁, -⟩ := h.keeps hm₀
      cases hm.symm.trans hm₁
      exact ⟨⟨m₀, hm₀, hkind₁ ▸ hk⟩, h.size_le, new, hnew, hnewKind ▸ hl, hleaf⟩
    · cases hm.symm.trans hm₁
      rw [Kind.isReplaceable_of_isLiteral hlit] at hk
      cases hk

/-! ### Any number of steps -/

/-- **Any number of steps** keep a tree sound, and only replace expressions by literals. -/
theorem Rewrites.sound_rewritten (h : t.Rewrites t') (ht : t.Sound) :
    t'.Sound ∧ t.Rewritten t' := by
  induction h with
  | refl => exact ⟨ht, .refl t⟩
  | tail _ hstep ih => exact ⟨hstep.sound ih.1, ih.2.step hstep ih.1 ht.linked⟩

end Tree

/-! ### What the steps make of a subtree -/

/-- The subtrees have the same nodes, but for expressions that were replaced by literals. -/
inductive Subtree.Rewritten : Subtree → Subtree → Prop
  | kept {i : NodeId} {k : Kind} {p : Position} {cs cs' : List Subtree}
      (below : List.Forall₂ Rewritten cs cs') : Rewritten (.node i k p cs) (.node i k p cs')
  | replaced {b : Subtree} {j : NodeId} {l : Kind} {q : Position}
      (hb : b.kind.isReplaceable = true) (hl : l.isLiteral = true) :
      Rewritten b (.node j l q [])

theorem Tree.Rewritten.subtree {t t' : Tree} (h : t.Rewritten t') {above above' : Option NodeId}
    {b b' : Subtree} (hb : t.Holds above b) (hb' : t'.Holds above' b') (hid : b'.id = b.id) :
    b.Rewritten b' := by
  induction b generalizing above above' b' with
  | node i k p cs ih =>
    obtain ⟨i', k', p', cs'⟩ := b'
    obtain rfl : i' = i := hid
    obtain ⟨n', hn', hkind, hpos, -, hslots⟩ := h.keeps hb.here
    cases hb'.here.symm.trans hn'
    obtain rfl : k' = k := hkind
    obtain rfl : p' = p := hpos
    rw [List.forall₂_map_left_iff, List.forall₂_map_right_iff] at hslots
    refine .kept ?_
    rw [List.forall₂_iff_get] at hslots ⊢
    refine ⟨hslots.1, fun m hm hm' => ?_⟩
    have hc := hb.child _ (List.get_mem cs ⟨m, hm⟩)
    have hc' := hb'.child _ (List.get_mem cs' ⟨m, hm'⟩)
    rcases hslots.2 m hm hm' with hsame | ⟨⟨n, hn, hk⟩, -, n', hn', hl, hleaf⟩
    · exact ih _ (List.get_mem cs ⟨m, hm⟩) hc hc' hsame
    · generalize cs.get ⟨m, hm⟩ = c at hc hn
      generalize cs'.get ⟨m, hm'⟩ = c' at hc' hn'
      obtain ⟨j, l, q, ds⟩ := c
      obtain ⟨j', l', q', ds'⟩ := c'
      cases hn.symm.trans hc.here
      cases hn'.symm.trans hc'.here
      cases List.map_eq_nil_iff.mp hleaf
      exact .replaced hk hl

namespace Subtree

theorem IsExpr.isExpression {b : Subtree} {e : Expr} (h : b.IsExpr e) :
    b.kind.isExpression = true := by
  rw [Reads.kind_eq h, Part.isExpression_kind]
  rfl

theorem Reads.exists_isExpr {b : Subtree} {part : Part} (h : b.Reads part)
    (hk : b.kind.isExpression = true) : ∃ e, b.IsExpr e := by
  rw [h.kind_eq, Part.isExpression_kind, Option.isSome_iff_exists] at hk
  obtain ⟨e, he⟩ := hk
  obtain rfl := Part.expr?_eq_some.mp he
  exact ⟨e, h⟩

/-- **What is no expression stays.** -/
theorem Rewritten.mem_ids {b b' d : Subtree} {part : Part} (h : b.Rewritten b') (hb : b.Reads part)
    (hd : d.Within b) (hk : d.kind.isExpression = false) : d.id ∈ b'.ids := by
  induction hd generalizing b' part with
  | refl =>
    cases h with
    | kept below => exact id_mem_ids _
    | replaced hb' _ =>
      rw [Kind.isExpression_of_isReplaceable hb'] at hk
      cases hk
  | child hc hd ih =>
    cases h with
    | kept below =>
      obtain ⟨c', hc', hrewritten⟩ := forall₂_of_mem_left below hc
      obtain ⟨-, hcs⟩ := reads_node_iff.mp hb
      obtain ⟨q, hq⟩ := forall₂_of_mem hcs hc
      exact mem_ids_of_child hc' (ih hrewritten hq)
    | replaced hb' _ =>
      -- nothing but expressions is inside an expression
      obtain ⟨e, he⟩ := hb.exists_isExpr (Kind.isExpression_of_isReplaceable hb')
      obtain ⟨e', he'⟩ := IsExpr.within he (.child hc hd)
      rw [he'.isExpression] at hk
      cases hk

end Subtree

end Classlet
