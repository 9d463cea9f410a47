import Classlet.Optimize
import Classlet.Proofs.Syntax.Edited
import Classlet.Proofs.Optimize.Knowledge

/-!
# Substitution in a tree

Facts *show* what is known if they name, for every known variable, a leaf of the tree with its
literal.  Replacing the reads of known variables below a node goes through the ids that were there
at the start; every step replaces a leaf, so the ids still to come are never lost (`Remaining`).  In
the end no read of a known variable is left, the expression is the one with the literals
substituted, and the number of reads replaced is the number of those that are gone
(`substitute_ok`).
-/

namespace Classlet

open Subtree

theorem Expr.parts_of_isLiteral {e : Expr} (h : e.isLiteral = true) : e.parts = [] := by
  cases e with
  | int | bool => rfl
  | _ => cases h

theorem Expr.substitute_of_isLiteral {e : Expr} (h : e.isLiteral = true) (F : Knowledge) :
    e.substitute F = e := by
  cases e with
  | int | bool => rfl
  | _ => cases h

theorem Expr.isLiteral_kind (e : Expr) : e.kind.isLiteral = e.isLiteral := by
  cases e <;> rfl

theorem Expr.eq_var_of_kind {e : Expr} {x : String} (h : e.kind = .varRef x) : e = .var x := by
  cases e <;> cases h
  rfl

theorem Subtree.IsExpr.kind_eq {b : Subtree} {e : Expr} (h : b.IsExpr e) : b.kind = e.kind := by
  obtain ⟨_, _, _, rfl, -⟩ := isExpr_iff.mp h
  rfl

theorem Tree.deepCopy_leaf {t : Tree} {i : NodeId} {n : Node} (h : t.nodes[i]? = some n)
    (hn : n.children = []) : t.deepCopy i = .ok (t.add n.kind n.position) := by
  obtain ⟨fuel, hfuel⟩ : ∃ fuel, t.stepLimit = fuel + 1 :=
    ⟨t.stepLimit - 1, by unfold stepLimit; omega⟩
  obtain ⟨k, p, above, cs⟩ := n
  subst hn
  rw [deepCopy, hfuel, copyWithin, node_eq_ok h]
  rfl

namespace Optimize

/-- For every known variable the tree has a leaf with its literal. -/
structure Facts.Shows (facts : Facts) (t : Tree) (F : Knowledge) : Prop where
  unknown : ∀ x, F x = Option.none → facts.literal? x = Option.none
  known : ∀ x e, F x = some e → e.isLiteral = true ∧ ∃ i n, facts.literal? x = some i ∧
    t.nodes[i]? = some n ∧ n.kind = e.kind ∧ n.children = []

variable {t t' : Tree} {parent : Option NodeId} {facts : Facts} {F : Knowledge}

theorem Facts.Shows.grows (h : facts.Shows t F) (hg : Tree.Grows t t') : facts.Shows t' F where
  unknown := h.unknown
  known := by
    intro x e hx
    obtain ⟨he, i, n, hl, hi, hk, hc⟩ := h.known x e hx
    obtain ⟨n', hi', hk', -, hc'⟩ := hg.keeps hi
    refine ⟨he, i, n', hl, hi', hk'.trans hk, ?_⟩
    rw [← List.length_eq_zero_iff, hc', hc, List.length_nil]

/-! ### One read -/

theorem substituteNode_known {id i : NodeId} {x : String} {n : Node}
    (hk : t.kind id = .ok (.varRef x)) (hl : facts.literal? x = some i)
    (hi : t.nodes[i]? = some n) (hn : n.children = [])
    (hr : (t.add n.kind n.position).2.replace id t.size = .ok t') :
    substituteNode facts id t = (.ok 1, t') := by
  have hcopy : Edit.step (fun t => t.deepCopy i) t = (.ok t.size, (t.add n.kind n.position).2) :=
    Edit.step_ok (Tree.deepCopy_leaf hi hn)
  rw [substituteNode, Edit.bind_ok (Edit.read_ok (f := fun t => t.kind id) hk)]
  simp only [hl]
  rw [Edit.bind_ok hcopy, Edit.bind_ok (Edit.replace_ok hr), Edit.pure_apply]

theorem substituteNode_other {id : NodeId} {k : Kind} (hk : t.kind id = .ok k)
    (hl : ∀ x, k = .varRef x → facts.literal? x = Option.none) :
    substituteNode facts id t = (.ok 0, t) := by
  rw [substituteNode, Edit.bind_ok (Edit.read_ok (f := fun t => t.kind id) hk)]
  split
  · next x =>
    rw [hl x rfl]
    rfl
  · rfl

/-! ### All reads -/

/-- The ids that are still to be looked at are different ones of the subtree, and among them are
those of all reads of known variables. -/
structure Remaining (F : Knowledge) (todo : List NodeId) (c : Subtree) : Prop where
  nodup : todo.Nodup
  subset : todo ⊆ c.ids
  reads : ∀ d : Subtree, d.Within c → ∀ x, d.kind = .varRef x → (F x).isSome = true → d.id ∈ todo

theorem remaining_ids {c : Subtree} (h : c.ids.Nodup) : Remaining F c.ids c :=
  ⟨h, fun _ hi => hi, fun d hd _ _ _ => hd.ids_subset d.id_mem_ids⟩

/-- Nothing is left to substitute where no read of a known variable is. -/
theorem Remaining.substitute_eq {c : Subtree} {e : Expr} (h : Remaining F [] c) (hc : c.IsExpr e) :
    e.substitute F = e := by
  have hreads : ∀ d : Subtree, d.Within c → ∀ x, d.kind = .varRef x → F x = none := by
    intro d hd x hx
    cases hF : F x with
    | none => rfl
    | some e => cases h.reads d hd x hx (by rw [hF]; rfl)
  clear h
  induction c generalizing e with
  | node i k p cs ih =>
    obtain ⟨_, _, _, hnode, hcs⟩ := isExpr_iff.mp hc
    cases hnode
    by_cases hvar : ∃ x, e = .var x
    · obtain ⟨x, rfl⟩ := hvar
      rw [Expr.substitute, hreads _ (.refl _) x rfl, Option.getD_none]
    · obtain ⟨hkind, hparts⟩ := e.substitute_of_parts F fun x hx => hvar ⟨x, hx⟩
      have hall : ∀ {ds : List Subtree} {es : List Expr}, List.Forall₂ IsExpr ds es → ds ⊆ cs →
          es.map (Expr.substitute F) = es := by
        intro ds es hds hsub
        induction hds with
        | nil => rfl
        | cons hd _ ihds =>
          have hmem := hsub List.mem_cons_self
          rw [List.map_cons, ih _ hmem hd fun d hd => hreads d (.child hmem hd),
            ihds fun _ h => hsub (List.mem_cons_of_mem _ h)]
      exact Expr.ext_parts hkind (hparts.trans (hall hcs fun _ h => h))

theorem exists_substitute_eq_of_parts {e : Expr} {es : List Expr}
    (h : List.Forall₂ (fun a a' : Expr => a'.substitute F = a.substitute F) e.parts es) :
    ∃ e' : Expr, e'.kind = e.kind ∧ e'.parts = es ∧ e'.substitute F = e.substitute F := by
  obtain ⟨e', hk, rfl⟩ := e.exists_of_parts h.length_eq.symm
  refine ⟨e', hk, rfl, ?_⟩
  by_cases hvar : ∃ x, e = .var x
  · obtain ⟨x, rfl⟩ := hvar
    rw [Expr.eq_var_of_kind hk]
  · have hvar' : ¬ ∃ x, e' = .var x := by
      rintro ⟨x, rfl⟩
      exact hvar ⟨x, Expr.eq_var_of_kind hk.symm⟩
    obtain ⟨hk₁, hp₁⟩ := e.substitute_of_parts F fun x hx => hvar ⟨x, hx⟩
    obtain ⟨hk₂, hp₂⟩ := e'.substitute_of_parts F fun x hx => hvar' ⟨x, hx⟩
    refine Expr.ext_parts (by rw [hk₁, hk₂, hk]) ?_
    rw [hp₁, hp₂]
    have hmap : ∀ {as bs : List Expr},
        List.Forall₂ (fun a a' : Expr => a'.substitute F = a.substitute F) as bs →
        bs.map (Expr.substitute F) = as.map (Expr.substitute F) := by
      intro as bs hab
      induction hab with
      | nil => rfl
      | cons ha _ ih => rw [List.map_cons, List.map_cons, ha, ih]
    exact hmap h

/-- Counting the nodes of the kinds that `q` picks shows how many reads are replaced. -/
structure CountsReads (q : Kind → Bool) : Prop where
  read : ∀ x, q (.varRef x) = true
  literal : ∀ k, k.isLiteral = true → q k = false

theorem CountsReads.count_var {q : Kind → Bool} (hq : CountsReads q) {b : Subtree} {x : String}
    (h : b.IsExpr (.var x)) : b.count q = 1 := by
  obtain ⟨i, p, cs, rfl, hcs⟩ := isExpr_iff.mp h
  obtain rfl := List.forall₂_nil_right_iff.mp hcs
  rw [count_node, countAll_nil, Expr.kind, hq.read]
  rfl

theorem CountsReads.count_literal {q : Kind → Bool} (hq : CountsReads q) {e : Expr}
    (he : e.isLiteral = true) (i : NodeId) (p : Position) :
    (Subtree.node i e.kind p []).count q = 0 := by
  rw [count_node, countAll_nil, hq.literal _ (e.isLiteral_kind.trans he)]
  rfl

/-! ### One step -/

section Read

variable {c : Subtree} {e l : Expr} {x : String} {id : NodeId}

theorem kind_eq_of_id_eq {above : Option NodeId} {d d' : Subtree} (h : t.Holds above c)
    (hd : d.Within c) (hd' : d'.Within c) (hid : d'.id = d.id) : d'.kind = d.kind := by
  obtain ⟨_, hheld⟩ := h.within hd
  obtain ⟨_, hheld'⟩ := h.within hd'
  have hkind := hheld'.kind_eq
  rw [hid, hheld.kind_eq] at hkind
  exact (Except.ok.inj hkind).symm

variable (hread : ∀ d : Subtree, d.Within c → d.id = id → d.IsExpr (.var x))
include hread

/-- Where a read is replaced by the literal that is known of its variable, substitution has the same
result. -/
theorem graft_literal_substitute (hc : c.IsExpr e) (hl : l.isLiteral = true) (hF : F x = some l)
    (i : NodeId) (p : Position) :
    ∃ e', (graft id (.node i l.kind p []) c).IsExpr e' ∧ e'.substitute F = e.substitute F := by
  refine graft_isExpr exists_substitute_eq_of_parts hc fun d e₀ hd hid he₀ => ?_
  obtain rfl : e₀ = .var x :=
    Expr.eq_var_of_kind (he₀.kind_eq.symm.trans (hread d hd hid).kind_eq)
  refine ⟨l, isExpr_leaf (Expr.parts_of_isLiteral hl) _ _, ?_⟩
  rw [Expr.substitute_of_isLiteral hl, Expr.substitute, hF, Option.getD_some]

theorem Remaining.graft_literal {todo : List NodeId} (hr : Remaining F (id :: todo) c)
    (hl : l.isLiteral = true) (i : NodeId) (p : Position) :
    Remaining F todo (graft id (.node i l.kind p []) c) := by
  have hleaf : ∀ d : Subtree, d.Within c → d.id = id → d.ids = [id] := by
    intro d hd hid
    obtain ⟨_, _, cs, rfl, hcs⟩ := isExpr_iff.mp (hread d hd hid)
    obtain rfl := List.forall₂_nil_right_iff.mp hcs
    rw [id_node] at hid
    simp [hid]
  refine ⟨hr.nodup.of_cons, fun j hj => ?_, fun d hd y hy hFy => ?_⟩
  · have hjid : j ≠ id := fun e => (List.nodup_cons.mp hr.nodup).1 (e ▸ hj)
    exact mem_ids_graft_of_leaf hleaf (hr.subset (List.mem_cons_of_mem _ hj)) hjid
  · rcases hd.of_graft with hd | ⟨⟨j, kd, pd, ds⟩, hd₀, hj, rfl⟩
    · cases hd with
      | refl =>
        rw [kind_node] at hy
        rw [Expr.eq_var_of_kind hy] at hl
        cases hl
      | child hc' => cases hc'
    · rw [id_node] at hj
      rw [graft_node, if_neg hj] at hy ⊢
      exact (List.mem_cons.mp (hr.reads _ hd₀ y hy hFy)).resolve_left hj

theorem CountsReads.count_graft_literal {q : Kind → Bool} (hq : CountsReads q) (hn : c.ids.Nodup)
    (hid : id ∈ c.ids) (hl : l.isLiteral = true) (i : NodeId) (p : Position) :
    1 + (graft id (.node i l.kind p []) c).count q = c.count q := by
  obtain ⟨d, hd, rfl⟩ := exists_within hid
  have hgraft := count_graft q (.node i l.kind p []) hn hd
  rw [hq.count_var (hread d hd rfl), hq.count_literal hl] at hgraft
  omega

end Read

section Child

variable {q : Kind → Bool} (hq : CountsReads q)
include hq

variable {i : NodeId} {k : Kind} {p : Position} (before : List Subtree) {after : List Subtree}

/-- **One step of the substitution** in a child that is an expression. -/
theorem substituteNode_step {c : Subtree} {e : Expr} {id : NodeId} {todo : List NodeId}
    (hb : t.Holds parent (.node i k p (before ++ c :: after)))
    (hn : (Subtree.node i k p (before ++ c :: after)).ids.Nodup) (hc : c.IsExpr e)
    (hF : facts.Shows t F) (hr : Remaining F (id :: todo) c) :
    ∃ n t' c' e', substituteNode facts id t = (.ok n, t') ∧
      Tree.Edited t t' parent (.node i k p (before ++ c :: after))
        (.node i k p (before ++ c' :: after)) ∧
      c'.IsExpr e' ∧ e'.substitute F = e.substitute F ∧ Remaining F todo c' ∧
      n + c'.count q = c.count q := by
  have hmem : c ∈ before ++ c :: after := by simp
  have hidc : id ∈ c.ids := hr.subset List.mem_cons_self
  have hct : t.Holds (some i) c := hb.child c hmem
  obtain ⟨d, hd, rfl⟩ := exists_within hidc
  have hkind : ∀ d' : Subtree, d'.Within c → d'.id = d.id → d'.kind = d.kind :=
    fun d' hd' hid => kind_eq_of_id_eq hct hd hd' hid
  obtain ⟨_, hheld⟩ := hct.within hd
  have hk : t.kind d.id = .ok d.kind := hheld.kind_eq
  by_cases hknown : ∃ x l, d.kind = .varRef x ∧ F x = some l
  · obtain ⟨x, l, hx, hl⟩ := hknown
    obtain ⟨hlit, j, m, hj, hm, hmk, hmc⟩ := hF.known x l hl
    have hread : ∀ d' : Subtree, d'.Within c → d'.id = d.id → d'.IsExpr (.var x) := by
      intro d' hd' hid
      obtain ⟨e', he'⟩ := hc.within hd'
      obtain rfl : e' = .var x := Expr.eq_var_of_kind (by rw [← he'.kind_eq, hkind d' hd' hid, hx])
      exact he'
    have hne : d.id ≠ i := fun e => not_mem_child hn hmem (e ▸ hidc)
    obtain ⟨t', ht', hedit⟩ :=
      Tree.edited_leaf hb hn (mem_ids_of_child hmem hidc) hne m.kind m.position
    rw [graft_in_child hn hidc, hmk] at hedit
    obtain ⟨e', he', hs⟩ := graft_literal_substitute hread hc hlit hl t.size m.position
    exact ⟨1, t', _, e', substituteNode_known (hx ▸ hk) hj hm hmc ht', hedit, he', hs,
      hr.graft_literal hread hlit _ _,
      hq.count_graft_literal hread (nodup_child hn hmem) hidc hlit _ _⟩
  · have hother : ∀ x, d.kind = .varRef x → F x = none := by
      intro x hx
      cases hFx : F x with
      | none => rfl
      | some l => exact absurd ⟨x, l, hx, hFx⟩ hknown
    refine ⟨0, t, c, e, substituteNode_other hk fun x hx => hF.unknown x (hother x hx),
      .refl hb hn, hc, rfl,
      ⟨hr.nodup.of_cons, fun j hj => hr.subset (List.mem_cons_of_mem _ hj), ?_⟩, Nat.zero_add _⟩
    intro d' hd' x hx hFx
    refine (List.mem_cons.mp (hr.reads d' hd' x hx hFx)).resolve_left fun hid' => ?_
    rw [hkind d' hd' hid'] at hx
    rw [hother x hx] at hFx
    cases hFx

theorem substituteNodes_ok {c : Subtree} {e : Expr} {todo : List NodeId} (n : Nat)
    (hb : t.Holds parent (.node i k p (before ++ c :: after)))
    (hn : (Subtree.node i k p (before ++ c :: after)).ids.Nodup) (hc : c.IsExpr e)
    (hF : facts.Shows t F) (hr : Remaining F todo c) :
    ∃ n' t' c',
      (todo.foldlM (fun n id => return n + (← substituteNode facts id)) n : Edit Nat) t
        = (.ok n', t') ∧
      Tree.Edited t t' parent (.node i k p (before ++ c :: after))
        (.node i k p (before ++ c' :: after)) ∧ c'.IsExpr (e.substitute F) ∧
      n' + c'.count q = n + c.count q := by
  induction todo generalizing t c e n with
  | nil => exact ⟨n, t, c, rfl, .refl hb hn, (hr.substitute_eq hc).symm ▸ hc, rfl⟩
  | cons id todo ih =>
    obtain ⟨m, t₁, c₁, e₁, hstep, hedit, hc₁, hs, hr₁, hcount⟩ :=
      substituteNode_step hq before hb hn hc hF hr
    obtain ⟨n', t', c', hrest, hedit', hc', hcount'⟩ :=
      ih (n + m) hedit.holds hedit.nodup hc₁ (hF.grows hedit.grows) hr₁
    refine ⟨n', t', c', ?_, hedit.trans hedit', hs ▸ hc', by omega⟩
    have hfirst : (do return n + (← substituteNode facts id) : Edit Nat) t = (.ok (n + m), t₁) := by
      rw [Edit.bind_ok hstep, Edit.pure_apply]
    rw [Edit.foldlM_cons_ok hfirst, hrest]

/-- **Substitution below a node**: a child that is an expression becomes the one with the literals
in the place of known variables, and nothing else changes. -/
theorem substitute_ok {c : Subtree} {e : Expr}
    (hb : t.Holds parent (.node i k p (before ++ c :: after)))
    (hn : (Subtree.node i k p (before ++ c :: after)).ids.Nodup) (hc : c.IsExpr e)
    (hF : facts.Shows t F) :
    ∃ facts' t' c', substitute facts c.id t = (.ok facts', t') ∧ facts'.Shows t' F ∧
      Tree.Edited t t' parent (.node i k p (before ++ c :: after))
        (.node i k p (before ++ c' :: after)) ∧ c'.IsExpr (e.substitute F) ∧
      facts'.replaced + c'.count q = facts.replaced + c.count q := by
  have hmem : c ∈ before ++ c :: after := by simp
  have hcn : c.ids.Nodup := nodup_child hn hmem
  obtain ⟨n, t', c', hfold, hedit, hc', hcount⟩ :=
    substituteNodes_ok hq before 0 hb hn hc hF (remaining_ids hcn)
  refine ⟨{ facts with replaced := facts.replaced + n }, t', c', ?_, ?_, hedit, hc', ?_⟩
  · have hids : t.descendants c.id = .ok c.ids := (hb.child c hmem).descendants_eq hcn
    rw [substitute, Edit.bind_ok (Edit.read_ok (f := fun t => t.descendants c.id) hids),
      Edit.bind_ok hfold, Edit.pure_apply]
  · have hF' := hF.grows hedit.grows
    exact ⟨hF'.unknown, hF'.known⟩
  · show facts.replaced + n + _ = _
    omega

end Child

end Optimize

end Classlet
