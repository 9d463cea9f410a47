import Classlet.Optimize
import Classlet.Proofs.Syntax.Edited
import Classlet.Proofs.Optimize.Simplification
import Mathlib.Data.List.Induction

/-!
# Folding a tree

The nodes of the tree are folded one by one, every node after the nodes below it.  So when it is the
turn of a node, its children are simplified already, and the nodes above it are as they were:
whether the node collapses depends on the kinds of its children, and on whether it is the condition
of a loop (`foldable?_eq`).  In the end the tree is the simplified one, and the number of nodes
folded is the number of operations and parentheses that are gone (`foldConstants_ok`).
-/

namespace Classlet

open Optimize

/-! ### Simplified subtrees -/

namespace Subtree

mutual

/-- The simplified subtree. -/
def simplify (inCondition : Bool) : Subtree → Subtree
  | .node id kind position children =>
    let children := simplifyFrom kind inCondition 0 children
    match collapse? inCondition kind (children.map Subtree.kind) with
    | some literal => .node id literal position []
    | none => .node id kind position children

/-- The simplified children of a node from a slot on. -/
def simplifyFrom (kind : Kind) (inCondition : Bool) : Nat → List Subtree → List Subtree
  | _, [] => []
  | slot, b :: rest =>
    b.simplify (conditionSlot kind inCondition slot)
      :: simplifyFrom kind inCondition (slot + 1) rest

end

theorem simplifyFrom_eq (k : Kind) (inCondition : Bool) (n : Nat) (cs : List Subtree) :
    simplifyFrom k inCondition n cs
      = cs.mapIdx fun slot b => b.simplify (conditionSlot k inCondition (n + slot)) := by
  induction cs generalizing n with
  | nil => rfl
  | cons c cs ih =>
    rw [simplifyFrom, ih, List.mapIdx_cons]
    simp only [Nat.add_assoc, Nat.add_comm 1, Nat.add_zero]

/-- The simplified children of a node. -/
def simplifyAll (k : Kind) (inCondition : Bool) (cs : List Subtree) : List Subtree :=
  cs.mapIdx fun slot b => b.simplify (conditionSlot k inCondition slot)

theorem simplify_node (inCondition : Bool) (i : NodeId) (k : Kind) (p : Position)
    (cs : List Subtree) : (node i k p cs).simplify inCondition
      = match collapse? inCondition k ((simplifyAll k inCondition cs).map kind) with
        | some literal => node i literal p []
        | none => node i k p (simplifyAll k inCondition cs) := by
  rw [simplify, simplifyFrom_eq]
  simp only [Nat.zero_add]
  rfl

theorem simplifyAll_concat (k : Kind) (inCondition : Bool) (cs : List Subtree) (c : Subtree) :
    simplifyAll k inCondition (cs ++ [c]) = simplifyAll k inCondition cs
      ++ [c.simplify (conditionSlot k inCondition cs.length)] :=
  List.mapIdx_concat

end Subtree

/-- The simplified part. -/
def Part.simplify (inCondition : Bool) : Part → Part
  | .expr e => .expr (e.simplify inCondition)
  | .stmt s => .stmt s.simplify
  | .method m => .method m.simplify
  | .classDecl c => .classDecl c.simplify
  | .program p => .program p.simplify
  | part => part

theorem forall₂_mapIdx {α β : Type} {R : α → β → Prop} {f : Nat → α → α} {g : Nat → β → β}
    {as : List α} {bs : List β} (h : List.Forall₂ R as bs)
    (hfg : ∀ n, ∀ a ∈ as, ∀ b, R a b → R (f n a) (g n b)) :
    List.Forall₂ R (as.mapIdx f) (bs.mapIdx g) := by
  induction h generalizing f g with
  | nil => exact .nil
  | cons hab _ ih =>
    rw [List.mapIdx_cons, List.mapIdx_cons]
    exact .cons (hfg 0 _ List.mem_cons_self _ hab)
      (ih fun n a ha => hfg (n + 1) a (List.mem_cons_of_mem _ ha))

theorem mapIdx_const {α β : Type} (f : α → β) (as : List α) :
    as.mapIdx (fun _ a => f a) = as.map f := by
  induction as with
  | nil => rfl
  | cons a as ih => rw [List.mapIdx_cons, ih, List.map_cons]

namespace Part

/-- What becomes of the parts of a part. -/
def simplifyAll (k : Kind) (inCondition : Bool) (parts : List Part) : List Part :=
  parts.mapIdx fun slot part => part.simplify (conditionSlot k inCondition slot)

theorem simplifyAll_of_not_while {k : Kind} (hk : k ≠ .whileStmt) (inCondition : Bool)
    (parts : List Part) :
    simplifyAll k inCondition parts = parts.map (simplify (conditionSlot k inCondition 0)) := by
  unfold simplifyAll
  rw [← mapIdx_const]
  congr 1
  funext slot part
  cases k <;> first | rfl | exact absurd rfl hk

theorem simplify_of_not_expr {part : Part} (h : part.expr? = none) (inCondition : Bool) :
    (part.simplify inCondition).kind = part.kind ∧
      (part.simplify inCondition).parts = simplifyAll part.kind inCondition part.parts := by
  cases part with
  | expr e => cases h
  | stmt s =>
    cases s with
    | ret value => cases value <;> exact ⟨rfl, rfl⟩
    | block body =>
      refine ⟨rfl, ?_⟩
      rw [simplifyAll_of_not_while (k := (Part.stmt (.block body)).kind) (by rintro ⟨⟩)]
      simp only [simplify, Part.parts, Stmt.simplify, Stmt.parts, Stmt.simplifyAll_eq, List.map_map]
      rfl
    | _ => exact ⟨rfl, rfl⟩
  | method m =>
    refine ⟨rfl, ?_⟩
    rw [simplifyAll_of_not_while (k := (Part.method m).kind) (by rintro ⟨⟩)]
    simp only [simplify, Part.parts, MethodDecl.parts, MethodDecl.simplify, List.map_append,
      List.map_map]
    rfl
  | classDecl c =>
    refine ⟨rfl, ?_⟩
    rw [simplifyAll_of_not_while (k := (Part.classDecl c).kind) (by rintro ⟨⟩)]
    simp only [simplify, Part.parts, ClassDecl.parts, ClassDecl.simplify, List.map_append,
      List.map_map]
    rfl
  | program p =>
    refine ⟨rfl, ?_⟩
    rw [simplifyAll_of_not_while (k := (Part.program p).kind) (by rintro ⟨⟩)]
    simp only [simplify, Part.parts, Program.parts, Program.simplify, List.map_append, List.map_map]
    rfl
  | _ => exact ⟨rfl, rfl⟩

theorem isCompound_kind {part : Part} (h : part.expr? = none) : isCompound part.kind = false := by
  cases part with
  | expr e => cases h
  | stmt s => cases s <;> rfl
  | _ => rfl

end Part

/-- **A simplified subtree reads as the simplified part.** -/
theorem Subtree.Reads.simplify {b : Subtree} {part : Part} (h : b.Reads part) (inCondition : Bool) :
    (b.simplify inCondition).Reads (part.simplify inCondition) := by
  induction b generalizing part inCondition with
  | node i k p cs ih =>
    obtain ⟨rfl, hcs⟩ := reads_node_iff.mp h
    have hcs' : List.Forall₂ Reads (simplifyAll part.kind inCondition cs)
        (Part.simplifyAll part.kind inCondition part.parts) :=
      forall₂_mapIdx hcs fun n c hc q hq => ih c hc hq _
    have hkinds : (simplifyAll part.kind inCondition cs).map kind
        = (Part.simplifyAll part.kind inCondition part.parts).map Part.kind := by
      generalize simplifyAll part.kind inCondition cs = ds at hcs'
      generalize Part.simplifyAll part.kind inCondition part.parts = qs at hcs'
      induction hcs' with
      | nil => rfl
      | cons hd _ ihd => rw [List.map_cons, List.map_cons, hd.kind_eq, ihd]
    rw [simplify_node, hkinds]
    by_cases he : ∃ e, part = .expr e
    · obtain ⟨e, rfl⟩ := he
      obtain ⟨e₁, hs, hk, hp⟩ := e.simplify_eq inCondition
      have hparts : Part.simplifyAll e.kind inCondition (Part.expr e).parts
          = e₁.parts.map .expr := by
        rw [Part.simplifyAll_of_not_while (by cases e <;> nofun), hp]
        simp only [Part.parts, List.map_map]
        rfl
      have hmap : (e₁.parts.map Part.expr).map Part.kind = e₁.parts.map Expr.kind := by
        rw [List.map_map]
        rfl
      simp only [Part.kind, Part.simplify] at hcs' ⊢
      rw [hparts] at hcs' ⊢
      rw [hmap, hs, ← hk]
      rcases e₁.collapse_cases inCondition with ⟨hc, he₁⟩ | ⟨l, hc, -, hkind, hnil⟩
      · rw [hc, he₁]
        exact reads_node_iff.mpr ⟨rfl, hk ▸ hcs'⟩
      · rw [hc]
        exact hkind ▸ isExpr_leaf hnil i p
    · have hnone : part.expr? = none := by
        cases part with
        | expr e => exact absurd ⟨e, rfl⟩ he
        | _ => rfl
      obtain ⟨hk, hp⟩ := Part.simplify_of_not_expr hnone inCondition
      rw [collapse?_eq_none (Part.isCompound_kind hnone)]
      exact reads_node_iff.mpr ⟨hk.symm, hp ▸ hcs'⟩

namespace Optimize

open Subtree

variable {t t₁ : Tree} {parent : Option NodeId}

/-! ### Conditions of loops -/

/-- The topmost node of the subtree is the condition of a loop, seen through parentheses, or it is
not.  To find that out takes at most `depth` steps up, and nothing below the node matters. -/
def ConditionAt (t : Tree) (parent : Option NodeId) (b : Subtree) (depth : Nat)
    (inCondition : Bool) : Prop :=
  ∀ t' : Tree, (∀ i, i ∉ b.ids → i < t.size → t'.nodes[i]? = t.nodes[i]?) →
    (∃ n, t'.nodes[b.id]? = some n ∧ n.parent = parent) →
    ∀ fuel, depth ≤ fuel → isLoopConditionWithin t' fuel b.id = .ok inCondition

theorem conditionAt_root (t : Tree) (b : Subtree) : ConditionAt t none b 1 false := by
  rintro t' - ⟨n, hn, hp⟩ fuel hf
  obtain ⟨fuel, rfl⟩ : ∃ m, fuel = m + 1 := ⟨fuel - 1, by omega⟩
  rw [isLoopConditionWithin, Tree.parent_eq_ok hn, hp]
  rfl

/-- Whether a child is the condition of a loop depends on its slot. -/
theorem ConditionAt.child {i : NodeId} {k : Kind} {p : Position} {before after : List Subtree}
    {c : Subtree} {depth : Nat} {inCondition : Bool}
    (h : ConditionAt t parent (.node i k p (before ++ c :: after)) depth inCondition)
    (hb : t.Holds parent (.node i k p (before ++ c :: after)))
    (hn : (Subtree.node i k p (before ++ c :: after)).ids.Nodup) :
    ConditionAt t (some i) c (depth + 1) (conditionSlot k inCondition before.length) := by
  rintro t' hframe ⟨n, hc, hp⟩ fuel hf
  obtain ⟨fuel, rfl⟩ : ∃ m, fuel = m + 1 := ⟨fuel - 1, by omega⟩
  have hmem : c ∈ before ++ c :: after := by simp
  have hi : t'.nodes[i]? = some ⟨k, p, parent, (before ++ c :: after).map Subtree.id⟩ := by
    rw [hframe i (not_mem_child hn hmem) (hb.lt_size (by simp)), hb.here]
  have habove : isLoopConditionWithin t' fuel i = .ok inCondition := by
    refine h t' (fun j hj hlt => hframe j (fun hjc => hj (mem_ids_of_child hmem hjc)) hlt)
      ⟨_, hi, rfl⟩ fuel (by omega)
  rw [isLoopConditionWithin, Tree.parent_eq_ok hc, hp]
  simp only [bind, Except.bind, Tree.kind_eq_ok hi, Tree.children_eq_ok hi]
  cases k with
  | paren => exact habove
  | whileStmt =>
    -- the first child is another one unless nothing stands before this one
    have hhead : ((before ++ c :: after).map Subtree.id).head? = some c.id ↔ before = [] := by
      cases before with
      | nil => simp
      | cons d before =>
        rw [ids_node, List.nodup_cons] at hn
        have hids := nodup_map_id hn.2
        rw [List.cons_append, List.map_cons, List.nodup_cons] at hids
        have hne : d.id ≠ c.id := fun e => hids.1 (by simp [e])
        simp [hne]
    simp only [hhead, conditionSlot, pure, Except.pure]
    cases before <;> simp
  | _ => rfl

theorem ConditionAt.edited {b b₁ : Subtree} {depth : Nat} {inCondition : Bool}
    (h : ConditionAt t parent b depth inCondition) (he : Tree.Edited t t₁ parent b b₁)
    (hid : b₁.id = b.id) : ConditionAt t₁ parent b₁ depth inCondition := by
  intro t' hframe htop fuel hf
  rw [hid] at htop ⊢
  refine h t' (fun i hi hlt => ?_) htop fuel hf
  have hi₁ : i ∉ b₁.ids := fun hmem => by
    rcases he.ids i hmem with hmem | hle
    · exact hi hmem
    · exact absurd hlt (Nat.not_lt.mpr hle)
  rw [hframe i hi₁ (Nat.lt_of_lt_of_le hlt he.grows.size_le), he.frame i hi hlt]

theorem ConditionAt.isLoopCondition_eq {b : Subtree} {depth : Nat} {inCondition : Bool}
    (h : ConditionAt t parent b depth inCondition) (hb : t.Holds parent b)
    (hd : depth ≤ t.stepLimit) : isLoopCondition t b.id = .ok inCondition := by
  obtain ⟨i, k, p, cs⟩ := b
  exact h t (fun _ _ _ => rfl) ⟨_, hb.here, rfl⟩ _ hd

/-! ### One node -/

theorem childKind_ok {i : NodeId} {k : Kind} {p : Position} {cs : List Subtree}
    (h : t.Holds parent (.node i k p cs)) {j : Nat} {c : Subtree} (hc : cs[j]? = some c) :
    childKind t i j = .ok c.kind := by
  rw [childKind, h.child_eq hc]
  exact (h.child c (List.mem_of_getElem? hc)).kind_eq

theorem foldable?_binary {i : NodeId} {p : Position} {cs : List Subtree} {op : BinaryOp}
    {inCondition : Bool} (h : t.Holds parent (.node i (.binary op) p cs)) (hlen : cs.length = 2)
    (hloop : isLoopCondition t i = .ok inCondition) :
    foldable? t i = .ok (collapse? inCondition (.binary op) (cs.map Subtree.kind)) := by
  obtain ⟨c, d, rfl⟩ := List.length_eq_two.mp hlen
  have hkind : t.kind i = .ok (.binary op) := h.kind_eq
  have hc : childKind t i 0 = .ok c.kind := childKind_ok h rfl
  have hd : childKind t i 1 = .ok d.kind := childKind_ok h rfl
  unfold foldable?
  generalize isLoopCondition t i = loop at hloop ⊢
  subst hloop
  rw [hkind, hc, hd, List.map_cons, List.map_cons, List.map_nil]
  generalize c.kind = kc
  generalize d.kind = kd
  simp only [bind, Except.bind]
  split
  · next a b =>
    rw [collapse?]
    by_cases hop : op = .lt
    · rw [hop, if_pos rfl]
      cases inCondition <;> rfl
    · rw [if_neg hop, if_neg fun hlt => hop hlt.1]
      rfl
  · rfl
  · next hints hbools =>
    cases hl : collapse? inCondition (.binary op) [kc, kd] with
    | none => rfl
    | some l =>
      rcases collapse?_cases hl with ⟨_, a, b, -, hks, -⟩ | ⟨_, a, b, -, hks, -⟩ | ⟨_, hk, -⟩ |
        ⟨hk, -⟩
      · cases hks
        exact (hints a b rfl rfl).elim
      · cases hks
        exact (hbools a b rfl rfl).elim
      · cases hk
      · cases hk

theorem foldable?_unary {i : NodeId} {p : Position} {cs : List Subtree} {op : UnaryOp}
    (inCondition : Bool) (h : t.Holds parent (.node i (.unary op) p cs)) (hlen : cs.length = 1) :
    foldable? t i = .ok (collapse? inCondition (.unary op) (cs.map Subtree.kind)) := by
  obtain ⟨c, rfl⟩ := List.length_eq_one_iff.mp hlen
  have hkind : t.kind i = .ok (.unary op) := h.kind_eq
  have hc : childKind t i 0 = .ok c.kind := childKind_ok h rfl
  unfold foldable?
  generalize isLoopCondition t i = loop
  rw [hkind, hc, List.map_cons, List.map_nil]
  generalize c.kind = kc
  cases op with
  | neg => rfl
  | not =>
    simp only [bind, Except.bind]
    split
    · rfl
    · next hbools =>
      cases hl : collapse? inCondition (.unary .not) [kc] with
      | none => rfl
      | some l =>
        rcases collapse?_cases hl with
          ⟨_, _, _, hk, -⟩ | ⟨_, _, _, hk, -⟩ | ⟨b, -, hks, -⟩ | ⟨hk, -⟩
        · cases hk
        · cases hk
        · cases hks
          exact (hbools b rfl).elim
        · cases hk

theorem foldable?_paren {i : NodeId} {p : Position} {cs : List Subtree} (inCondition : Bool)
    (h : t.Holds parent (.node i .paren p cs)) (hlen : cs.length = 1) :
    foldable? t i = .ok (collapse? inCondition .paren (cs.map Subtree.kind)) := by
  obtain ⟨c, rfl⟩ := List.length_eq_one_iff.mp hlen
  have hkind : t.kind i = .ok .paren := h.kind_eq
  have hc : childKind t i 0 = .ok c.kind := childKind_ok h rfl
  unfold foldable?
  generalize isLoopCondition t i = loop
  rw [hkind, hc, List.map_cons, List.map_nil]
  rfl

theorem foldable?_other {i : NodeId} {k : Kind} (h : t.kind i = .ok k) (hk : isCompound k = false) :
    foldable? t i = .ok none := by
  unfold foldable?
  generalize isLoopCondition t i = loop
  rw [h]
  cases k with
  | binary | unary | paren => cases hk
  | _ => rfl

/-- **What a node collapses to is decided by the kinds of its children.** -/
theorem foldable?_eq {i : NodeId} {p : Position} {cs : List Subtree} {part : Part}
    {inCondition : Bool} (h : t.Holds parent (.node i part.kind p cs))
    (hlen : cs.length = part.parts.length) (hloop : isLoopCondition t i = .ok inCondition) :
    foldable? t i = .ok (collapse? inCondition part.kind (cs.map Subtree.kind)) := by
  by_cases hk : isCompound part.kind = true
  · cases part with
    | expr e =>
      cases e with
      | binary op l r => exact foldable?_binary h hlen hloop
      | unary op e => exact foldable?_unary inCondition h hlen
      | paren e => exact foldable?_paren inCondition h hlen
      | _ => cases hk
    | stmt s => cases s <;> cases hk
    | _ => cases hk
  · rw [Bool.not_eq_true] at hk
    rw [collapse?_eq_none hk]
    exact foldable?_other h.kind_eq hk

theorem foldNode_none {i : NodeId} (h : foldable? t i = .ok none) :
    foldNode i t = (.ok 0, t) := by
  rw [foldNode, Edit.bind_ok (Edit.read_ok h)]
  rfl

theorem foldNode_some {i : NodeId} {n : Node} {l : Kind} (h : foldable? t i = .ok (some l))
    (hn : t.nodes[i]? = some n)
    (hr : (t.add l n.position).2.replace i t.size = .ok t₁) : foldNode i t = (.ok 1, t₁) := by
  have hpos : t.position i = .ok n.position := by
    rw [Tree.position, Tree.node_eq_ok hn]
    rfl
  have hadd : Edit.step (fun t => return t.add l n.position) t
      = (.ok t.size, (t.add l n.position).2) := rfl
  rw [foldNode, Edit.bind_ok (Edit.read_ok h)]
  simp only
  rw [Edit.bind_ok (Edit.read_ok (f := fun t => t.position i) hpos), Edit.bind_ok hadd,
    Edit.bind_ok (Edit.replace_ok hr), Edit.pure_apply]

/-! ### All nodes -/

/-- Folds the nodes at some ids in order, and counts on from `n`. -/
def foldNodes (ids : List NodeId) (n : Nat) : Edit Nat :=
  ids.foldlM (fun count id => return count + (← foldNode id)) n

theorem foldNodes_append {ids ids' : List NodeId} {n n₁ : Nat}
    (h : foldNodes ids n t = (.ok n₁, t₁)) :
    foldNodes (ids ++ ids') n t = foldNodes ids' n₁ t₁ := by
  have happ : foldNodes (ids ++ ids') n = foldNodes ids n >>= foldNodes ids' := List.foldlM_append
  rw [happ, Edit.bind_ok h]

theorem foldNodes_singleton {i : NodeId} {n m : Nat} (h : foldNode i t = (.ok m, t₁)) :
    foldNodes [i] n t = (.ok (n + m), t₁) := by
  have hone : (do return n + (← foldNode i) : Edit Nat) t = (.ok (n + m), t₁) := by
    rw [Edit.bind_ok h, Edit.pure_apply]
  rw [foldNodes, Edit.foldlM_cons_ok hone, List.foldlM_nil, Edit.pure_apply]

/-- Counting the nodes of the kinds that `q` picks shows how many nodes are folded. -/
structure CountsFolds (q : Kind → Bool) : Prop where
  compound : ∀ k, isCompound k = true → q k = true
  literal : ∀ k, k.isLiteral = true → q k = false

/-- Folding the nodes of the subtree, wherever it is a child, makes it the simplified one. -/
def FoldsToSimplified (q : Kind → Bool) (c : Subtree) : Prop :=
  ∀ {t : Tree} {parent : Option NodeId} {i : NodeId} {k : Kind} {p : Position}
    {before after : List Subtree} {part : Part} {depth : Nat} {inCondition : Bool} (n : Nat),
    t.Holds parent (.node i k p (before ++ c :: after)) →
    (Subtree.node i k p (before ++ c :: after)).ids.Nodup → c.Reads part →
    ConditionAt t (some i) c depth inCondition → depth + c.ids.length ≤ t.size + 1 →
    ∃ n' t' c', foldNodes c.ids.reverse n t = (.ok n', t') ∧
      Tree.Edited t t' parent (.node i k p (before ++ c :: after))
        (.node i k p (before ++ c' :: after)) ∧
      c'.outline = (c.simplify inCondition).outline ∧ n' + c'.count q = n + c.count q

variable {q : Kind → Bool}

/-- The children of a node are folded from the last to the first. -/
theorem foldChildren_ok {i : NodeId} {k : Kind} {p : Position} {todo : List Subtree}
    (done : List Subtree) {depth : Nat} {inCondition : Bool} (n : Nat)
    (ih : ∀ c ∈ todo, FoldsToSimplified q c)
    (hb : t.Holds parent (.node i k p (todo ++ done)))
    (hn : (Subtree.node i k p (todo ++ done)).ids.Nodup)
    (hparts : ∀ c ∈ todo, ∃ part, c.Reads part)
    (hcond : ConditionAt t parent (.node i k p (todo ++ done)) depth inCondition)
    (hdepth : ∀ c ∈ todo, depth + 1 + c.ids.length ≤ t.size + 1) :
    ∃ n' t' todo', foldNodes (todo.flatMap ids).reverse n t = (.ok n', t') ∧
      Tree.Edited t t' parent (.node i k p (todo ++ done)) (.node i k p (todo' ++ done)) ∧
      todo'.map outline = (simplifyAll k inCondition todo).map outline ∧
      n' + countAll q todo' = n + countAll q todo := by
  induction todo using List.reverseRecOn generalizing t n done with
  | nil => exact ⟨n, t, [], rfl, .refl hb hn, rfl, rfl⟩
  | append_singleton todo c ihtodo =>
    have hmem : c ∈ todo ++ [c] := by simp
    obtain ⟨part, hpart⟩ := hparts c hmem
    rw [List.append_assoc, List.singleton_append] at hb hn hcond ⊢
    obtain ⟨n₁, t₁, c', hrun, hedit, hout, hcount⟩ :=
      ih c hmem n hb hn hpart (hcond.child hb hn) (hdepth c hmem)
    obtain ⟨n₂, t₂, todo', hrun₂, hedit₂, hout₂, hcount₂⟩ :=
      ihtodo (c' :: done) n₁ (fun d hd => ih d (by simp [hd])) hedit.holds hedit.nodup
        (fun d hd => hparts d (by simp [hd])) (hcond.edited hedit rfl)
        (fun d hd => by
          have hd' := hdepth d (by simp [hd])
          have hle := hedit.grows.size_le
          omega)
    refine ⟨n₂, t₂, todo' ++ [c'], ?_, ?_, ?_, ?_⟩
    · rw [List.flatMap_append, List.flatMap_singleton, List.reverse_append, foldNodes_append hrun,
        hrun₂]
    · rw [List.append_assoc, List.singleton_append]
      exact hedit.trans hedit₂
    · rw [simplifyAll_concat, List.map_append, List.map_append, hout₂, List.map_singleton,
        List.map_singleton, hout]
    · simp only [countAll_append, countAll_cons, countAll_nil]
      omega

theorem countAll_literals (hq : CountsFolds q) {cs : List Subtree}
    (hparts : ∀ c ∈ cs, ∃ part, c.Reads part)
    (hk : ∀ k ∈ cs.map Subtree.kind, k.isLiteral = true) : countAll q cs = 0 := by
  have hc : ∀ c ∈ cs, c.count q = 0 := by
    intro c hc
    obtain ⟨part, hpart⟩ := hparts c hc
    have hlit := hk _ (List.mem_map_of_mem hc)
    obtain ⟨i, p, ds, rfl, hds⟩ := reads_iff.mp hpart
    rw [kind_node] at hlit
    have hnil : part.parts = [] := by
      cases part with
      | expr e => cases e <;> first | rfl | cases hlit
      | stmt s => cases s <;> cases hlit
      | _ => cases hlit
    rw [hnil, List.forall₂_nil_right_iff] at hds
    rw [count_node, hds, hq.literal _ hlit]
    rfl
  rw [countAll, List.map_congr_left hc]
  simp

/-- **Folding a child makes it the simplified one.** -/
theorem foldsToSimplified (hq : CountsFolds q) (c : Subtree) : FoldsToSimplified q c := by
  induction c with
  | node j kc pc cs ih =>
    intro t parent i k p before after part depth inCondition n hb hn hpart hcond hdepth
    obtain ⟨rfl, hcs⟩ := reads_node_iff.mp hpart
    have hmem : Subtree.node j part.kind pc cs ∈ before ++ .node j part.kind pc cs :: after := by
      simp
    have hlen : ∀ c ∈ cs, depth + 1 + c.ids.length ≤ t.size + 1 := fun c hc => by
      have := length_ids_child (i := j) (k := part.kind) (p := pc) hc
      omega
    -- first the children
    obtain ⟨n₁, t₁, cs', hrun, hedit, hout, hcount⟩ := foldChildren_ok [] n ih
      (by rw [List.append_nil]; exact hb.child _ hmem)
      (by rw [List.append_nil]; exact nodup_child hn hmem)
      (fun c hc => forall₂_of_mem hcs hc) (by rw [List.append_nil]; exact hcond) hlen
    simp only [List.append_nil] at hedit
    have hedit' := Tree.Edited.in_child hb hn hedit rfl
    have hloop : isLoopCondition t₁ j = .ok inCondition :=
      (hcond.edited hedit rfl).isLoopCondition_eq hedit.holds (by
        have := (Subtree.node j part.kind pc cs).length_ids_pos
        have := hedit.grows.size_le
        unfold Tree.stepLimit
        omega)
    have hkinds := map_kind_of_outline hout
    have hcs' : cs'.length = part.parts.length := by
      rw [← List.length_map (f := outline), hout, List.length_map, simplifyAll, List.length_mapIdx,
        hcs.length_eq]
    have hfold := foldable?_eq hedit.holds hcs' hloop
    have hids : (Subtree.node j part.kind pc cs).ids.reverse = (cs.flatMap ids).reverse ++ [j] := by
      simp
    rw [hids, foldNodes_append hrun, simplify_node, ← hkinds]
    -- then the node itself
    cases hl : collapse? inCondition part.kind (cs'.map Subtree.kind) with
    | none =>
      rw [hl] at hfold
      refine ⟨n₁, t₁, .node j part.kind pc cs', foldNodes_singleton (foldNode_none hfold), hedit',
        ?_, ?_⟩
      · simp only [outline_node, hout]
      · rw [count_node, count_node]
        omega
    | some l =>
      rw [hl] at hfold
      obtain ⟨hcompound, hliterals, hlit⟩ := collapse?_spec hl
      have hj : j ∈ (Subtree.node i k p (before ++ .node j part.kind pc cs' :: after)).ids :=
        mem_ids_of_child (b := .node j part.kind pc cs') (by simp) (by simp)
      have hne : j ≠ i := fun e => not_mem_child hedit'.nodup (b := .node j part.kind pc cs')
        (by simp) (by simp [e])
      obtain ⟨t₂, hreplace, hedit₂⟩ :=
        Tree.edited_leaf hedit'.holds hedit'.nodup hj hne l pc
      rw [graft_in_child hedit'.nodup (by simp), graft_node, if_pos rfl] at hedit₂
      refine ⟨n₁ + 1, t₂, .node t₁.size l pc [],
        foldNodes_singleton (foldNode_some hfold hedit.holds.here hreplace), hedit'.trans hedit₂,
        ?_, ?_⟩
      · simp only [outline_node]
      · have hzero : countAll q cs' = 0 := by
          refine countAll_literals hq (fun c hc => ?_) hliterals
          -- a folded child reads as what the simplified child reads as
          obtain ⟨b, hb', hbc⟩ : ∃ b ∈ simplifyAll part.kind inCondition cs,
              b.outline = c.outline := by
            have hmem : c.outline ∈ cs'.map outline := List.mem_map_of_mem hc
            rw [hout] at hmem
            exact List.mem_map.mp hmem
          obtain ⟨slot, hslot, rfl⟩ := List.mem_mapIdx.mp hb'
          obtain ⟨part', hpart'⟩ := forall₂_of_mem hcs (List.getElem_mem hslot)
          exact ⟨_, (hpart'.simplify _).of_outline hbc.symm⟩
        rw [count_node, count_node, hq.literal l hlit, hq.compound _ hcompound, countAll_nil]
        simp only [Bool.false_eq_true, if_false, if_true]
        omega

/-- **Folding a tree makes it the simplified one.** -/
theorem foldConstants_ok (hq : CountsFolds q) {b : Subtree} {p : Program} (h : t.Pictures p b) :
    ∃ n t' b', foldConstants t = (.ok n, t') ∧ t'.Pictures p.simplify b' ∧
      b'.outline = (b.simplify false).outline ∧ n + b'.count q = b.count q := by
  obtain ⟨i, pos, cs, rfl, hcs⟩ := reads_iff.mp h.reads
  have hlen := h.length_ids_le
  obtain ⟨n, t', cs', hrun, hedit, hout, hcount⟩ := foldChildren_ok [] 0
    (fun c _ => foldsToSimplified hq c) (by rw [List.append_nil]; exact h.holds)
    (by rw [List.append_nil]; exact h.nodup) (fun c hc => forall₂_of_mem hcs hc)
    (conditionAt_root t _) (fun c hc => by
      have := length_ids_child (i := i) (k := (Part.program p).kind) (p := pos) hc
      omega)
  simp only [List.append_nil] at hedit
  have houtline : (Subtree.node i (Part.program p).kind pos cs').outline
      = ((Subtree.node i (Part.program p).kind pos cs).simplify false).outline := by
    rw [simplify_node, collapse?_eq_none rfl, outline_node, outline_node, hout]
  have hread : Edit.read (fun t => t.descendants t.root) t
      = (.ok (Subtree.node i (Part.program p).kind pos cs).ids, t) := by
    refine Edit.read_ok ?_
    rw [← h.root, h.holds.descendants_eq h.nodup]
  have hlast : foldNode i t' = (.ok 0, t') :=
    foldNode_none (foldable?_other hedit.holds.kind_eq rfl)
  refine ⟨n, t', .node i (Part.program p).kind pos cs', ?_,
    h.edited hedit rfl ((h.reads.simplify false).of_outline houtline), houtline, ?_⟩
  · rw [foldConstants, Edit.bind_ok hread, ids_node, List.reverse_cons]
    exact (foldNodes_append hrun).trans (foldNodes_singleton hlast)
  · rw [count_node, count_node]
    omega

end Optimize

end Classlet
