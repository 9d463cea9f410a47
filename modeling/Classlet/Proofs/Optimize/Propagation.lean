import Classlet.Proofs.Optimize.Substitution

/-!
# Propagation in a tree

Going through the tree of a statement changes it into the tree of the statement after propagation,
with the facts showing what is known then, and how many reads are gone (`realized`); no step of it
halts.
-/

namespace Classlet

open Subtree

namespace Part

/-- The parts with their statements after propagation, and what is known in the end. -/
def propagateAll (P : String → Bool) : List Part → Knowledge → List Part × Knowledge
  | [], F => ([], F)
  | part :: rest, F =>
    match part with
    | .stmt s =>
      let (s, F₁) := s.propagate P F
      let (rest, F₂) := propagateAll P rest F₁
      (.stmt s :: rest, F₂)
    | part =>
      let (rest, F₁) := propagateAll P rest F
      (part :: rest, F₁)

variable (P : String → Bool)

theorem propagateAll_stmts (ss : List Stmt) (F : Knowledge) : propagateAll P (ss.map .stmt) F
    = ((Stmt.propagateAll P ss F).1.map .stmt, (Stmt.propagateAll P ss F).2) := by
  induction ss generalizing F with
  | nil => rfl
  | cons s ss ih => simp only [List.map_cons, propagateAll, Stmt.propagateAll, ih]

theorem propagateAll_append (as bs : List Part) (F : Knowledge) :
    propagateAll P (as ++ bs) F
      = ((propagateAll P as F).1 ++ (propagateAll P bs (propagateAll P as F).2).1,
        (propagateAll P bs (propagateAll P as F).2).2) := by
  induction as generalizing F with
  | nil => rfl
  | cons part as ih => cases part <;> simp [propagateAll, ih]

theorem propagateAll_of_no_stmts {parts : List Part} (h : ∀ part ∈ parts, part.stmt? = none)
    (F : Knowledge) : propagateAll P parts F = (parts, F) := by
  induction parts with
  | nil => rfl
  | cons part parts ih =>
    have hfirst := h part List.mem_cons_self
    cases part with
    | stmt s => cases hfirst
    | _ => simp [propagateAll, ih fun part hp => h part (List.mem_cons_of_mem _ hp)]

end Part

namespace Optimize

variable {t : Tree} {parent : Option NodeId} {facts : Facts} {F : Knowledge}

/-! ### Facts -/

theorem Facts.Shows.learn (h : facts.Shows t F) {e : Expr} (he : e.isLiteral = true) {b : Subtree}
    (hb : t.Holds parent b) (hbe : b.IsExpr e) (x : String) :
    (facts.learn x b.id).Shows t (F.set x (some e)) := by
  obtain ⟨i, p, cs, rfl, hcs⟩ := isExpr_iff.mp hbe
  rw [Expr.parts_of_isLiteral he, List.forall₂_nil_right_iff] at hcs
  subst hcs
  constructor
  · intro y hy
    unfold Knowledge.set at hy
    rw [Facts.literal?_learn]
    split at hy
    · cases hy
    · next hne => rw [if_neg hne, h.unknown y hy]
  · intro y e' hy
    unfold Knowledge.set at hy
    rw [Facts.literal?_learn]
    split at hy
    · next heq =>
      cases hy
      rw [if_pos heq]
      exact ⟨he, i, _, rfl, hb.here, rfl, rfl⟩
    · next hne =>
      rw [if_neg hne]
      exact h.known y e' hy

theorem Facts.Shows.forget (h : facts.Shows t F) (x : String) :
    (facts.forget x).Shows t (F.set x Option.none) := by
  constructor
  · intro y hy
    unfold Knowledge.set at hy
    rw [Facts.literal?_forget]
    split at hy
    · next heq => rw [if_pos heq]
    · next hne => rw [if_neg hne, h.unknown y hy]
  · intro y e hy
    unfold Knowledge.set at hy
    rw [Facts.literal?_forget]
    split at hy
    · cases hy
    · next hne =>
      rw [if_neg hne]
      exact h.known y e hy

theorem Facts.none_shows (t : Tree) : Facts.none.Shows t fun _ => Option.none :=
  ⟨fun _ _ => rfl, fun _ _ h => by cases h⟩

/-! ### Expressions of a statement -/

variable {q : Kind → Bool}

theorem substituteAll_ok (hq : CountsReads q) {i : NodeId} {k : Kind} {p : Position}
    (before : List Subtree) {todo : List Subtree} {es : List Expr}
    (hb : t.Holds parent (.node i k p (before ++ todo)))
    (hn : (Subtree.node i k p (before ++ todo)).ids.Nodup)
    (hes : List.Forall₂ IsExpr todo es) (hF : facts.Shows t F) :
    ∃ facts' t' todo', ((todo.map Subtree.id).foldlM substitute facts) t = (.ok facts', t') ∧
      facts'.Shows t' F ∧
      Tree.Edited t t' parent (.node i k p (before ++ todo)) (.node i k p (before ++ todo')) ∧
      List.Forall₂ IsExpr todo' (es.map (Expr.substitute F)) ∧
      facts'.replaced + countAll q todo' = facts.replaced + countAll q todo := by
  induction hes generalizing t facts before with
  | nil => exact ⟨facts, t, [], rfl, hF, .refl hb hn, .nil, rfl⟩
  | @cons c e todo es hc _ ih =>
    obtain ⟨facts₁, t₁, c', hfirst, hF₁, hedit₁, hc', hcount₁⟩ :=
      substitute_ok hq before hb hn hc hF
    have hb₁ := hedit₁.holds
    have hn₁ := hedit₁.nodup
    rw [List.append_cons] at hb₁ hn₁
    obtain ⟨facts₂, t₂, todo', hrest, hF₂, hedit₂, htodo, hcount₂⟩ :=
      ih (before ++ [c']) hb₁ hn₁ hF₁
    refine ⟨facts₂, t₂, c' :: todo', ?_, hF₂, ?_, .cons hc' htodo, ?_⟩
    · rw [List.map_cons, Edit.foldlM_cons_ok hfirst, hrest]
    · rw [← List.append_cons, ← List.append_cons] at hedit₂
      exact hedit₁.trans hedit₂
    · rw [countAll_cons, countAll_cons]
      omega

/-! ### Statements -/

/-- Going through the tree of the statement makes it the tree of the statement after propagation,
and the facts then show what is known. -/
def Realized (q : Kind → Bool) (tr : Tracking) (s : Stmt) : Prop :=
  ∀ {fuel : Nat} {t : Tree} {parent : Option NodeId} {b : Subtree} {facts : Facts} {F : Knowledge},
    t.Holds parent b → b.ids.Nodup → b.IsStmt s → facts.Shows t F → b.ids.length ≤ fuel →
    ∃ facts' t' b', propagateStmt tr fuel b.id facts t = (.ok facts', t') ∧
      facts'.Shows t' (s.propagate tr.propagates F).2 ∧ Tree.Edited t t' parent b b' ∧
      b'.id = b.id ∧ b'.IsStmt (s.propagate tr.propagates F).1 ∧
      facts'.replaced + b'.count q = facts.replaced + b.count q

variable {tr : Tracking}

theorem propagateChildren_ok {fuel : Nat} {i : NodeId} {k : Kind} {p : Position}
    (before : List Subtree) {todo : List Subtree} {parts : List Part}
    (hb : t.Holds parent (.node i k p (before ++ todo)))
    (hn : (Subtree.node i k p (before ++ todo)).ids.Nodup)
    (hparts : List.Forall₂ Reads todo parts)
    (hreal : ∀ s ∈ parts.filterMap Part.stmt?, Realized q tr s)
    (hF : facts.Shows t F) (hfuel : ∀ c ∈ todo, c.ids.length ≤ fuel) :
    ∃ facts' t' todo',
      (((todo.filter (·.kind.isStatement)).map Subtree.id).foldlM
        (fun facts s => propagateStmt tr fuel s facts) facts) t = (.ok facts', t') ∧
      facts'.Shows t' (Part.propagateAll tr.propagates parts F).2 ∧
      Tree.Edited t t' parent (.node i k p (before ++ todo)) (.node i k p (before ++ todo')) ∧
      List.Forall₂ Reads todo' (Part.propagateAll tr.propagates parts F).1 ∧
      facts'.replaced + countAll q todo' = facts.replaced + countAll q todo := by
  induction hparts generalizing t facts F before with
  | nil => exact ⟨facts, t, [], rfl, hF, .refl hb hn, .nil, rfl⟩
  | @cons c part todo parts hc _ ih =>
    have hfuel' : ∀ d ∈ todo, d.ids.length ≤ fuel := fun d hd => hfuel d (List.mem_cons_of_mem _ hd)
    have hreal' : ∀ s ∈ parts.filterMap Part.stmt?, Realized q tr s := by
      intro s hs
      obtain ⟨q, hq, hqs⟩ := List.mem_filterMap.mp hs
      exact hreal s (List.mem_filterMap.mpr ⟨q, List.mem_cons_of_mem _ hq, hqs⟩)
    have hstmt : c.kind.isStatement = part.stmt?.isSome := by
      obtain ⟨j, kc, pc, cs⟩ := c
      obtain ⟨_, -, hk⟩ := reads_node.mp hc
      exact Part.isStatement_of_ofKind hk
    by_cases hs : ∃ s, part = .stmt s
    · obtain ⟨s, rfl⟩ := hs
      have hmem : c ∈ before ++ c :: todo := by simp
      obtain ⟨facts₁, t₁, c', hfirst, hF₁, hedit₁, hid, hc', hcount₁⟩ :=
        hreal s (by simp [Part.stmt?]) (hb.child c hmem) (nodup_child hn hmem) hc hF
          (hfuel c List.mem_cons_self)
      have hedit₁ := Tree.Edited.in_child hb hn hedit₁ hid
      have hb₁ := hedit₁.holds
      have hn₁ := hedit₁.nodup
      rw [List.append_cons] at hb₁ hn₁
      obtain ⟨facts₂, t₂, todo', hrest, hF₂, hedit₂, htodo, hcount₂⟩ :=
        ih (before ++ [c']) hb₁ hn₁ hreal' hF₁ hfuel'
      refine ⟨facts₂, t₂, c' :: todo', ?_, hF₂, ?_, .cons hc' htodo, ?_⟩
      · rw [List.filter_cons_of_pos (by rw [hstmt]; rfl), List.map_cons,
          Edit.foldlM_cons_ok hfirst, hrest]
      · rw [← List.append_cons, ← List.append_cons] at hedit₂
        exact hedit₁.trans hedit₂
      · rw [countAll_cons, countAll_cons]
        omega
    · rw [List.append_cons] at hb hn
      obtain ⟨facts₂, t₂, todo', hrest, hF₂, hedit₂, htodo, hcount⟩ :=
        ih (before ++ [c]) hb hn hreal' hF hfuel'
      have hnone : part.stmt? = Option.none := by
        cases part with
        | stmt s => exact absurd ⟨s, rfl⟩ hs
        | _ => rfl
      have hall : Part.propagateAll tr.propagates (part :: parts) F
          = (part :: (Part.propagateAll tr.propagates parts F).1,
            (Part.propagateAll tr.propagates parts F).2) := by
        cases part with
        | stmt s => cases hnone
        | _ => rfl
      rw [← List.append_cons, ← List.append_cons] at hedit₂
      rw [hall]
      refine ⟨facts₂, t₂, c :: todo', ?_, hF₂, hedit₂, .cons hc htodo, ?_⟩
      · rw [List.filter_cons_of_neg (by rw [hstmt, hnone]; simp), hrest]
      · rw [countAll_cons, countAll_cons]
        omega

theorem filter_isStatement_of_stmts {cs : List Subtree} {ss : List Stmt}
    (h : List.Forall₂ Reads cs (ss.map .stmt)) : cs.filter (·.kind.isStatement) = cs := by
  rw [List.forall₂_map_right_iff] at h
  refine List.filter_eq_self.mpr fun c hc => ?_
  obtain ⟨s, hs⟩ := forall₂_of_mem h hc
  obtain ⟨i, p, cs, rfl, -⟩ := isStmt_iff.mp hs
  cases s <;> rfl

theorem propagateBodies_ok {fuel : Nat} {i : NodeId} {k : Kind} {p : Position}
    (before : List Subtree) {todo : List Subtree} {ss : List Stmt}
    (hb : t.Holds parent (.node i k p (before ++ todo)))
    (hn : (Subtree.node i k p (before ++ todo)).ids.Nodup)
    (hss : List.Forall₂ Reads todo (ss.map .stmt)) (hreal : ∀ s ∈ ss, Realized q tr s)
    (hF : facts.Shows t F) (hfuel : ∀ c ∈ todo, c.ids.length ≤ fuel) :
    ∃ facts' t' todo', ((todo.map Subtree.id).foldlM
        (fun facts s => propagateStmt tr fuel s facts) facts) t = (.ok facts', t') ∧
      facts'.Shows t' (Stmt.propagateAll tr.propagates ss F).2 ∧
      Tree.Edited t t' parent (.node i k p (before ++ todo)) (.node i k p (before ++ todo')) ∧
      List.Forall₂ Reads todo' ((Stmt.propagateAll tr.propagates ss F).1.map .stmt) ∧
      facts'.replaced + countAll q todo' = facts.replaced + countAll q todo := by
  have hstmts : (ss.map Part.stmt).filterMap Part.stmt? = ss := by
    rw [List.filterMap_map]
    exact List.filterMap_some
  have h := propagateChildren_ok before hb hn hss (by rwa [hstmts]) hF hfuel
  rwa [filter_isStatement_of_stmts hss, Part.propagateAll_stmts] at h

theorem kind_propagate (P : String → Bool) (s : Stmt) (F : Knowledge) :
    (s.propagate P F).1.kind = s.kind := by
  cases s <;> simp [Stmt.propagate, Stmt.kind]

/-- A statement is realized if going through its node changes the children into the parts after
propagation. -/
theorem realized_of_children {s : Stmt}
    (h : ∀ {fuel : Nat} {t : Tree} {parent : Option NodeId} {i : NodeId} {p : Position}
      {cs : List Subtree} {facts : Facts} {F : Knowledge},
      t.Holds parent (.node i s.kind p cs) → (Subtree.node i s.kind p cs).ids.Nodup →
      List.Forall₂ Reads cs s.parts → facts.Shows t F → (∀ c ∈ cs, c.ids.length ≤ fuel) →
      ∃ facts' t' cs', propagateStmt tr (fuel + 1) i facts t = (.ok facts', t') ∧
        facts'.Shows t' (s.propagate tr.propagates F).2 ∧
        Tree.Edited t t' parent (.node i s.kind p cs) (.node i s.kind p cs') ∧
        List.Forall₂ Reads cs' (s.propagate tr.propagates F).1.parts ∧
        facts'.replaced + countAll q cs' = facts.replaced + countAll q cs) : Realized q tr s := by
  intro fuel t parent b facts F hb hn hs hF hfuel
  obtain ⟨i, p, cs, rfl, hcs⟩ := isStmt_iff.mp hs
  have hpos := (Subtree.node i s.kind p cs).length_ids_pos
  obtain ⟨fuel, rfl⟩ : ∃ n, fuel = n + 1 := ⟨fuel - 1, by omega⟩
  have hchild : ∀ c ∈ cs, c.ids.length ≤ fuel := by
    intro c hc
    have hlt : c.ids.length < (Subtree.node i s.kind p cs).ids.length := length_ids_child hc
    omega
  obtain ⟨facts', t', cs', hrun, hF', hedit, hcs', hcount⟩ := h hb hn hcs hF hchild
  refine ⟨facts', t', _, hrun, hF', hedit, rfl, isStmt_iff.mpr ⟨i, p, cs', ?_, hcs'⟩, ?_⟩
  · rw [kind_propagate]
  · rw [count_node, count_node]
    omega

theorem realized_of_exprs (hq : CountsReads q) {s : Stmt} (es : List Expr)
    (hparts : s.parts = es.map .expr)
    (hkind : (∃ x, s.kind = .arrayAssign x) ∨ s.kind = .returnStmt ∨ s.kind = .exprStmt)
    (hprop : ∀ F, (s.propagate tr.propagates F).2 = F ∧
      (s.propagate tr.propagates F).1.parts = (es.map (Expr.substitute F)).map .expr) :
    Realized q tr s := by
  refine realized_of_children fun {fuel t parent i p cs facts F} hb hn hcs hF _ => ?_
  rw [hparts, List.forall₂_map_right_iff] at hcs
  obtain ⟨facts', t', cs', hrun, hF', hedit, hcs', hcount⟩ := substituteAll_ok hq [] hb hn hcs hF
  refine ⟨facts', t', cs', ?_, ?_, hedit, ?_, hcount⟩
  · rw [propagateStmt,
      Edit.bind_ok (Edit.read_ok (f := fun t => t.node i) (Tree.node_eq_ok hb.here))]
    rcases hkind with ⟨x, hk⟩ | hk | hk <;> simp only [hk] <;> exact hrun
  · rw [(hprop F).1]
    exact hF'
  · rw [(hprop F).2, List.forall₂_map_right_iff]
    exact hcs'

theorem realized_of_branches (hq : CountsReads q) {s : Stmt} (c : Expr) (bodies : List Stmt)
    (hkind : s.kind = .ifStmt ∨ s.kind = .whileStmt)
    (hparts : s.parts = .expr c :: bodies.map .stmt)
    (hprop : ∀ F, (s.propagate tr.propagates F).2 = (Stmt.propagateAll tr.propagates bodies F).2 ∧
      (s.propagate tr.propagates F).1.parts
        = .expr (c.substitute F) :: (Stmt.propagateAll tr.propagates bodies F).1.map .stmt)
    (ih : ∀ b ∈ bodies, Realized q tr b) : Realized q tr s := by
  refine realized_of_children fun {fuel t parent i p cs facts F} hb hn hcs hF hfuel => ?_
  rw [hparts] at hcs
  obtain ⟨d, ds, hd, hds, rfl⟩ := List.forall₂_cons_right_iff.mp hcs
  obtain ⟨facts₁, t₁, d', hcond, hF₁, hedit₁, hd', hcount₁⟩ := substitute_ok hq [] hb hn hd hF
  obtain ⟨facts₂, t₂, ds', hrun, hF₂, hedit₂, hds', hcount₂⟩ :=
    propagateBodies_ok [d'] hedit₁.holds hedit₁.nodup hds ih hF₁
      fun c hc => hfuel c (List.mem_cons_of_mem _ hc)
  refine ⟨facts₂, t₂, d' :: ds', ?_, ?_, hedit₁.trans hedit₂, ?_, ?_⟩
  · rw [propagateStmt,
      Edit.bind_ok (Edit.read_ok (f := fun t => t.node i) (Tree.node_eq_ok hb.here))]
    rcases hkind with hk | hk
    · simp only [hk, List.map_cons]
      rw [Edit.bind_ok hcond, hrun]
    · simp only [hk, List.map_cons]
      rw [Edit.bind_ok hcond, hrun]
  · rw [(hprop F).1]
    exact hF₂
  · rw [(hprop F).2]
    exact .cons hd' hds'
  · rw [countAll_cons, countAll_cons]
    omega

/-- An assignment makes its variable known if a literal is assigned to a name that may be known. -/
theorem realized_assign (hq : CountsReads q) (x : String) (e : Expr) :
    Realized q tr (.assign x e) := by
  refine realized_of_children fun {fuel t parent i p cs facts F} hb hn hcs hF _ => ?_
  obtain ⟨c, rfl, hc⟩ := forall₂_one hcs
  obtain ⟨facts₁, t₁, c', hsub, hF₁, hedit, hc', hcount⟩ := substitute_ok hq [] hb hn hc hF
  have hchild : t.child i 0 = .ok c.id := hb.child_eq rfl
  have hchild' : t₁.child i 0 = .ok c'.id := hedit.holds.child_eq rfl
  have hheld : t₁.Holds (some i) c' := hedit.holds.child c' (by simp)
  have hkind : t₁.kind c'.id = .ok (e.substitute F).kind := by rw [hheld.kind_eq, hc'.kind_eq]
  have hrun : propagateStmt tr (fuel + 1) i facts t
      = (.ok (if tr.propagates x && (e.substitute F).isLiteral then facts₁.learn x c'.id
          else facts₁.forget x), t₁) := by
    rw [propagateStmt,
      Edit.bind_ok (Edit.read_ok (f := fun t => t.node i) (Tree.node_eq_ok hb.here))]
    simp only [Stmt.kind]
    rw [Edit.bind_ok (Edit.read_ok (f := fun t => t.child i 0) hchild), Edit.bind_ok hsub,
      Edit.bind_ok (Edit.read_ok (f := fun t => t.child i 0) hchild'),
      Edit.bind_ok (Edit.read_ok (f := fun t => t.kind c'.id) hkind), Expr.isLiteral_kind]
    split <;> rfl
  refine ⟨_, t₁, [c'], hrun, ?_, hedit, .cons hc' .nil, ?_⟩
  · simp only [Stmt.propagate]
    split
    · next hlit => exact hF₁.learn (Bool.and_eq_true_iff.mp hlit).2 hheld hc' x
    · exact hF₁.forget x
  · have hreplaced : (if tr.propagates x && (e.substitute F).isLiteral then facts₁.learn x c'.id
        else facts₁.forget x).replaced = facts₁.replaced := by
      split <;> rfl
    rw [hreplaced, countAll_cons, countAll_cons]
    omega

/-- **Every statement is realized.** -/
theorem realized (hq : CountsReads q) (s : Stmt) : Realized q tr s := by
  induction s using Stmt.ind with
  | assign x e => exact realized_assign hq x e
  | arrayAssign x a e =>
    refine realized_of_exprs hq [a, e] rfl (.inl ⟨x, rfl⟩) fun F => ?_
    simp [Stmt.propagate, Stmt.parts]
  | ret e =>
    refine realized_of_exprs hq e.toList rfl (.inr (.inl rfl)) fun F => ?_
    cases e <;> simp [Stmt.propagate, Stmt.parts]
  | expr e =>
    refine realized_of_exprs hq [e] rfl (.inr (.inr rfl)) fun F => ?_
    simp [Stmt.propagate, Stmt.parts]
  | ifThen c b ih =>
    refine realized_of_branches hq c [b] (.inl rfl) rfl (fun F => ?_)
      (List.forall_mem_singleton.mpr ih)
    simp [Stmt.propagate, Stmt.propagateAll, Stmt.parts]
  | ifElse c b o ihb iho =>
    refine realized_of_branches hq c [b, o] (.inl rfl) rfl (fun F => ?_)
      (List.forall_mem_cons.mpr ⟨ihb, List.forall_mem_singleton.mpr iho⟩)
    simp [Stmt.propagate, Stmt.propagateAll, Stmt.parts]
  | whileDo c b ih =>
    refine realized_of_branches hq c [b] (.inr rfl) rfl (fun F => ?_)
      (List.forall_mem_singleton.mpr ih)
    simp [Stmt.propagate, Stmt.propagateAll, Stmt.parts]
  | block body ih =>
    refine realized_of_children fun {fuel t parent i p cs facts F} hb hn hcs hF hfuel => ?_
    obtain ⟨facts', t', cs', hrun, hF', hedit, hcs', hcount⟩ :=
      propagateBodies_ok [] hb hn hcs ih hF hfuel
    refine ⟨facts', t', cs', ?_, hF', hedit, hcs', hcount⟩
    rw [propagateStmt,
      Edit.bind_ok (Edit.read_ok (f := fun t => t.node i) (Tree.node_eq_ok hb.here))]
    exact hrun

end Optimize

end Classlet
