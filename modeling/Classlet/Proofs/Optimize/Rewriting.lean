import Classlet.Proofs.Optimize.Fixpoint
import Classlet.Proofs.Symbols.Dependence
import Classlet.Proofs.Syntax.Inside

/-!
# The optimizer rewrites expressions only

Wherever an edit of the optimizer succeeds, all it did to the tree were steps of rewriting (`Keeps`):
a literal was added and put into the place of an expression that a literal may replace.  This is so
for every order in which the edits come, and also for edits of nodes that earlier ones detached.
What the steps keep therefore holds after all rounds.

* `rewrites_of_optimize`: a run of the optimizer only rewrites.
* `optimize_rewrites_expressions`: what is left of the tree of a program.
-/

namespace Classlet

open Subtree

namespace Optimize

/-! ### Edits that keep what holds of a tree -/

namespace Edit

variable {α β : Type} {P : Tree → Prop} {Q : α → Tree → Prop} {Q' : β → Tree → Prop}

/-- Where `P` holds of the tree and the edit succeeds, `Q` holds of the result and the tree. -/
def Keeps (P : Tree → Prop) (x : Edit α) (Q : α → Tree → Prop) : Prop :=
  ∀ ⦃t a t'⦄, P t → x t = (.ok a, t') → Q a t'

theorem keeps_pure {a : α} (h : ∀ t, P t → Q a t) : Keeps P (pure a) Q := by
  rintro t _ _ ht ⟨⟩
  exact h t ht

theorem Keeps.bind {x : Edit α} {f : α → Edit β} (hx : Keeps P x Q)
    (hf : ∀ a, Keeps (Q a) (f a) Q') : Keeps P (x >>= f) Q' := by
  intro t b t' ht h
  obtain ⟨a, t₁, hxt, hft⟩ := bind_ok_inv h
  exact hf a (hx ht hxt) hft

theorem keeps_read_bind {f : Tree → Except Halt α} {g : α → Edit β}
    (hg : ∀ a, Keeps (fun t => P t ∧ f t = .ok a) (g a) Q') : Keeps P (read f >>= g) Q' := by
  intro t b t' ht h
  obtain ⟨a, t₁, hread, hgt⟩ := bind_ok_inv h
  obtain ⟨hf, rfl⟩ := Prod.ext_iff.mp hread
  exact hg a ⟨ht, hf⟩ hgt

theorem Keeps.foldlM {I : β → Tree → Prop} {f : β → α → Edit β} {l : List α}
    (h : ∀ s, ∀ a ∈ l, Keeps (I s) (f s a) I) (s : β) : Keeps (I s) (l.foldlM f s) I := by
  induction l generalizing s with
  | nil => exact keeps_pure fun _ ht => ht
  | cons a l ih =>
    rw [List.foldlM_cons]
    exact (h s a List.mem_cons_self).bind fun s' =>
      ih (fun s a ha => h s a (List.mem_cons_of_mem _ ha)) s'

theorem Keeps.of_imp {P' : Tree → Prop} {x : Edit α} (h : Keeps P x Q) (hP : ∀ t, P' t → P t) :
    Keeps P' x Q := fun _ _ _ ht => h (hP _ ht)

theorem Keeps.sum {f : NodeId → Edit Nat} (h : ∀ i, Keeps P (f i) fun _ => P) (ids : List NodeId)
    (n : Nat) : Keeps P (ids.foldlM (fun count i => return count + (← f i)) n) fun _ => P :=
  Keeps.foldlM (I := fun _ => P) (fun _ i _ => (h i).bind fun _ => keeps_pure fun _ ht => ht) n

theorem step_ok_inv {f : Tree → Except Halt (α × Tree)} {t t' : Tree} {a : α}
    (h : step f t = (.ok a, t')) : f t = .ok (a, t') := by
  rw [step] at h
  split at h
  · next hf =>
    cases h
    exact hf
  · cases h

theorem replace_ok_inv {old new : NodeId} {t t' : Tree} {a : Unit}
    (h : replace old new t = (.ok a, t')) : t.replace old new = .ok t' := by
  have hstep := step_ok_inv h
  rcases hr : t.replace old new with _ | t₁ <;> rw [hr] at hstep <;> cases hstep
  rfl

end Edit

open Edit

variable {t₀ t t' : Tree} {table : SymbolTable} {facts : Facts}

/-! ### The steps -/

theorem exists_of_kind {i : NodeId} {k : Kind} (h : t.kind i = .ok k) :
    ∃ n, t.nodes[i]? = some n ∧ n.kind = k := by
  obtain ⟨n, hn, hk⟩ := Halt.bind_ok h
  exact ⟨n, Tree.node_ok_inv hn, Except.ok.inj hk⟩

/-- What folding replaces, and by what. -/
theorem foldable?_spec {i : NodeId} {l : Kind} (h : foldable? t i = .ok (some l)) :
    ∃ n, t.nodes[i]? = some n ∧ n.kind.isReplaceable = true ∧ l.isLiteral = true := by
  obtain ⟨k, hk, h⟩ := Halt.bind_ok h
  obtain ⟨n, hn, rfl⟩ := exists_of_kind hk
  refine ⟨n, hn, ?_⟩
  split at h
  · next op hkind =>
    obtain ⟨lhs, -, h⟩ := Halt.bind_ok h
    obtain ⟨rhs, -, h⟩ := Halt.bind_ok h
    refine ⟨by rw [hkind]; rfl, ?_⟩
    split at h
    · split at h
      · obtain ⟨inCondition, -, h⟩ := Halt.bind_ok h
        split at h
        · cases h
        · exact isLiteral_of_foldInts (Except.ok.inj h)
      · exact isLiteral_of_foldInts (Except.ok.inj h)
    · exact isLiteral_of_foldBools (Except.ok.inj h)
    · cases h
  · next hkind =>
    obtain ⟨operand, -, h⟩ := Halt.bind_ok h
    refine ⟨by rw [hkind]; rfl, ?_⟩
    split at h <;> cases h
    rfl
  · next hkind =>
    obtain ⟨inner, -, h⟩ := Halt.bind_ok h
    refine ⟨by rw [hkind]; rfl, ?_⟩
    have hinner := Except.ok.inj h
    split at hinner
    · next hl => exact Option.some.inj hinner ▸ hl
    · cases hinner
  · cases h

/-! ### The stages of a round rewrite -/

/-- The facts name literals of the tree. -/
def Facts.NameLiterals (facts : Facts) (t : Tree) : Prop :=
  ∀ x i, facts.literal? x = some i → ∃ n, t.nodes[i]? = some n ∧ n.kind.isLiteral = true

/-- The tree comes from `t₀` by rewriting, and the facts name literals of it. -/
def Reaches (t₀ : Tree) (facts : Facts) (t : Tree) : Prop := t₀.Rewrites t ∧ facts.NameLiterals t

theorem Facts.nameLiterals_none (t : Tree) : Facts.none.NameLiterals t := fun x i h => by
  rw [literal?, none, Bindings.get?_none] at h
  cases h

theorem Facts.NameLiterals.grows (h : facts.NameLiterals t) (hg : Tree.Grows t t') :
    facts.NameLiterals t' := by
  intro x i hx
  obtain ⟨n, hn, hl⟩ := h x i hx
  obtain ⟨n', hn', hk, -⟩ := hg.keeps hn
  exact ⟨n', hn', hk ▸ hl⟩

theorem Facts.NameLiterals.forget (h : facts.NameLiterals t) (name : String) :
    (facts.forget name).NameLiterals t := by
  intro x i hx
  rw [literal?_forget] at hx
  split at hx
  · cases hx
  · exact h x i hx

theorem Facts.NameLiterals.learn (h : facts.NameLiterals t) (name : String) {i : NodeId} {k : Kind}
    (hk : t.kind i = .ok k) (hl : k.isLiteral = true) : (facts.learn name i).NameLiterals t := by
  intro x j hx
  rw [literal?_learn] at hx
  split at hx
  · cases hx
    obtain ⟨n, hn, rfl⟩ := exists_of_kind hk
    exact ⟨n, hn, hl⟩
  · exact h x j hx

theorem Reaches.step (h : Reaches t₀ facts t) (ht₀ : t₀.Sound) (hs : t.RewriteStep t') :
    Reaches t₀ facts t' :=
  ⟨h.1.tail hs, h.2.grows (hs.grows (h.1.sound_rewritten ht₀).1)⟩

theorem substituteNode_keeps (ht₀ : t₀.Sound) (facts : Facts) (i : NodeId) :
    Keeps (Reaches t₀ facts) (substituteNode facts i) fun _ => Reaches t₀ facts := by
  refine keeps_read_bind fun kind => ?_
  split
  · next name =>
    split
    · next literal hliteral =>
      rintro t a t' ⟨ht, hkind⟩ h
      obtain ⟨copy, t₁, hcopy, h⟩ := bind_ok_inv h
      obtain ⟨_, t₂, hreplace, h⟩ := bind_ok_inv h
      cases h
      obtain ⟨n, hn, hl⟩ := ht.2 name literal hliteral
      obtain ⟨m, hm, hread⟩ := exists_of_kind hkind
      have hsound := (ht.1.sound_rewritten ht₀).1
      -- the copy of a literal is a new leaf
      cases (Tree.deepCopy_leaf hn (hsound.leaf hn hl)).symm.trans (step_ok_inv hcopy)
      exact ht.step ht₀ (.intro hm (by rw [hread]; rfl) hl (Edit.replace_ok_inv hreplace))
    · exact keeps_pure fun _ ht => ht.1
  · exact keeps_pure fun _ ht => ht.1

theorem substitute_keeps (ht₀ : t₀.Sound) (facts : Facts) (i : NodeId) :
    Keeps (Reaches t₀ facts) (substitute facts i) (Reaches t₀) := by
  refine keeps_read_bind fun ids => ?_
  have hsum := Keeps.sum (substituteNode_keeps ht₀ facts) ids 0
  exact (hsum.of_imp fun _ ht => ht.1).bind fun count => keeps_pure fun _ ht => ht

theorem propagateStmt_keeps (ht₀ : t₀.Sound) (tr : Tracking) (fuel : Nat) (i : NodeId)
    (facts : Facts) :
    Keeps (Reaches t₀ facts) (propagateStmt tr fuel i facts) (Reaches t₀) := by
  induction fuel generalizing i facts with
  | zero => rintro t a t' - ⟨⟩
  | succ fuel ih =>
    rw [propagateStmt]
    refine keeps_read_bind fun node => Keeps.of_imp (P := Reaches t₀ facts) ?_ fun _ ht => ht.1
    obtain ⟨kind, position, parent, children⟩ := node
    have hbodies : ∀ facts (branches : List NodeId), Keeps (Reaches t₀ facts)
        (branches.foldlM (fun facts branch => propagateStmt tr fuel branch facts) facts)
        (Reaches t₀) := fun facts _ => Keeps.foldlM (fun facts branch _ => ih branch facts) facts
    cases kind with
    | assign target =>
      refine keeps_read_bind fun value => ?_
      refine ((substitute_keeps ht₀ facts value).of_imp fun _ ht => ht.1).bind fun facts' => ?_
      refine keeps_read_bind fun value => keeps_read_bind fun kind => ?_
      split
      · next hknown =>
        rw [Bool.and_eq_true] at hknown
        exact keeps_pure fun _ ht => ⟨ht.1.1.1, ht.1.1.2.learn target ht.2 hknown.2⟩
      · exact keeps_pure fun _ ht => ⟨ht.1.1.1, ht.1.1.2.forget target⟩
    | ifStmt | whileStmt =>
      cases children with
      | nil => exact keeps_pure fun _ ht => ht
      | cons cond branches =>
        exact (substitute_keeps ht₀ facts cond).bind fun facts' => hbodies facts' branches
    | block => exact hbodies facts children
    | arrayAssign | returnStmt | exprStmt =>
      exact Keeps.foldlM (fun facts child _ => substitute_keeps ht₀ facts child) facts
    | _ => exact keeps_pure fun _ ht => ht

theorem propagateMethod_keeps (ht₀ : t₀.Sound) (s : Signature) (i : NodeId) :
    Keeps t₀.Rewrites (propagateMethod s i) fun _ => t₀.Rewrites := by
  refine keeps_read_bind fun inBranches => keeps_read_bind fun body => ?_
  refine keeps_read_bind fun fuel => ?_
  let tr := Tracking.ofNames ((s.params ++ s.locals).map (·.name)) inBranches
  have hbody : Keeps (Reaches t₀ Facts.none)
      (body.foldlM (fun facts stmt => propagateStmt tr fuel stmt facts) Facts.none) (Reaches t₀) :=
    Keeps.foldlM (fun facts stmt _ => propagateStmt_keeps ht₀ tr fuel stmt facts) Facts.none
  refine (hbody.of_imp fun t ht => ⟨ht.1.1.1, Facts.nameLiterals_none t⟩).bind fun facts => ?_
  exact keeps_pure fun _ ht => ht.1

theorem propagateMethods_keeps (ht₀ : t₀.Sound) (table : SymbolTable) (index : Nat)
    (methods : List (NodeId × String)) :
    Keeps t₀.Rewrites (propagateMethods table index methods) fun _ => t₀.Rewrites := by
  induction methods generalizing index with
  | nil => exact keeps_pure fun _ ht => ht
  | cons m methods ih =>
    refine keeps_read_bind fun s => ?_
    refine ((propagateMethod_keeps ht₀ s m.1).of_imp fun _ ht => ht.1).bind fun count => ?_
    exact (ih (index + 1)).bind fun more => keeps_pure fun _ ht => ht

theorem propagateConstants_keeps (ht₀ : t₀.Sound) (table : SymbolTable) :
    Keeps t₀.Rewrites (propagateConstants table) fun _ => t₀.Rewrites :=
  keeps_read_bind fun methods =>
    (propagateMethods_keeps ht₀ table 0 methods).of_imp fun _ ht => ht.1

theorem foldNode_keeps (i : NodeId) : Keeps t₀.Rewrites (foldNode i) fun _ => t₀.Rewrites := by
  refine keeps_read_bind fun literal => ?_
  split
  · exact keeps_pure fun _ ht => ht.1
  · next literal =>
    refine keeps_read_bind fun position => ?_
    rintro t a t' ⟨⟨ht, hfold⟩, -⟩ h
    obtain ⟨new, t₁, hadd, h⟩ := bind_ok_inv h
    obtain ⟨_, t₂, hreplace, h⟩ := bind_ok_inv h
    cases h
    cases step_ok_inv hadd
    obtain ⟨n, hn, hk, hl⟩ := foldable?_spec hfold
    exact ht.tail (.intro hn hk hl (Edit.replace_ok_inv hreplace))

theorem foldConstants_keeps : Keeps t₀.Rewrites foldConstants fun _ => t₀.Rewrites :=
  keeps_read_bind fun ids =>
    (Keeps.sum foldNode_keeps ids.reverse 0).of_imp fun _ ht => ht.1

/-! ### All rounds -/

theorem optimizeWithin_keeps (ht₀ : t₀.Sound) (table : SymbolTable) (fuel : Nat) (stats : Stats) :
    Keeps t₀.Rewrites (optimizeWithin table fuel stats) fun _ => t₀.Rewrites := by
  induction fuel generalizing stats with
  | zero => rintro t a t' - ⟨⟩
  | succ fuel ih =>
    rw [optimizeWithin]
    refine (propagateConstants_keeps ht₀ table).bind fun propagated =>
      foldConstants_keeps.bind fun folded => ?_
    split
    · exact keeps_pure fun _ ht => ht
    · exact ih _

/-- **A run of the optimizer only rewrites.** -/
theorem rewrites_of_optimize {stats : Stats} (h : optimize table t = (.ok stats, t'))
    (ht : t.Sound) : t.Rewrites t' := by
  rw [optimize_eq] at h
  exact optimizeWithin_keeps ht table _ _ .refl h

end Optimize

/-! ### The tree of a program -/

/-- A tree is sound if all its nodes are in the subtree at the root, and that reads as a program. -/
theorem Tree.Pictures.sound {t : Tree} {p : Program} {b : Subtree} (h : t.Pictures p b)
    (hall : ∀ i < t.size, i ∈ b.ids) : t.Sound := by
  refine ⟨h.holds.wellLinked h.root h.nodup hall, fun {n} hn => ?_, fun {i n} hn hl => ?_⟩
  · obtain ⟨r, pos, cs, rfl, -⟩ := reads_iff.mp h.reads
    rw [← h.root] at hn
    cases h.holds.here.symm.trans hn
    rfl
  · obtain ⟨d, hd, rfl⟩ := exists_within (hall i (Array.getElem?_eq_some_iff.mp hn).1)
    obtain ⟨above, hheld⟩ := h.holds.within hd
    obtain ⟨part, hpart, -⟩ := h.reads.within hd
    obtain ⟨j, pos, cs, rfl, hcs⟩ := reads_iff.mp hpart
    cases hheld.here.symm.trans hn
    obtain rfl : cs = [] := by
      cases part with
      | expr e =>
        rw [Part.parts, Expr.parts_of_isLiteral (e.isLiteral_kind ▸ hl)] at hcs
        exact List.forall₂_nil_right_iff.mp hcs
      | stmt s => cases s <;> cases hl
      | _ => cases hl
    rfl

theorem Program.sound_build (p : Program) : p.build.Sound := by
  obtain ⟨b, hb⟩ := p.pictures_build
  exact hb.sound fun i hi => hb.mem_ids_build hi

/-- A node that no literal may replace keeps its parent and its number of children. -/
theorem Tree.Rewritten.keeps_node {t t' : Tree} {i : NodeId} {n : Node} (h : t.Rewritten t')
    (hn : t.nodes[i]? = some n) (hk : n.kind.isExpression = false) :
    ∃ n', t'.nodes[i]? = some n' ∧ n'.kind = n.kind ∧ n'.position = n.position ∧
      n'.parent = n.parent ∧ n'.children.length = n.children.length := by
  obtain ⟨n', hn', hkind, hpos, hparent, hslots⟩ := h.keeps hn
  refine ⟨n', hn', hkind, hpos, hparent.resolve_right fun hdetached => ?_, hslots.length_eq.symm⟩
  rw [Kind.isExpression_of_isReplaceable hdetached.1] at hk
  cases hk

open Optimize in
/-- **The optimizer rewrites expressions only.**  The tree of a program with a class has a symbol
table, and the optimizer comes to an end on it.  In what it leaves, parent and child links agree and
nothing is below itself.  Every node there was has its kind and position, and in each of its slots
is the child that was there or, where that was a variable read, a binary operation, a negation or a
pair of parentheses, a literal.  All nodes that are no expressions are still reached from the root,
below the same parent and with as many children; and the symbol table and the reports on the
declarations are the same. -/
theorem optimize_rewrites_expressions (imports : List String) (c : ClassDecl)
    (rest : List ClassDecl) :
    ∃ table reports stats t' ids,
      (Program.mk imports (c :: rest)).build.symbolTable = .ok (table, reports) ∧
      optimize table (Program.mk imports (c :: rest)).build = (.ok stats, t') ∧
      t'.WellLinked ∧
      (Program.mk imports (c :: rest)).build.Rewritten t' ∧
      t'.descendants t'.root = .ok ids ∧
      (∀ (i : NodeId) (n : Node), (Program.mk imports (c :: rest)).build.nodes[i]? = some n →
        n.kind.isExpression = false → i ∈ ids ∧ ∃ n' : Node, t'.nodes[i]? = some n' ∧
          n'.kind = n.kind ∧ n'.position = n.position ∧ n'.parent = n.parent ∧
          n'.children.length = n.children.length) ∧
      t'.symbolTable = .ok (table, reports) := by
  obtain ⟨b, hb⟩ := (Program.mk imports (c :: rest)).pictures_build
  obtain ⟨reports, htable⟩ := hb.symbolTable_ok
  have hnames : NamedAlike (SymbolTable.ofDecls imports c).signatures c.methods :=
    namedAlike_ofDecl c.methods
  obtain ⟨stats, t', b', hrun, hb', -⟩ := optimize_ends hb hnames
  have hsound := (Program.mk imports (c :: rest)).sound_build
  obtain ⟨hsound', hrewritten⟩ := (rewrites_of_optimize hrun hsound).sound_rewritten hsound
  have hid : b'.id = b.id := by rw [hb.root, hb'.root, hrewritten.root_eq]
  refine ⟨_, reports, stats, t', b'.ids, htable, hrun, hsound'.linked, hrewritten, ?_,
    fun i n hn hk => ⟨?_, hrewritten.keeps_node hn hk⟩, ?_⟩
  · rw [← hb'.root, hb'.holds.descendants_eq hb'.nodup]
  · have hi : i ∈ b.ids := hb.mem_ids_build (Array.getElem?_eq_some_iff.mp hn).1
    obtain ⟨d, hd, rfl⟩ := exists_within hi
    obtain ⟨above, hheld⟩ := hb.holds.within hd
    have hkind : d.kind = n.kind := by
      obtain ⟨j, k, p, cs⟩ := d
      cases hheld.here.symm.trans hn
      rfl
    exact (hrewritten.subtree hb.holds hb'.holds hid).mem_ids hb.reads hd (hkind ▸ hk)
  · rw [Tree.symbolTable_eq_of_rewritten hb hb' hrewritten, htable]

end Classlet
