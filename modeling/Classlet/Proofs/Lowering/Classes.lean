import Classlet.Proofs.Lowering.Interfaces
import Classlet.Proofs.Syntax.Rewriting

/-!
# The first class in two trees

Lowering looks for the first class of a tree and at nothing behind it.  So two trees in which the
first class is the same are lowered alike, whatever classes follow; also after expressions in them
were rewritten to the same literals, which may have other ids.

* `lower_upTo`: the first class is lowered alike, up to the ids and parentheses in it.
* `lower_bare`: a class and the bare class.
* `lower_eq_of_rewritten`: rewritten trees of a unit with and without further classes.
-/

namespace Classlet

open Subtree

/-! ### Rewritings of the same subtree -/

/-- The same id, which is one of the first `n`. -/
def SameBelow (n : Nat) (i j : NodeId) : Prop := i = j ∧ i < n

namespace Subtree

variable {n : Nat}

theorem forall₂_upTo_of_rewritten {R : NodeId → NodeId → Prop} {cs cs₁ cs₂ : List Subtree}
    {parts : List Part}
    (h : ∀ b ∈ cs, ∀ {d₁ d₂ part}, b.Rewritten d₁ → b.Rewritten d₂ → d₁.Reads part →
      d₂.Reads part → UpTo R d₁ d₂)
    (h₁ : List.Forall₂ Rewritten cs cs₁) (h₂ : List.Forall₂ Rewritten cs cs₂)
    (hr₁ : List.Forall₂ Reads cs₁ parts) (hr₂ : List.Forall₂ Reads cs₂ parts) :
    List.Forall₂ (UpTo R) cs₁ cs₂ := by
  induction h₁ generalizing cs₂ parts with
  | nil =>
    cases h₂
    exact .nil
  | cons hc _ ih =>
    rw [List.forall_mem_cons] at h
    obtain _ | ⟨hc₂, hrest₂⟩ := h₂
    obtain _ | ⟨hread₁, hreads₁⟩ := hr₁
    obtain _ | ⟨hread₂, hreads₂⟩ := hr₂
    exact .cons (h.1 hc hc₂ hread₁ hread₂) (ih h.2 hrest₂ hreads₁ hreads₂)

/-- **Rewritings that read as the same part** differ in the ids of literals only. -/
theorem upTo_of_rewritten {b d₁ d₂ : Subtree} {part : Part} (h₁ : b.Rewritten d₁)
    (h₂ : b.Rewritten d₂) (hr₁ : d₁.Reads part) (hr₂ : d₂.Reads part) (hn : ∀ i ∈ b.ids, i < n) :
    UpTo (SameBelow n) d₁ d₂ := by
  induction b generalizing d₁ d₂ part with
  | node i k p cs ih =>
    have hkept : ∀ {cs' : List Subtree}, (node i k p cs').Reads part →
        part.kind.isLiteral = true → k.isReplaceable = false := by
      intro cs' hr hl
      rw [(reads_node_iff.mp hr).1]
      exact Kind.isReplaceable_of_isLiteral hl
    cases h₁ with
    | kept below₁ =>
      cases h₂ with
      | kept below₂ =>
        refine .node (.inr ⟨rfl, hn i (id_mem_ids _)⟩) (forall₂_upTo_of_rewritten ?_ below₁ below₂
          (reads_node_iff.mp hr₁).2 (reads_node_iff.mp hr₂).2)
        intro b hb d₁ d₂ part h₁ h₂ hr₁ hr₂
        exact ih b hb h₁ h₂ hr₁ hr₂ fun i hi => hn i (mem_ids_of_child hb hi)
      | replaced hk hl =>
        rw [(reads_node_iff.mp hr₂).1] at hl
        cases (hkept hr₁ hl).symm.trans hk
    | replaced hk hl =>
      have hkind := (reads_node_iff.mp hr₁).1
      cases h₂ with
      | kept below₂ => cases (hkept hr₂ (hkind ▸ hl)).symm.trans hk
      | replaced _ _ =>
        obtain rfl := hkind.trans (reads_node_iff.mp hr₂).1.symm
        exact .node (.inl hl) .nil

end Subtree

theorem Tree.Rewritten.exists_units {t t' : Tree} {p : Program} {imports : List String}
    {c : ClassDecl} {rest : List ClassDecl} {r : NodeId} {pos : Position} {as bs : List Subtree}
    {b : Subtree} (h : t.Rewritten t') (hp : t.Pictures p (.node r .program pos (as ++ bs)))
    (hp' : t'.Pictures ⟨imports, c :: rest⟩ b) (hlength : as.length = imports.length + 1) :
    ∃ as' bs', b = .node r .program pos (as' ++ bs') ∧
      List.Forall₂ Subtree.Rewritten as as' ∧
      List.Forall₂ Reads as' (imports.map .importDecl ++ [.classDecl c]) := by
  have hid : b.id = r := hp'.root.trans (h.root_eq.trans hp.root.symm)
  cases h.subtree hp.holds hp'.holds hid with
  | replaced hk _ => cases hk
  | @kept _ _ _ _ cs below =>
    have hcs := (reads_node_iff.mp hp'.reads).2
    rw [Part.parts, Program.parts, List.map_cons, List.append_cons] at hcs
    obtain ⟨as', bs', rfl, has', -⟩ := forall₂_append_inv hcs
    obtain ⟨as₀, bs₀, heq, has, -⟩ := forall₂_append_inv below
    obtain rfl : as = as₀ := by
      refine List.append_inj_left heq ?_
      rw [hlength, has.length_eq, has'.length_eq]
      simp
    exact ⟨as', bs', rfl, has, has'⟩

/-! ### Lowering -/

namespace Lowering

open Ir

variable {R : NodeId → NodeId → Prop} (table : SymbolTable)

theorem blameless_declared (index : Nat) (method : String) :
    Blameless (table.declared index method) := by
  intro node reason h
  unfold SymbolTable.declared at h
  split at h
  · split at h <;> cases h
  · cases h

theorem lowerMethods_upTo {cs ds : List Subtree} {parts : List Part}
    (hparts : ∀ part ∈ parts, part.kind ≠ .paren) (hcs : List.Forall₂ Reads cs parts)
    (hds : List.Forall₂ (UpTo R) cs ds) (index : Nat) :
    EndsUpTo R (lowerMethods table index (cs.map fun c _ => c.toShape))
      (lowerMethods table index (ds.map fun d _ => d.toShape)) := by
  induction hcs generalizing ds index with
  | nil =>
    cases hds
    exact .refl (by rintro node reason ⟨⟩)
  | @cons c part cs parts hc _ ih =>
    rw [List.forall_mem_cons] at hparts
    obtain _ | ⟨hd, hrest⟩ := hds
    obtain ⟨i, p, ms, rfl, hmembers⟩ := reads_iff.mp hc
    obtain ⟨j, q, ns, rfl, below⟩ := hd.node_inv hparts.1
    rw [List.map_cons, List.map_cons, lowerMethods, lowerMethods, toShape_node, toShape_node]
    generalize part.kind = k at *
    cases k with
    | methodDecl name isPublic isStatic =>
      exact (EndsUpTo.refl (blameless_declared table index name)).bind fun s =>
        (lowerMethod_upTo ⟨.refl table, rfl⟩ hmembers below).bind fun m =>
          (ih hparts.2 hrest (index + 1)).bind fun ms => .refl (by rintro node reason ⟨⟩)
    | _ => exact ih hparts.2 hrest index

theorem firstClass_upTo {imports : List String} {c : ClassDecl} {cs ds : List Subtree}
    (hcs : List.Forall₂ Reads cs (imports.map .importDecl ++ [.classDecl c]))
    (hds : List.Forall₂ (UpTo R) cs ds) (after after' : List Subtree) :
    ∃ ms ns : List Subtree,
      Shape.firstClass ((cs ++ after).map fun c _ => c.toShape)
        = .ok (c.name, c.superclass, ms.map fun m _ => m.toShape) ∧
      Shape.firstClass ((ds ++ after').map fun d _ => d.toShape)
        = .ok (c.name, c.superclass, ns.map fun n _ => n.toShape) ∧
      List.Forall₂ Reads ms c.parts ∧ List.Forall₂ (UpTo R) ms ns := by
  induction imports generalizing cs ds with
  | nil =>
    obtain ⟨b, rfl, hb⟩ := forall₂_one hcs
    obtain _ | ⟨hd, _ | _⟩ := hds
    obtain ⟨i, p, ms, rfl, hms⟩ := reads_iff.mp hb
    obtain ⟨j, q, ns, rfl, below⟩ := hd.node_inv (by rintro ⟨⟩)
    rw [List.cons_append, List.cons_append, List.map_cons, List.map_cons, Shape.firstClass,
      Shape.firstClass, toShape_node, toShape_node]
    exact ⟨ms, ns, rfl, rfl, hms, below⟩
  | cons path imports ih =>
    obtain ⟨b, cs, hb, hrest, rfl⟩ := List.forall₂_cons_right_iff.mp hcs
    obtain _ | ⟨hd, hds⟩ := hds
    obtain ⟨i, p, ms, rfl, -⟩ := reads_iff.mp hb
    obtain ⟨j, q, ns, rfl, -⟩ := hd.node_inv (by rintro ⟨⟩)
    rw [List.cons_append, List.cons_append, List.map_cons, List.map_cons, Shape.firstClass,
      Shape.firstClass, toShape_node, toShape_node]
    exact ih hrest hds

/-- **The first class is lowered alike**, up to ids and parentheses in it, whatever is behind. -/
theorem lower_upTo {t t' : Tree} {p p' : Program} {i i' : NodeId} {pos pos' : Position}
    {imports : List String} {c : ClassDecl} {cs ds after after' : List Subtree}
    (h : t.Pictures p (.node i .program pos (cs ++ after)))
    (h' : t'.Pictures p' (.node i' .program pos' (ds ++ after')))
    (hcs : List.Forall₂ Reads cs (imports.map .importDecl ++ [.classDecl c]))
    (hds : List.Forall₂ (UpTo R) cs ds) : EndsUpTo R (t.lower table) (t'.lower table) := by
  obtain ⟨ms, ns, hfirst, hfirst', hms, hns⟩ := firstClass_upTo hcs hds after after'
  rw [Tree.lower, Tree.lower, h.children_eq, h'.children_eq]
  simp only [bind, Except.bind, hfirst, hfirst']
  have hparts : ∀ part ∈ c.parts, part.kind ≠ .paren := by
    rw [ClassDecl.parts, List.forall_mem_append, List.forall_mem_map, List.forall_mem_map]
    exact ⟨by rintro _ _ ⟨⟩, by rintro _ _ ⟨⟩⟩
  exact (lowerMethods_upTo table hparts hms hns 0).bind fun methods =>
    .refl (by rintro node reason ⟨⟩)

/-- **A class and the bare class are lowered alike**, up to the node that an error names. -/
theorem lower_bare {t t' : Tree} {b b' : Subtree} {imports : List String} {c : ClassDecl}
    {rest rest' : List ClassDecl} (h : t.Pictures ⟨imports, c :: rest⟩ b)
    (h' : t'.Pictures ⟨imports, c.bare :: rest'⟩ b') :
    EndsUpTo (fun _ _ => True) (t.lower table) (t'.lower table) := by
  obtain ⟨ms, hms, hlower⟩ := @lower_eq table _ _ _ _ _ h
  obtain ⟨ms', hms', hlower'⟩ := @lower_eq table _ _ _ _ _ h'
  have hbare : c.bare.methods.map Part.method = (c.methods.map Part.method).map Part.bare := by
    rw [ClassDecl.bare, List.map_map, List.map_map]
    rfl
  rw [hbare] at hms'
  have hupTo := forall₂_upTo (fun _ _ => upTo_of_bare) hms hms'
  rw [hlower, hlower']
  exact (lowerMethods_upTo table (by simp [Part.kind]) hms hupTo 0).bind fun methods =>
    .refl (by rintro node reason ⟨⟩)

/-- **Units with the same first class**, one without and one with others behind it, are lowered to
the same after rewriting that left the same class in both.  An error names a node of the former. -/
theorem lower_eq_of_rewritten {t u t' u' : Tree} {p q : Program} {imports : List String}
    {c : ClassDecl} {rest rest' : List ClassDecl} {r : NodeId} {pos : Position}
    {as bs : List Subtree} {b b' : Subtree} (ht : t.Pictures p (.node r .program pos as))
    (hu : u.Pictures q (.node r .program pos (as ++ bs))) (hlength : as.length = imports.length + 1)
    (hr : t.Rewritten t') (ht' : t'.Pictures ⟨imports, c :: rest⟩ b)
    (hr' : u.Rewritten u') (hu' : u'.Pictures ⟨imports, c :: rest'⟩ b') :
    t'.lower table = u'.lower table ∧
      ∀ node reason, t'.lower table = fail (.malformedTree node reason) → node < t.size := by
  have hbelow : ∀ a ∈ as, ∀ i ∈ a.ids, i < t.size := fun a ha i hi =>
    (ht.holds.child a ha).lt_size hi
  rw [← List.append_nil as] at ht
  obtain ⟨cs, after, rfl, hcs, hreads⟩ := hr.exists_units ht ht' hlength
  obtain ⟨ds, after', rfl, hds, hreads'⟩ := hr'.exists_units hu hu' hlength
  have hupTo : List.Forall₂ (UpTo (SameBelow t.size)) cs ds := by
    refine forall₂_upTo_of_rewritten (fun a ha d d' part h h' hd hd' => ?_) hcs hds hreads hreads'
    exact upTo_of_rewritten h h' hd hd' (hbelow a ha)
  have hends := lower_upTo table ht' hu' hreads hupTo
  obtain ⟨heq, hblamed⟩ := hends.eq fun i j h => h.1
  exact ⟨heq, fun node reason h => (hblamed node reason h).2⟩

end Lowering

end Classlet
