import Classlet.Proofs.Syntax.Parts

/-!
# Reading programs off trees

The inverse of writing a program into a tree: every node stands for a part of a program, made from
the parts its children stand for.  A node with children that do not fit its kind stands for nothing.

* `reads_iff`: a subtree reads as a part if its topmost node has the kind of the part and its
  children read as the parts of which that consists.
* `Tree.program?`: the program that a tree shows from its root.
* `Holds.program?_eq`: a held subtree shows what it reads as.
* `Tree.Pictures`: the subtree at the root reads as a program.
-/

namespace Classlet

/-! ### Reading -/

namespace Subtree

mutual

/-- The part a subtree stands for. -/
def part? : Subtree → Option Part
  | .node _ kind _ children => (parts? children).bind (Part.ofKind kind)

/-- The parts that subtrees stand for. -/
def parts? : List Subtree → Option (List Part)
  | [] => some []
  | b :: rest => b.part?.bind fun part => (parts? rest).map (part :: ·)

end

theorem part?_node (i : NodeId) (k : Kind) (p : Position) (cs : List Subtree) :
    (node i k p cs).part? = (parts? cs).bind (Part.ofKind k) := by
  rw [part?]

theorem parts?_eq_some {bs : List Subtree} {parts : List Part} :
    parts? bs = some parts ↔ List.Forall₂ (fun b part => b.part? = some part) bs parts := by
  induction bs generalizing parts with
  | nil => cases parts <;> simp [parts?]
  | cons b bs ih =>
    rw [parts?]
    constructor
    · intro h
      obtain ⟨part, hb, h⟩ := Option.bind_eq_some_iff.mp h
      obtain ⟨rest, hr, rfl⟩ := Option.map_eq_some_iff.mp h
      exact .cons hb (ih.mp hr)
    · rintro (_ | ⟨hb, hr⟩)
      rw [hb, ih.mpr hr]
      rfl

theorem parts?_append {as bs : List Subtree} {ps qs : List Part} (ha : parts? as = some ps)
    (hb : parts? bs = some qs) : parts? (as ++ bs) = some (ps ++ qs) := by
  rw [parts?_eq_some] at ha hb ⊢
  induction ha with
  | nil => exact hb
  | cons h _ ih => exact .cons h ih


/-- Reading does not depend on ids. -/
theorem part?_outline (b : Subtree) : b.outline.part? = b.part? := by
  induction b with
  | node i k p cs ih =>
    have hall : parts? (cs.map outline) = parts? cs := by
      induction cs with
      | nil => rfl
      | cons c cs ihc =>
        rw [List.map_cons, parts?, parts?, ih c List.mem_cons_self,
          ihc fun d hd => ih d (List.mem_cons_of_mem _ hd)]
    rw [outline_node, part?_node, part?_node, hall]

/-- The subtree reads as the part. -/
def Reads (b : Subtree) (part : Part) : Prop := b.part? = some part

/-- The subtree reads as the expression. -/
def IsExpr (b : Subtree) (e : Expr) : Prop := b.Reads (.expr e)

/-- The subtree reads as the statement. -/
def IsStmt (b : Subtree) (s : Stmt) : Prop := b.Reads (.stmt s)

theorem Reads.of_outline {b b' : Subtree} {part : Part} (h : b.Reads part)
    (he : b'.outline = b.outline) : b'.Reads part := by
  unfold Reads at h ⊢
  rw [← part?_outline, he, part?_outline, h]

theorem reads_node {i : NodeId} {k : Kind} {p : Position} {cs : List Subtree} {part : Part} :
    (node i k p cs).Reads part ↔
      ∃ parts, List.Forall₂ Reads cs parts ∧ Part.ofKind k parts = some part := by
  unfold Reads
  rw [part?_node, Option.bind_eq_some_iff]
  exact exists_congr fun parts => and_congr_left' parts?_eq_some

/-- **What a subtree that reads as a part looks like.** -/
theorem reads_iff {b : Subtree} {part : Part} :
    b.Reads part ↔ ∃ i p cs, b = node i part.kind p cs ∧ List.Forall₂ Reads cs part.parts := by
  obtain ⟨i, k, p, cs⟩ := b
  simp only [reads_node, Part.ofKind_eq_some, node.injEq]
  constructor
  · rintro ⟨_, hcs, rfl, rfl⟩
    exact ⟨i, p, cs, ⟨rfl, rfl, rfl, rfl⟩, hcs⟩
  · rintro ⟨_, _, _, ⟨rfl, rfl, rfl, rfl⟩, hcs⟩
    exact ⟨_, hcs, rfl, rfl⟩

theorem reads_node_iff {i : NodeId} {k : Kind} {p : Position} {cs : List Subtree} {part : Part} :
    (node i k p cs).Reads part ↔ k = part.kind ∧ List.Forall₂ Reads cs part.parts := by
  rw [reads_iff]
  constructor
  · rintro ⟨_, _, _, hnode, hcs⟩
    cases hnode
    exact ⟨rfl, hcs⟩
  · rintro ⟨rfl, hcs⟩
    exact ⟨i, p, cs, rfl, hcs⟩

theorem Reads.kind_eq {b : Subtree} {part : Part} (h : b.Reads part) : b.kind = part.kind := by
  obtain ⟨i, p, cs, rfl, -⟩ := reads_iff.mp h
  rfl

theorem Reads.kind_toShape {b : Subtree} {part : Part} (h : b.Reads part) :
    b.toShape.kind = .ok part.kind := by
  rw [Subtree.kind_toShape, h.kind_eq]

theorem forall₂_one {α : Type} {R : Subtree → α → Prop} {cs : List Subtree} {x : α}
    (h : List.Forall₂ R cs [x]) : ∃ c, cs = [c] ∧ R c x := by
  obtain ⟨c, _, hc, hnil, rfl⟩ := List.forall₂_cons_right_iff.mp h
  exact ⟨c, by rw [List.forall₂_nil_right_iff.mp hnil], hc⟩

theorem forall₂_two {α : Type} {R : Subtree → α → Prop} {cs : List Subtree} {x y : α}
    (h : List.Forall₂ R cs [x, y]) : ∃ c d, cs = [c, d] ∧ R c x ∧ R d y := by
  obtain ⟨c, _, hc, hrest, rfl⟩ := List.forall₂_cons_right_iff.mp h
  obtain ⟨d, rfl, hd⟩ := forall₂_one hrest
  exact ⟨c, d, rfl, hc, hd⟩

theorem forall₂_three {α : Type} {R : Subtree → α → Prop} {cs : List Subtree} {x y z : α}
    (h : List.Forall₂ R cs [x, y, z]) : ∃ c d f, cs = [c, d, f] ∧ R c x ∧ R d y ∧ R f z := by
  obtain ⟨c, _, hc, hrest, rfl⟩ := List.forall₂_cons_right_iff.mp h
  obtain ⟨d, f, rfl, hd, hf⟩ := forall₂_two hrest
  exact ⟨c, d, f, rfl, hc, hd, hf⟩

theorem forall₂_of_mem_left {α β : Type} {R : β → α → Prop} {cs : List β} {xs : List α} {c : β}
    (h : List.Forall₂ R cs xs) (hc : c ∈ cs) : ∃ x ∈ xs, R c x := by
  induction h with
  | nil => cases hc
  | cons hx _ ih =>
    rcases List.mem_cons.mp hc with rfl | hc
    · exact ⟨_, List.mem_cons_self, hx⟩
    · obtain ⟨x, hmem, hx⟩ := ih hc
      exact ⟨x, List.mem_cons_of_mem _ hmem, hx⟩

theorem forall₂_of_mem {α : Type} {R : Subtree → α → Prop} {cs : List Subtree} {xs : List α}
    {c : Subtree} (h : List.Forall₂ R cs xs) (hc : c ∈ cs) : ∃ x, R c x := by
  obtain ⟨x, -, hx⟩ := forall₂_of_mem_left h hc
  exact ⟨x, hx⟩

theorem forall₂_of_mem_right {α : Type} {R : Subtree → α → Prop} {cs : List Subtree} {xs : List α}
    {x : α} (h : List.Forall₂ R cs xs) (hx : x ∈ xs) : ∃ c ∈ cs, R c x :=
  forall₂_of_mem_left h.flip hx

theorem forall₂_append_inv {α β : Type} {R : α → β → Prop} {as : List α} {bs cs : List β}
    (h : List.Forall₂ R as (bs ++ cs)) :
    ∃ as₁ as₂, as = as₁ ++ as₂ ∧ List.Forall₂ R as₁ bs ∧ List.Forall₂ R as₂ cs :=
  ⟨_, _, (List.take_append_drop bs.length as).symm, List.forall₂_take_append _ _ _ h,
    List.forall₂_drop_append _ _ _ h⟩

theorem forall₂_of_append {α β : Type} {R : α → β → Prop} {as as' : List α} {bs bs' : List β}
    (h : List.Forall₂ R (as ++ as') (bs ++ bs')) (hlen : as.length = bs.length) :
    List.Forall₂ R as bs ∧ List.Forall₂ R as' bs' := by
  have hfront := List.forall₂_take_append _ _ _ h
  have hback := List.forall₂_drop_append _ _ _ h
  rw [← hlen, List.take_left] at hfront
  rw [← hlen, List.drop_left] at hback
  exact ⟨hfront, hback⟩

theorem forall₂_getElem? {α β : Type} {R : α → β → Prop} {as : List α} {bs : List β}
    (h : List.Forall₂ R as bs) (i : Nat) :
    as[i]? = none ∧ bs[i]? = none ∨ ∃ a b, as[i]? = some a ∧ bs[i]? = some b ∧ R a b := by
  induction h generalizing i with
  | nil => exact .inl ⟨rfl, rfl⟩
  | @cons a b as bs hab _ ih =>
    cases i with
    | zero => exact .inr ⟨a, b, rfl, rfl, hab⟩
    | succ i => exact ih i

theorem exists_mem_zip {α β γ : Type} {R : α → β → Prop} {as : List α} {bs : List β}
    (h : List.Forall₂ R as bs) {ks : List γ} {k : γ} {a : α} (hmem : (k, a) ∈ ks.zip as) :
    ∃ b, (k, b) ∈ ks.zip bs ∧ R a b := by
  obtain ⟨i, hi⟩ := List.mem_iff_getElem?.mp hmem
  obtain ⟨hk, ha⟩ := List.getElem?_zip_eq_some.mp hi
  rcases forall₂_getElem? h i with ⟨hnone, -⟩ | ⟨a', b, ha', hb, hab⟩
  · cases hnone.symm.trans ha
  · obtain rfl := Option.some.inj (ha'.symm.trans ha)
    exact ⟨b, List.mem_iff_getElem?.mpr ⟨i, List.getElem?_zip_eq_some.mpr ⟨hk, hb⟩⟩, hab⟩

/-- **What a subtree that reads as an expression looks like.** -/
theorem isExpr_iff {b : Subtree} {e : Expr} :
    b.IsExpr e ↔ ∃ i p cs, b = node i e.kind p cs ∧ List.Forall₂ IsExpr cs e.parts := by
  unfold IsExpr
  rw [reads_iff]
  simp only [Part.parts, List.forall₂_map_right_iff]
  rfl

theorem isExpr_leaf {e : Expr} (h : e.parts = []) (i : NodeId) (p : Position) :
    (node i e.kind p []).IsExpr e :=
  isExpr_iff.mpr ⟨i, p, [], rfl, by rw [h]; exact .nil⟩

/-- **What a subtree that reads as a statement looks like.** -/
theorem isStmt_iff {b : Subtree} {s : Stmt} :
    b.IsStmt s ↔ ∃ i p cs, b = node i s.kind p cs ∧ List.Forall₂ Reads cs s.parts :=
  reads_iff

end Subtree

namespace Tree

/-- The subtree at an id, to a depth of `fuel` nodes. -/
def subtreeWithin (t : Tree) : Nat → NodeId → Option Subtree
  | 0, _ => none
  | fuel + 1, id =>
    t.nodes[id]?.bind fun n =>
      (n.children.mapM (subtreeWithin t fuel)).map (.node id n.kind n.position)

/-- The program that a tree shows from its root. -/
def program? (t : Tree) : Option Program :=
  (t.subtreeWithin t.size t.root).bind fun b => b.part?.bind Part.program?

theorem Holds.subtreeWithin_eq {t : Tree} {parent : Option NodeId} {b : Subtree}
    (h : t.Holds parent b) {fuel : Nat} (hf : b.ids.length ≤ fuel) :
    t.subtreeWithin fuel b.id = some b := by
  induction b generalizing parent fuel with
  | node i k p cs ih =>
    obtain ⟨fuel, rfl⟩ : ∃ n, fuel = n + 1 :=
      ⟨fuel - 1, by have := (Subtree.node i k p cs).length_ids_pos; omega⟩
    have hall : (cs.map Subtree.id).mapM (t.subtreeWithin fuel) = some cs := by
      have hc : ∀ c ∈ cs, t.subtreeWithin fuel c.id = some c := fun c hc =>
        ih c hc (h.child c hc)
          (by have := Subtree.length_ids_child (i := i) (k := k) (p := p) hc; omega)
      clear ih h hf
      induction cs with
      | nil => rfl
      | cons c cs ihc =>
        rw [List.map_cons, List.mapM_cons, hc c (by simp),
          ihc fun d hd => hc d (by simp [hd])]
        rfl
    rw [subtreeWithin, Subtree.id_node, h.here, Option.bind_some, hall, Option.map_some]

/-- **A tree shows what the subtree at its root reads as.** -/
theorem Holds.program?_eq {t : Tree} {b : Subtree} {p : Program} (h : t.Holds none b)
    (hroot : b.id = t.root) (hb : b.ids.Nodup) (hp : b.part? = some (.program p)) :
    t.program? = some p := by
  rw [program?, ← hroot, h.subtreeWithin_eq (h.length_ids_le hb), Option.bind_some, hp]
  rfl

/-- The subtree at the root of the tree is `b`, and reads as the program. -/
structure Pictures (t : Tree) (p : Program) (b : Subtree) : Prop where
  holds : t.Holds none b
  root : b.id = t.root
  nodup : b.ids.Nodup
  reads : b.Reads (.program p)

theorem Pictures.program?_eq {t : Tree} {p : Program} {b : Subtree} (h : t.Pictures p b) :
    t.program? = some p :=
  h.holds.program?_eq h.root h.nodup h.reads

theorem Pictures.length_ids_le {t : Tree} {p : Program} {b : Subtree} (h : t.Pictures p b) :
    b.ids.length ≤ t.size :=
  h.holds.length_ids_le h.nodup

theorem Pictures.children_eq {t : Tree} {p : Program} {i : NodeId} {k : Kind} {pos : Position}
    {cs : List Subtree} (h : t.Pictures p (.node i k pos cs)) :
    (t.shape t.root).children = .ok (cs.map fun c _ => c.toShape) := by
  rw [← h.root, h.holds.shape_eq h.nodup, Subtree.toShape_node]
  rfl

open Subtree in
theorem Pictures.exists_firstClass {t : Tree} {b : Subtree} {imports : List String}
    {c : ClassDecl} {rest : List ClassDecl} (h : t.Pictures ⟨imports, c :: rest⟩ b) :
    ∃ r pos is i p fs ms after,
      b = .node r .program pos
        (is ++ .node i (.classDecl c.name c.superclass) p (fs ++ ms) :: after) ∧
      List.Forall₂ Reads is (imports.map .importDecl) ∧
      List.Forall₂ Reads fs (c.fields.map .varDecl) ∧
      List.Forall₂ Reads ms (c.methods.map .method) ∧
      List.Forall₂ Reads after (rest.map .classDecl) := by
  obtain ⟨r, pos, units, rfl, hunits⟩ := reads_iff.mp h.reads
  obtain ⟨is, cs, rfl, his, hcs⟩ := forall₂_append_inv hunits
  obtain ⟨cb, after, hc, hafter, rfl⟩ := List.forall₂_cons_right_iff.mp hcs
  obtain ⟨i, p, members, rfl, hmembers⟩ := reads_iff.mp hc
  obtain ⟨fs, ms, rfl, hfs, hms⟩ := forall₂_append_inv hmembers
  exact ⟨r, pos, is, i, p, fs, ms, after, rfl, his, hfs, hms, hafter⟩

theorem Pictures.unique {t : Tree} {p p' : Program} {b b' : Subtree} (h : t.Pictures p b)
    (h' : t.Pictures p' b') : b = b' := by
  have heq := h.holds.subtreeWithin_eq h.length_ids_le
  have heq' := h'.holds.subtreeWithin_eq h'.length_ids_le
  rw [h.root] at heq
  rw [h'.root, heq] at heq'
  exact Option.some.inj heq'

end Tree

theorem Shape.firstClass_ok {imports : List String} {is rest : List Subtree} {i : NodeId}
    {name : String} {superclass : Option String} {p : Position} {ds : List Subtree}
    (h : List.Forall₂ Subtree.Reads is (imports.map .importDecl)) :
    Shape.firstClass ((is ++ .node i (.classDecl name superclass) p ds :: rest).map
        fun c _ => c.toShape)
      = .ok (name, superclass, ds.map fun d _ => d.toShape) := by
  rw [List.forall₂_map_right_iff] at h
  induction h with
  | nil =>
    rw [List.nil_append, List.map_cons, Shape.firstClass, Subtree.toShape_node]
    rfl
  | cons hc _ ih =>
    obtain ⟨j, pos, cs, rfl, -⟩ := Subtree.reads_iff.mp hc
    rw [List.cons_append, List.map_cons, Shape.firstClass, Subtree.toShape_node]
    exact ih

end Classlet
