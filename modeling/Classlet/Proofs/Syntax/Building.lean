import Classlet.Proofs.Syntax.Reading

/-!
# Built trees

The tree that a program is written into holds one subtree at its root, which has every node of the
tree once, and that subtree reads as the program.

Everything the writer does adds children at the end of one node (`Writes`): the nodes there were
before keep what they had, and the new nodes have the next free ids, in pre-order.

* `Program.build_holds`: what a built tree holds.
* `Program.pictures_further`: what further classes add to it.
* `Program.program?_build`: a program can be read back.
-/

namespace Classlet

open Subtree

/-- From `t` to `t'` the node `parent` got the children `bs`, with new ids in pre-order, and all
else stayed. -/
structure Tree.Appends (parent : NodeId) (t t' : Tree) (bs : List Subtree) : Prop where
  root_eq : t'.root = t.root
  size_le : t.size ≤ t'.size
  ids_eq : bs.flatMap ids = List.range' t.size (t'.size - t.size)
  nodes_eq : ∀ i < t.size, t'.nodes[i]? = t.nodes[i]?.map fun n : Node =>
    { n with children := if i = parent then n.children ++ bs.map Subtree.id else n.children }
  holds : ∀ b ∈ bs, t'.Holds (some parent) b

/-- From `t` to `t'` the node `parent` got children that stand for the given parts. -/
def Tree.Writes (parent : NodeId) (t t' : Tree) (parts : List Part) : Prop :=
  ∃ bs, Tree.Appends parent t t' bs ∧ parts? bs = some parts

namespace Tree

theorem Appends.refl (parent : NodeId) (t : Tree) : Appends parent t t [] := by
  refine ⟨rfl, Nat.le_refl _, by simp, fun i _ => ?_, by simp⟩
  cases t.nodes[i]? <;> simp

theorem Appends.trans {parent : NodeId} {t₁ t₂ t₃ : Tree} {as bs : List Subtree}
    (hp : parent < t₁.size) (h₁ : Appends parent t₁ t₂ as) (h₂ : Appends parent t₂ t₃ bs) :
    Appends parent t₁ t₃ (as ++ bs) := by
  have hle₁ := h₁.size_le
  have hle₂ := h₂.size_le
  refine ⟨h₂.root_eq.trans h₁.root_eq, Nat.le_trans hle₁ hle₂, ?_, fun i hi => ?_, fun b hb => ?_⟩
  · rw [List.flatMap_append, h₁.ids_eq, h₂.ids_eq]
    have hs : t₂.size = t₁.size + 1 * (t₂.size - t₁.size) := by omega
    have hl : t₃.size - t₁.size = t₂.size - t₁.size + (t₃.size - t₂.size) := by omega
    rw [hl, ← List.range'_append, ← hs]
  · rw [h₂.nodes_eq i (by omega), h₁.nodes_eq i hi]
    cases t₁.nodes[i]? with
    | none => rfl
    | some n => by_cases hi : i = parent <;> simp [hi]
  · rcases List.mem_append.mp hb with hb | hb
    · -- the nodes of the first part are neither `parent` nor touched by the second part
      refine (h₁.holds b hb).congr fun i hi => ?_
      have hmem : i ∈ as.flatMap ids := List.mem_flatMap.mpr ⟨b, hb, hi⟩
      rw [h₁.ids_eq, List.mem_range'_1] at hmem
      have hip : i ≠ parent := Nat.ne_of_gt (Nat.lt_of_lt_of_le hp hmem.1)
      rw [h₂.nodes_eq i (by omega)]
      cases t₂.nodes[i]? <;> simp [hip]
    · exact h₂.holds b hb

theorem Writes.refl (parent : NodeId) (t : Tree) : Writes parent t t [] :=
  ⟨[], .refl parent t, rfl⟩

theorem Writes.trans {parent : NodeId} {t₁ t₂ t₃ : Tree} {ps qs : List Part}
    (hp : parent < t₁.size) (h₁ : Writes parent t₁ t₂ ps) (h₂ : Writes parent t₂ t₃ qs) :
    Writes parent t₁ t₃ (ps ++ qs) := by
  obtain ⟨as, ha, hps⟩ := h₁
  obtain ⟨bs, hb, hqs⟩ := h₂
  exact ⟨as ++ bs, ha.trans hp hb, parts?_append hps hqs⟩

theorem Writes.size_le {parent : NodeId} {t t' : Tree} {ps : List Part}
    (h : Writes parent t t' ps) : t.size ≤ t'.size := by
  obtain ⟨bs, hb, -⟩ := h
  exact hb.size_le

theorem Appends.node {parent : NodeId} {t t' : Tree} {k : Kind} {p : Position} {cs : List Subtree}
    (hp : parent < t.size) (h : Appends t.size ((t.add k p).2.link parent t.size) t' cs) :
    Appends parent t t' [.node t.size k p cs] := by
  have hle := h.size_le
  simp only [size_link, size_add] at hle
  have hnew : t'.nodes[t.size]? = some ⟨k, p, some parent, cs.map Subtree.id⟩ := by
    rw [h.nodes_eq t.size (by simp)]
    simp only [link, getElem?_nodes_update, getElem?_nodes_add]
    have hne : parent ≠ t.size := Nat.ne_of_lt hp
    simp [hne]
  refine ⟨h.root_eq, by omega, ?_, fun i hi => ?_, fun b hb => ?_⟩
  · have hl : t'.size - t.size = t'.size - (t.size + 1) + 1 := by omega
    rw [List.flatMap_cons, List.flatMap_nil, List.append_nil, ids_node, h.ids_eq, hl,
      List.range'_succ]
    simp
  · rw [h.nodes_eq i (by simp; omega)]
    have hne : i ≠ t.size := by omega
    simp only [link, getElem?_nodes_update, getElem?_nodes_add, hne, if_false, hne.symm]
    rcases t.nodes[i]? with _ | n
    · simp
    · by_cases hip : parent = i <;> simp [hip, eq_comm]
  · rw [List.mem_singleton] at hb
    subst hb
    exact .node hnew h.holds

end Tree

/-! ### What the writer writes -/

open Classlet.Tree (Writes)

namespace Writer

/-- **A node and what belongs inside it.** -/
theorem writes_put (w : Writer) {parent : NodeId} {kind : Kind} {inside : NodeId → Writer → Writer}
    (parts : List Part) {part : Part} (hp : parent < w.tree.size)
    (h : ∀ id w', id < w'.tree.size → Writes id w'.tree (inside id w').tree parts)
    (hk : Part.ofKind kind parts = some part) :
    Writes parent w.tree (w.put parent kind inside).tree [part] := by
  obtain ⟨cs, hcs, hparts⟩ := h w.tree.size
    { w with tree := (w.tree.add kind ⟨w.line, w.column⟩).2.link parent w.tree.size } (by simp)
  refine ⟨[.node w.tree.size kind ⟨w.line, w.column⟩ cs], Tree.Appends.node hp hcs, ?_⟩
  rw [parts?, part?_node, hparts, Option.bind_some, hk]
  rfl

theorem writes_leaf (w : Writer) {parent : NodeId} {kind : Kind} {part : Part}
    (hp : parent < w.tree.size) (hk : Part.ofKind kind [] = some part) :
    Writes parent w.tree (w.leaf parent kind).tree [part] :=
  w.writes_put [] hp (fun id w' _ => .refl id w'.tree) hk

end Writer

open Writer

theorem TypeExpr.writes (ty : TypeExpr) {parent : NodeId} {w : Writer} (hp : parent < w.tree.size) :
    Writes parent w.tree (ty.write parent w).tree [.type ty] := by
  rw [TypeExpr.write]
  exact w.advance.writes_leaf hp rfl

theorem writes_exprs {parent : NodeId} : ∀ {es : List Expr} {w : Writer},
    (∀ e ∈ es, ∀ (id : NodeId) (w : Writer), id < w.tree.size →
      Writes id w.tree (e.write id w).tree [.expr e]) →
    parent < w.tree.size → Writes parent w.tree (writeExprs parent es w).tree (es.map .expr)
  | [], w, _, _ => by
    rw [writeExprs]
    exact .refl parent w.tree
  | e :: es, w, h, hp => by
    have he := h e (by simp) parent w hp
    rw [writeExprs]
    exact he.trans hp (writes_exprs (fun e he => h e (by simp [he]))
      (Nat.lt_of_lt_of_le hp he.size_le))

/-- **An expression is written as itself.** -/
theorem Expr.writes (e : Expr) {parent : NodeId} {w : Writer} (hp : parent < w.tree.size) :
    Writes parent w.tree (e.write parent w).tree [.expr e] := by
  induction e generalizing parent w with
  | int n => rw [Expr.write]; exact w.advance.writes_leaf hp rfl
  | bool b => rw [Expr.write]; exact w.advance.writes_leaf hp rfl
  | var x => rw [Expr.write]; exact w.advance.writes_leaf hp rfl
  | newObject c => rw [Expr.write]; exact w.advance.writes_leaf hp rfl
  | this => rw [Expr.write]; exact w.advance.writes_leaf hp rfl
  | binary op l r ihl ihr =>
    rw [Expr.write]
    refine w.advance.writes_put [.expr l, .expr r] hp (fun id w' hid => ?_) rfl
    exact (ihl hid).trans hid (ihr (Nat.lt_of_lt_of_le hid (ihl hid).size_le))
  | index a i iha ihi =>
    rw [Expr.write]
    refine w.advance.writes_put [.expr a, .expr i] hp (fun id w' hid => ?_) rfl
    exact (iha hid).trans hid (ihi (Nat.lt_of_lt_of_le hid (iha hid).size_le))
  | unary op e ih =>
    rw [Expr.write]
    exact w.advance.writes_put [.expr e] hp (fun id w' hid => ih hid) rfl
  | field e x ih =>
    rw [Expr.write]
    exact w.advance.writes_put [.expr e] hp (fun id w' hid => ih hid) rfl
  | length a ih =>
    rw [Expr.write]
    exact w.advance.writes_put [.expr a] hp (fun id w' hid => ih hid) rfl
  | newArray n ih =>
    rw [Expr.write]
    exact w.advance.writes_put [.expr n] hp (fun id w' hid => ih hid) rfl
  | paren e ih =>
    rw [Expr.write]
    exact w.advance.writes_put [.expr e] hp (fun id w' hid => ih hid) rfl
  | call e method args ihe iha =>
    rw [Expr.write]
    refine w.advance.writes_put (.expr e :: args.map .expr) hp (fun id w' hid => ?_) ?_
    · exact (ihe hid).trans hid (writes_exprs (fun a ha id w h => iha a ha h)
        (Nat.lt_of_lt_of_le hid (ihe hid).size_le))
    · exact Part.ofKind_eq_expr.mpr ⟨rfl, rfl⟩
  | arrayLit es ih =>
    rw [Expr.write]
    refine w.advance.writes_put (es.map .expr) hp (fun id w' hid => ?_) ?_
    · exact writes_exprs (fun a ha id w h => ih a ha h) hid
    · exact Part.ofKind_eq_expr.mpr ⟨rfl, rfl⟩

theorem writes_stmts {parent : NodeId} : ∀ {ss : List Stmt} {w : Writer},
    (∀ s ∈ ss, ∀ (id : NodeId) (w : Writer), id < w.tree.size →
      Writes id w.tree (s.write id w).tree [.stmt s]) →
    parent < w.tree.size → Writes parent w.tree (writeStmts parent ss w).tree (ss.map .stmt)
  | [], w, _, _ => by
    rw [writeStmts]
    exact .refl parent w.tree
  | s :: ss, w, h, hp => by
    have hs := h s (by simp) parent w hp
    rw [writeStmts]
    exact hs.trans hp (writes_stmts (fun s hs => h s (by simp [hs]))
      (Nat.lt_of_lt_of_le hp hs.size_le))

theorem Stmt.writes (s : Stmt) {parent : NodeId} {w : Writer} (hp : parent < w.tree.size) :
    Writes parent w.tree (s.write parent w).tree [.stmt s] := by
  induction s generalizing parent w with
  | assign x e =>
    rw [Stmt.write]
    exact w.newLine.writes_put [.expr e] hp (fun id w' hid => e.writes hid) rfl
  | arrayAssign x i e =>
    rw [Stmt.write]
    refine w.newLine.writes_put [.expr i, .expr e] hp (fun id w' hid => ?_) rfl
    have hi := i.writes (w := w') hid
    exact hi.trans hid (e.writes (Nat.lt_of_lt_of_le hid hi.size_le))
  | ret e =>
    rcases e with _ | e
    · rw [Stmt.write]; exact w.newLine.writes_leaf hp rfl
    · rw [Stmt.write]
      exact w.newLine.writes_put [.expr e] hp (fun id w' hid => e.writes hid) rfl
  | ifThen c b ih =>
    rw [Stmt.write]
    refine w.newLine.writes_put [.expr c, .stmt b] hp (fun id w' hid => ?_) rfl
    have hc := c.writes (w := w') hid
    exact hc.trans hid (ih (Nat.lt_of_lt_of_le hid hc.size_le))
  | ifElse c b o ihb iho =>
    rw [Stmt.write]
    refine w.newLine.writes_put ([.expr c, .stmt b] ++ [.stmt o]) hp (fun id w' hid => ?_) rfl
    have hc := c.writes (w := w') hid
    have hb := hc.trans hid (ihb (Nat.lt_of_lt_of_le hid hc.size_le))
    exact hb.trans hid (iho (Nat.lt_of_lt_of_le hid hb.size_le))
  | whileDo c b ih =>
    rw [Stmt.write]
    refine w.newLine.writes_put [.expr c, .stmt b] hp (fun id w' hid => ?_) rfl
    have hc := c.writes (w := w') hid
    exact hc.trans hid (ih (Nat.lt_of_lt_of_le hid hc.size_le))
  | block body ih =>
    rw [Stmt.write]
    refine w.newLine.writes_put (body.map .stmt) hp (fun id w' hid => ?_) ?_
    · exact writes_stmts (fun s hs id w h => ih s hs h) hid
    · exact Part.ofKind_eq_stmt.mpr ⟨rfl, rfl⟩
  | expr e =>
    rw [Stmt.write]
    exact w.newLine.writes_put [.expr e] hp (fun id w' hid => e.writes hid) rfl

/-! ### Declarations, classes and programs -/

/-- Things written one after the other, each as one part. -/
theorem writes_foldl {α : Type} {write : Writer → α → Writer} {toPart : α → Part} {parent : NodeId}
    (h : ∀ (a : α) (w : Writer), parent < w.tree.size →
      Writes parent w.tree (write w a).tree [toPart a]) :
    ∀ (as : List α) {w : Writer}, parent < w.tree.size →
      Writes parent w.tree (as.foldl write w).tree (as.map toPart)
  | [], w, _ => .refl parent w.tree
  | a :: as, w, hp => by
    have ha := h a w hp
    exact ha.trans hp (writes_foldl h as (Nat.lt_of_lt_of_le hp ha.size_le))

theorem writes_declarations (kind : String → Kind) (toPart : String × TypeExpr → Part)
    (hk : ∀ x ty, Part.ofKind (kind x) [.type ty] = some (toPart (x, ty)))
    (decls : List (String × TypeExpr)) {parent : NodeId} {w : Writer}
    (hp : parent < w.tree.size) :
    Writes parent w.tree (decls.foldl (writeDeclaration kind parent) w).tree
      (decls.map toPart) := by
  refine writes_foldl (fun decl w hp => ?_) decls hp
  rw [writeDeclaration]
  exact w.newLine.writes_put [.type decl.2] hp (fun id w' hid => decl.2.writes hid) (hk _ _)

theorem MethodDecl.writes_afterReturnType (m : MethodDecl) {id : NodeId} {t : Tree} {w : Writer}
    (hid : id < t.size) (hret : Writes id t w.tree (m.returnType.toList.map .type)) :
    Writes id t (writeStmts id m.body (m.locals.foldl (writeDeclaration .varDecl id)
      (m.params.foldl (writeDeclaration .param id) w))).tree m.parts := by
  have hparams := hret.trans hid (writes_declarations .param .param (fun _ _ => rfl) m.params
    (Nat.lt_of_lt_of_le hid hret.size_le))
  have hlocals := hparams.trans hid (writes_declarations .varDecl .varDecl (fun _ _ => rfl) m.locals
    (Nat.lt_of_lt_of_le hid hparams.size_le))
  exact hlocals.trans hid (writes_stmts (fun s _ id w h => s.writes h)
    (Nat.lt_of_lt_of_le hid hlocals.size_le))

theorem MethodDecl.writes (m : MethodDecl) {parent : NodeId} {w : Writer}
    (hp : parent < w.tree.size) :
    Writes parent w.tree (MethodDecl.write parent w m).tree [.method m] := by
  rw [MethodDecl.write]
  refine w.newLine.writes_put m.parts hp (fun id w' hid => ?_)
    (Part.ofKind_eq_some.mpr ⟨rfl, rfl⟩)
  refine m.writes_afterReturnType hid ?_
  rcases m.returnType with _ | ty
  · exact .refl id w'.tree
  · exact ty.writes hid

theorem ClassDecl.writes (c : ClassDecl) {parent : NodeId} {w : Writer}
    (hp : parent < w.tree.size) :
    Writes parent w.tree (ClassDecl.write parent w c).tree [.classDecl c] := by
  rw [ClassDecl.write]
  refine w.newLine.writes_put c.parts hp (fun id w' hid => ?_)
    (Part.ofKind_eq_some.mpr ⟨rfl, rfl⟩)
  have hfields := writes_declarations .varDecl .varDecl (fun _ _ => rfl) c.fields (w := w') hid
  exact hfields.trans hid (writes_foldl (fun m w h => m.writes h) c.methods
    (Nat.lt_of_lt_of_le hid hfields.size_le))

theorem writes_import (dotted : String) {parent : NodeId} {w : Writer}
    (hp : parent < w.tree.size) :
    Writes parent w.tree (writeImport parent w dotted).tree [.importDecl dotted] := by
  rw [writeImport]
  exact w.newLine.writes_leaf hp (Part.ofKind_eq_some.mpr ⟨rfl, rfl⟩)

theorem Program.writes (p : Program) : Writes 0 .emptyProgram p.build p.parts := by
  have h0 : 0 < Writer.start.tree.size := by decide
  have himports := writes_foldl (fun dotted w h => writes_import dotted h) p.imports h0
  exact himports.trans h0 (writes_foldl (fun c w h => c.writes h) p.classes
    (Nat.lt_of_lt_of_le h0 himports.size_le))

theorem Tree.Appends.pictures {p : Program} {t : Tree} {bs : List Subtree}
    (h : Appends 0 .emptyProgram t bs) (hparts : parts? bs = some p.parts) :
    t.Pictures p (.node 0 .program ⟨1, 1⟩ bs) ∧
      (Subtree.node 0 .program ⟨1, 1⟩ bs).ids = List.range t.size := by
  have hroot : t.nodes[0]? = some ⟨.program, ⟨1, 1⟩, none, bs.map Subtree.id⟩ := by
    have hn := h.nodes_eq 0 (by decide)
    simp only [if_true] at hn
    exact hn
  have hsize : t.size = t.size - 1 + 1 :=
    (Nat.sub_add_cancel (Nat.zero_lt_of_lt (Array.getElem?_eq_some_iff.mp hroot).1)).symm
  have hids : (Subtree.node 0 .program ⟨1, 1⟩ bs).ids = List.range t.size := by
    rw [ids_node, h.ids_eq, hsize, List.range_eq_range', List.range'_succ]
    rfl
  have hpart : Part.ofKind .program p.parts = some (.program p) :=
    Part.ofKind_eq_some.mpr ⟨rfl, rfl⟩
  refine ⟨⟨.node hroot h.holds, h.root_eq.symm, hids ▸ List.nodup_range, ?_⟩, hids⟩
  rw [Reads, part?_node, hparts, Option.bind_some, hpart]

/-- **What a built tree holds**: one subtree at its root that reads as the program and has all nodes
of the tree, in pre-order. -/
theorem Program.build_holds (p : Program) :
    ∃ b, p.build.Pictures p b ∧ b.ids = List.range p.build.size := by
  obtain ⟨bs, hbs, hparts⟩ := p.writes
  exact ⟨_, hbs.pictures hparts⟩

theorem Program.pictures_build (p : Program) : ∃ b, p.build.Pictures p b := by
  obtain ⟨b, hb, -⟩ := p.build_holds
  exact ⟨b, hb⟩

/-- The root of a built tree reaches all its nodes. -/
theorem Tree.Pictures.ids_build {p : Program} {b : Subtree} (h : p.build.Pictures p b) :
    b.ids = List.range p.build.size := by
  obtain ⟨b', hb, hids⟩ := p.build_holds
  rw [h.unique hb, hids]

theorem Tree.Pictures.mem_ids_build {p : Program} {b : Subtree} {i : NodeId}
    (h : p.build.Pictures p b) (hi : i < p.build.size) : i ∈ b.ids := by
  rw [h.ids_build]
  exact List.mem_range.mpr hi

theorem Program.writes_further (imports : List String) (cs ds : List ClassDecl) :
    Writes 0 (mk imports cs).build (mk imports (cs ++ ds)).build (ds.map .classDecl) := by
  rw [build, build, List.foldl_append]
  exact writes_foldl (fun c w h => c.writes h) ds (Nat.lt_of_lt_of_le (by decide)
    (mk imports cs).writes.size_le)

/-- **Further classes** come behind what is below the root without them. -/
theorem Program.pictures_further (imports : List String) (cs ds : List ClassDecl) :
    ∃ as bs, Tree.Appends 0 (mk imports cs).build (mk imports (cs ++ ds)).build bs ∧
      List.Forall₂ Reads bs (ds.map .classDecl) ∧
      (mk imports cs).build.Pictures ⟨imports, cs⟩ (.node 0 .program ⟨1, 1⟩ as) ∧
      (mk imports (cs ++ ds)).build.Pictures ⟨imports, cs ++ ds⟩
        (.node 0 .program ⟨1, 1⟩ (as ++ bs)) := by
  obtain ⟨as, ha, hps⟩ := (mk imports cs).writes
  obtain ⟨bs, hb, hqs⟩ := writes_further imports cs ds
  refine ⟨as, bs, hb, parts?_eq_some.mp hqs, (ha.pictures hps).1,
    ((ha.trans (by decide) hb).pictures ?_).1⟩
  rw [parts?_append hps hqs, parts, parts, List.map_append, List.append_assoc]

/-- **A program can be read back from its tree.** -/
theorem Program.program?_build (p : Program) : p.build.program? = some p := by
  obtain ⟨b, hb⟩ := p.pictures_build
  exact hb.program?_eq

end Classlet
