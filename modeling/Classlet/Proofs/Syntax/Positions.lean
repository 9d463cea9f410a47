import Classlet.Proofs.Syntax.Links
import Mathlib.Data.Prod.Lex

/-!
# Positions of built trees

The writer only ever goes right on its line or down to the next one before it adds a node.  So the
nodes of a built tree stand one after the other in the text, in the order of their ids, which is the
order in which a walk from the root meets them.

* `Writer.Ordered`: what the writer keeps, `Expr.ordered`, `Stmt.ordered`, `ClassDecl.ordered`.
* `Program.increasing_build`: the positions of a built tree increase.
* `Program.build_faithful`: all that makes a built tree a faithful picture of its program.
-/

namespace Classlet

/-! ### The order of positions -/

/-- Positions are compared by line, and by column on the same line. -/
instance : LinearOrder Position :=
  LinearOrder.lift' (fun p : Position => toLex (p.line, p.column)) fun p q h => by
    obtain ⟨hl, hc⟩ := Prod.mk.inj (toLex.injective h)
    cases p
    cases q
    exact congrArg₂ Position.mk hl hc

theorem Position.lt_iff {p q : Position} :
    p < q ↔ p.line < q.line ∨ p.line = q.line ∧ p.column < q.column :=
  Prod.Lex.toLex_lt_toLex

namespace Tree

/-- Where the nodes stand, by their ids. -/
def positions (t : Tree) : List Position := t.nodes.toList.map Node.position

theorem positions_add (t : Tree) (k : Kind) (p : Position) :
    (t.add k p).2.positions = t.positions ++ [p] := by
  simp [positions, add]

theorem positions_update (t : Tree) (i : NodeId) {f : Node → Node}
    (hf : ∀ n, (f n).position = n.position) : (t.update i f).positions = t.positions := by
  refine List.ext_getElem? fun j => ?_
  simp only [positions, List.getElem?_map, Array.getElem?_toList, getElem?_nodes_update]
  split
  · rcases t.nodes[j]? with _ | n
    · rfl
    · exact congrArg some (hf n)
  · rfl

theorem positions_link (t : Tree) (parent child : NodeId) :
    (t.link parent child).positions = t.positions := by
  rw [link, positions_update, positions_update]
  · exact fun _ => rfl
  · exact fun _ => rfl

theorem positions_getElem? {t : Tree} {i : NodeId} {n : Node} (h : t.nodes[i]? = some n) :
    t.positions[i]? = some n.position := by
  rw [positions, List.getElem?_map, Array.getElem?_toList, h]
  rfl

end Tree

/-! ### What the writer keeps -/

namespace Writer

variable {w : Writer} {parent : NodeId} {kind : Kind} {inside : NodeId → Writer → Writer}

/-- The place reached so far. -/
def place (w : Writer) : Position := ⟨w.line, w.column⟩

/-- The nodes written so far stand in the order of their ids, none beyond the place reached. -/
structure Ordered (w : Writer) : Prop where
  increasing : w.tree.positions.Pairwise (· < ·)
  le_place : ∀ p ∈ w.tree.positions, p ≤ w.place

theorem place_lt_newLine (w : Writer) : w.place < w.newLine.place :=
  Position.lt_iff.mpr (.inl (Int.lt_succ w.line))

theorem place_lt_advance (w : Writer) : w.place < w.advance.place :=
  Position.lt_iff.mpr (.inr ⟨rfl, Int.lt_add_of_pos_right w.column (by decide)⟩)

theorem ordered_start : start.Ordered := by
  have hpos : start.tree.positions = [start.place] := rfl
  refine ⟨hpos ▸ List.pairwise_singleton _ _, fun p hp => ?_⟩
  rw [hpos, List.mem_singleton] at hp
  exact le_of_eq hp

theorem Ordered.put_beyond (hi : w.tree.positions.Pairwise (· < ·))
    (hlt : ∀ p ∈ w.tree.positions, p < w.place)
    (hin : ∀ id v, Ordered v → (inside id v).Ordered) : (w.put parent kind inside).Ordered := by
  refine hin _ _ ?_
  have hpos : ((w.tree.add kind w.place).2.link parent w.tree.size).positions
      = w.tree.positions ++ [w.place] := by
    rw [Tree.positions_link, Tree.positions_add]
  refine ⟨?_, fun p hp => ?_⟩
  · change ((w.tree.add kind w.place).2.link parent w.tree.size).positions.Pairwise (· < ·)
    rw [hpos, List.pairwise_append]
    refine ⟨hi, List.pairwise_singleton _ _, fun p hp q hq => ?_⟩
    rw [List.mem_singleton.mp hq]
    exact hlt p hp
  · change p ∈ ((w.tree.add kind w.place).2.link parent w.tree.size).positions at hp
    rw [hpos, List.mem_append, List.mem_singleton] at hp
    exact hp.elim (fun hp => le_of_lt (hlt p hp)) le_of_eq

/-- **A node on a line of its own.** -/
theorem Ordered.newLine_put (h : w.Ordered) (hin : ∀ id v, Ordered v → (inside id v).Ordered) :
    (w.newLine.put parent kind inside).Ordered :=
  .put_beyond h.increasing (fun p hp => lt_of_le_of_lt (h.le_place p hp) w.place_lt_newLine) hin

/-- **A node further right.** -/
theorem Ordered.advance_put (h : w.Ordered) (hin : ∀ id v, Ordered v → (inside id v).Ordered) :
    (w.advance.put parent kind inside).Ordered :=
  .put_beyond h.increasing (fun p hp => lt_of_le_of_lt (h.le_place p hp) w.place_lt_advance) hin

theorem Ordered.newLine_leaf (h : w.Ordered) : (w.newLine.leaf parent kind).Ordered :=
  h.newLine_put fun _ _ h => h

theorem Ordered.advance_leaf (h : w.Ordered) : (w.advance.leaf parent kind).Ordered :=
  h.advance_put fun _ _ h => h

theorem Ordered.foldl {α : Type} {write : Writer → α → Writer}
    (hwrite : ∀ w a, Ordered w → (write w a).Ordered) :
    ∀ (as : List α) {w : Writer}, w.Ordered → (as.foldl write w).Ordered
  | [], _, h => h
  | a :: as, w, h => Ordered.foldl hwrite as (hwrite w a h)

end Writer

open Writer (Ordered)

theorem TypeExpr.ordered (ty : TypeExpr) {parent : NodeId} {w : Writer} (h : w.Ordered) :
    (ty.write parent w).Ordered := h.advance_leaf

theorem ordered_exprs {parent : NodeId} : ∀ {es : List Expr} {w : Writer},
    (∀ e ∈ es, ∀ (id : NodeId) (w : Writer), w.Ordered → (e.write id w).Ordered) →
    w.Ordered → (writeExprs parent es w).Ordered
  | [], _, _, h => by
    rw [writeExprs]
    exact h
  | e :: es, w, he, h => by
    rw [writeExprs]
    exact ordered_exprs (fun e hm => he e (List.mem_cons_of_mem _ hm))
      (he e List.mem_cons_self parent w h)

/-- **Writing an expression keeps the order.** -/
theorem Expr.ordered (e : Expr) {parent : NodeId} {w : Writer} (h : w.Ordered) :
    (e.write parent w).Ordered := by
  induction e generalizing parent w with
  | int _ | bool _ | var _ | newObject _ | this =>
    rw [Expr.write]
    exact h.advance_leaf
  | binary _ _ _ ih₁ ih₂ | index _ _ ih₁ ih₂ =>
    rw [Expr.write]
    exact h.advance_put fun _ _ h => ih₂ (ih₁ h)
  | unary _ _ ih | field _ _ ih | length _ ih | newArray _ ih | paren _ ih =>
    rw [Expr.write]
    exact h.advance_put fun _ _ h => ih h
  | call _ _ _ ihe iha =>
    rw [Expr.write]
    exact h.advance_put fun _ _ h => ordered_exprs (fun a ha _ _ h => iha a ha h) (ihe h)
  | arrayLit _ ih =>
    rw [Expr.write]
    exact h.advance_put fun _ _ h => ordered_exprs (fun a ha _ _ h => ih a ha h) h

theorem ordered_stmts {parent : NodeId} : ∀ {ss : List Stmt} {w : Writer},
    (∀ s ∈ ss, ∀ (id : NodeId) (w : Writer), w.Ordered → (s.write id w).Ordered) →
    w.Ordered → (writeStmts parent ss w).Ordered
  | [], _, _, h => by
    rw [writeStmts]
    exact h
  | s :: ss, w, hs, h => by
    rw [writeStmts]
    exact ordered_stmts (fun s hm => hs s (List.mem_cons_of_mem _ hm))
      (hs s List.mem_cons_self parent w h)

/-- **Writing a statement keeps the order.** -/
theorem Stmt.ordered (s : Stmt) {parent : NodeId} {w : Writer} (h : w.Ordered) :
    (s.write parent w).Ordered := by
  induction s generalizing parent w with
  | assign _ e | expr e =>
    rw [Stmt.write]
    exact h.newLine_put fun _ _ h => e.ordered h
  | arrayAssign _ i e =>
    rw [Stmt.write]
    exact h.newLine_put fun _ _ h => e.ordered (i.ordered h)
  | ret e =>
    rcases e with _ | e
    · rw [Stmt.write]
      exact h.newLine_leaf
    · rw [Stmt.write]
      exact h.newLine_put fun _ _ h => e.ordered h
  | ifThen c _ ih | whileDo c _ ih =>
    rw [Stmt.write]
    exact h.newLine_put fun _ _ h => ih (c.ordered h)
  | ifElse c _ _ ihb iho =>
    rw [Stmt.write]
    exact h.newLine_put fun _ _ h => iho (ihb (c.ordered h))
  | block _ ih =>
    rw [Stmt.write]
    exact h.newLine_put fun _ _ h => ordered_stmts (fun s hs _ _ h => ih s hs h) h

theorem ordered_declarations (kind : String → Kind) (decls : List (String × TypeExpr))
    {parent : NodeId} {w : Writer} (h : w.Ordered) :
    (decls.foldl (writeDeclaration kind parent) w).Ordered :=
  Ordered.foldl (fun _ decl h => h.newLine_put fun _ _ h => decl.2.ordered h) decls h

theorem MethodDecl.ordered (m : MethodDecl) {parent : NodeId} {w : Writer} (h : w.Ordered) :
    (MethodDecl.write parent w m).Ordered := by
  rw [MethodDecl.write]
  refine h.newLine_put fun id v h => ordered_stmts (fun s _ _ _ h => s.ordered h)
    (ordered_declarations .varDecl m.locals (ordered_declarations .param m.params ?_))
  rcases m.returnType with _ | ty
  · exact h
  · exact ty.ordered h

/-- **Writing a class keeps the order.** -/
theorem ClassDecl.ordered (c : ClassDecl) {parent : NodeId} {w : Writer} (h : w.Ordered) :
    (ClassDecl.write parent w c).Ordered := by
  rw [ClassDecl.write]
  exact h.newLine_put fun _ _ h => Ordered.foldl (fun _ m h => m.ordered h) c.methods
    (ordered_declarations .varDecl c.fields h)

/-! ### Built trees -/

namespace Program

/-- **The positions of a built tree increase** along the ids. -/
theorem increasing_build (p : Program) : p.build.positions.Pairwise (· < ·) := by
  have himports : (p.imports.foldl (writeImport 0) Writer.start).Ordered :=
    Ordered.foldl (fun _ _ h => h.newLine_leaf) p.imports Writer.ordered_start
  exact (Ordered.foldl (fun _ c h => c.ordered h) p.classes himports).increasing

/-- A node with a smaller id stands before one with a greater id. -/
theorem position_lt_of_lt {p : Program} {i j : NodeId} {m n : Node}
    (hm : p.build.nodes[i]? = some m) (hn : p.build.nodes[j]? = some n) (hij : i < j) :
    m.position < n.position := by
  obtain ⟨hi, him⟩ := List.getElem?_eq_some_iff.mp (Tree.positions_getElem? hm)
  obtain ⟨hj, hjn⟩ := List.getElem?_eq_some_iff.mp (Tree.positions_getElem? hn)
  rw [← him, ← hjn]
  exact List.pairwise_iff_getElem.mp p.increasing_build i j hi hj hij

/-- **A built tree is a faithful picture of its program.**  Its links agree, walking it from the
root gives the ids in order, the positions increase along the ids so that no two nodes share one,
and the program can be read back: no other program has this tree. -/
theorem build_faithful (p : Program) :
    p.build.WellLinked ∧
      p.build.descendants p.build.root = .ok (List.range p.build.size) ∧
      p.build.positions.Pairwise (· < ·) ∧ p.build.positions.Nodup ∧
      p.build.program? = some p ∧ ∀ q : Program, q.build = p.build ↔ q = p := by
  obtain ⟨b, hb, hids⟩ := p.build_holds
  refine ⟨p.wellLinked_build, ?_, p.increasing_build, p.increasing_build.imp ne_of_lt,
    p.program?_build, fun q => ⟨fun h => ?_, congrArg build⟩⟩
  · rw [← hb.root, hb.holds.descendants_eq hb.nodup, hids]
  · have hq := q.program?_build
    rw [h, p.program?_build] at hq
    exact (Option.some.inj hq).symm

end Program

end Classlet
