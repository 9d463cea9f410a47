import Classlet.Proofs.Analysis.Parentheses
import Classlet.Proofs.Lowering.Bodies

/-!
# Trees that differ in ids and parentheses

Neither ids nor parentheses leave a trace in the code.  What lowering asks about an expression
besides its code, its type and the import at the root of a chain of receivers, it asks through
parentheses.  An id is only named by an error, for the node whose value is missing, and this is
never a literal.  So trees are compared up to some of the ids and parentheses (`Subtree.UpTo`).

* `UpTo.exists_isExpr`: the other tree reads as an expression with the same bare expression.
* `upTo_of_reads`, `upTo_of_bare`: trees of one part, and of a part and the bare part.
-/

namespace Classlet

namespace Lowering

open Semantics

/-! ### What is asked about an expression -/

theorem importName?_bare (cx : Context) (e : Expr) : importName? cx e.bare = importName? cx e := by
  induction e with
  | paren inner ih => exact ih
  | _ => rfl

theorem importName?_innermost_bare (cx : Context) (e : Expr) :
    importName? cx (innermost e.bare) = importName? cx (innermost e) := by
  induction e with
  | paren inner ih => rw [Expr.bare, innermost, ih]
  | call receiver method args ih => rw [Expr.bare, innermost, innermost, ih]
  | field object name ih => rw [Expr.bare, innermost, innermost, ih]
  | _ => rfl

theorem expected_bare (cx : Context) (e : Expr) : cx.expected e.bare = cx.expected e := by
  rw [Context.expected, Context.expected, importName?_innermost_bare]

theorem leftHint_bare (cx : Context) (op : BinaryOp) (e : Expr) :
    cx.leftHint op e.bare = cx.leftHint op e := by
  rw [Context.leftHint, Context.leftHint, Expr.typeOf_bare]

end Lowering

/-! ### Trees -/

namespace Subtree

variable {R : NodeId → NodeId → Prop}

/-- The second subtree is the first without some of the parentheses.  `R` relates the ids of all
nodes that are no literals, and the id of parentheses that are missing to that of what is inside. -/
inductive UpTo (R : NodeId → NodeId → Prop) : Subtree → Subtree → Prop
  | node {i j : NodeId} {k : Kind} {p q : Position} {cs ds : List Subtree}
      (hid : k.isLiteral = true ∨ R i j) (below : List.Forall₂ (UpTo R) cs ds) :
      UpTo R (.node i k p cs) (.node j k q ds)
  | paren {i : NodeId} {p : Position} {c d : Subtree} (hid : R i d.id) (inside : UpTo R c d) :
      UpTo R (.node i .paren p [c]) d

namespace UpTo

variable {b d : Subtree}

/-- A subtree that is no parentheses is alike in kind and in the subtrees below. -/
theorem node_inv {i : NodeId} {k : Kind} {p : Position} {cs : List Subtree}
    (h : UpTo R (.node i k p cs) d) (hk : k ≠ .paren) :
    ∃ j q ds, d = .node j k q ds ∧ List.Forall₂ (UpTo R) cs ds := by
  cases h with
  | node _ below => exact ⟨_, _, _, rfl, below⟩
  | paren => exact absurd rfl hk

theorem exists_isExprs {es : List Expr} {cs ds : List Subtree}
    (h : ∀ e ∈ es, ∀ {b d : Subtree}, UpTo R b d → b.IsExpr e →
      ∃ e', d.IsExpr e' ∧ e'.bare = e.bare)
    (hcs : List.Forall₂ IsExpr cs es) (hds : List.Forall₂ (UpTo R) cs ds) :
    ∃ es', List.Forall₂ IsExpr ds es' ∧ es'.map Expr.bare = es.map Expr.bare := by
  induction hcs generalizing ds with
  | nil =>
    cases hds
    exact ⟨[], .nil, rfl⟩
  | cons hc _ ih =>
    obtain _ | ⟨hd, hrest⟩ := hds
    rw [List.forall_mem_cons] at h
    obtain ⟨e', he', hbare⟩ := h.1 hd hc
    obtain ⟨es', hes', hbares⟩ := ih h.2 hrest
    exact ⟨e' :: es', .cons he' hes', by rw [List.map_cons, List.map_cons, hbare, hbares]⟩

/-- **The other subtree reads as an expression**, the same but for parentheses. -/
theorem exists_isExpr {e : Expr} (h : UpTo R b d) (hb : b.IsExpr e) :
    ∃ e', d.IsExpr e' ∧ e'.bare = e.bare := by
  induction e using Expr.ind_parts generalizing b d with
  | h e ih =>
    obtain ⟨i, p, cs, rfl, hcs⟩ := isExpr_iff.mp hb
    generalize hk : e.kind = k at h
    cases h with
    | node _ below =>
      obtain ⟨es, hes, hbare⟩ := exists_isExprs ih hcs below
      have hlength : es.length = e.parts.length := by simpa using congrArg List.length hbare
      obtain ⟨e', hkind, rfl⟩ := e.exists_of_parts hlength
      exact ⟨e', isExpr_iff.mpr ⟨_, _, _, by rw [hkind, hk], hes⟩, Expr.bare_congr hkind hbare⟩
    | paren _ inside =>
      cases e with
      | paren inner => exact ih inner List.mem_cons_self inside (List.forall₂_cons.mp hcs).1
      | _ => cases hk

theorem isStatement_kind {part : Part} (h : UpTo R b d) (hb : b.Reads part) :
    d.kind.isStatement = part.stmt?.isSome := by
  rw [← part.isStatement_kind]
  by_cases hpart : part.kind = .paren
  · cases part with
    | expr e =>
      obtain ⟨e', he', -⟩ := h.exists_isExpr hb
      obtain ⟨i, p, cs, rfl, -⟩ := isExpr_iff.mp he'
      rw [hpart, kind_node]
      exact (Part.expr e').isStatement_kind
    | stmt s => cases s <;> cases hpart
    | _ => cases hpart
  · obtain ⟨i, p, cs, rfl, -⟩ := reads_iff.mp hb
    obtain ⟨j, q, ds, rfl, -⟩ := h.node_inv hpart
    rfl

end UpTo

theorem forall₂_upTo {f : Part → Part} {cs ds : List Subtree} {parts : List Part}
    (h : ∀ c ∈ cs, ∀ {d part}, c.Reads part → d.Reads (f part) → UpTo R c d)
    (hcs : List.Forall₂ Reads cs parts) (hds : List.Forall₂ Reads ds (parts.map f)) :
    List.Forall₂ (UpTo R) cs ds := by
  induction hcs generalizing ds with
  | nil =>
    cases hds
    exact .nil
  | cons hc _ ih =>
    rw [List.forall_mem_cons] at h
    obtain ⟨d, ds, hd, hrest, rfl⟩ := List.forall₂_cons_right_iff.mp hds
    exact .cons (h.1 hc hd) (ih h.2 hrest)

/-- **Trees of one part** differ in ids only. -/
theorem upTo_of_reads {b d : Subtree} {part : Part} (hb : b.Reads part) (hd : d.Reads part) :
    UpTo (fun _ _ => True) b d := by
  induction b generalizing d part with
  | node i k p cs ih =>
    obtain ⟨rfl, hcs⟩ := reads_node_iff.mp hb
    obtain ⟨j, q, ds, rfl, hds⟩ := reads_iff.mp hd
    rw [← List.map_id part.parts] at hds
    exact .node (.inr trivial) (forall₂_upTo ih hcs hds)

/-- **Trees of a part and of the bare part** differ in ids and parentheses only. -/
theorem upTo_of_bare {b d : Subtree} {part : Part} (hb : b.Reads part) (hd : d.Reads part.bare) :
    UpTo (fun _ _ => True) b d := by
  induction b generalizing d part with
  | node i k p cs ih =>
    obtain ⟨rfl, hcs⟩ := reads_node_iff.mp hb
    by_cases hpart : ∃ inner, part = .expr (.paren inner)
    · obtain ⟨inner, rfl⟩ := hpart
      obtain ⟨c, rfl, hc⟩ := forall₂_one hcs
      exact .paren trivial (ih c List.mem_cons_self hc hd)
    · obtain ⟨hkind, hparts⟩ := Part.bare_of_parts (not_exists.mp hpart)
      obtain ⟨j, q, ds, rfl, hds⟩ := reads_iff.mp hd
      rw [hparts] at hds
      rw [hkind]
      exact .node (.inr trivial) (forall₂_upTo ih hcs hds)

end Subtree

end Classlet
