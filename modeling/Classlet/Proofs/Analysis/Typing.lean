import Classlet.Analysis.Values
import Classlet.Proofs.Syntax.Reading

/-!
# Types of expressions

The type that analysis finds for the node of an expression is a function of the expression and the
scope, and it is always found (`typeOf_ok`).
-/

namespace Classlet

open Subtree

/-- The type of an expression in a scope. -/
def Expr.typeOf (scope : Scope) : Expr → ExprType
  | .int _ | .length _ => .known .int
  | .bool _ => .known .boolean
  | .var name => scope.typeOfName name
  | .binary op _ _ => .known op.resultTy
  | .unary op _ => .known op.resultTy
  | .call receiver method _ => scope.typeOfCall method (receiver.typeOf scope)
  | .field object name => scope.typeOfField name (object.typeOf scope)
  | .index array _ => (array.typeOf scope).element
  | .newArray _ | .arrayLit _ => .known .intArray
  | .newObject className => .known (.object className)
  | .this => .known scope.classTy
  | .paren inner => inner.typeOf scope

namespace Shape

variable {scope : Scope}

/-- **The type of the node of an expression.** -/
theorem typeOf_ok {b : Subtree} {e : Expr} (h : b.IsExpr e) :
    b.toShape.typeOf scope = .ok (e.typeOf scope) := by
  induction e generalizing b with
  | call receiver method args ih =>
    obtain ⟨i, p, cs, rfl, hcs⟩ := isExpr_iff.mp h
    obtain ⟨c, ds, hc, -, rfl⟩ := List.forall₂_cons_right_iff.mp hcs
    rw [toShape_node, Expr.kind, List.map_cons, Shape.typeOf, ih hc, Expr.typeOf]
    rfl
  | index array position ih =>
    obtain ⟨i, p, cs, rfl, hcs⟩ := isExpr_iff.mp h
    obtain ⟨c, d, rfl, hc, -⟩ := forall₂_two hcs
    rw [toShape_node, Expr.kind, List.map_cons, Shape.typeOf, ih hc, Expr.typeOf]
    rfl
  | field object name ih =>
    obtain ⟨i, p, cs, rfl, hcs⟩ := isExpr_iff.mp h
    obtain ⟨c, rfl, hc⟩ := forall₂_one hcs
    rw [toShape_node, Expr.kind, List.map_cons, Shape.typeOf, ih hc, Expr.typeOf]
    rfl
  | paren inner ih =>
    obtain ⟨i, p, cs, rfl, hcs⟩ := isExpr_iff.mp h
    obtain ⟨c, rfl, hc⟩ := forall₂_one hcs
    rw [toShape_node, Expr.kind, List.map_cons, Shape.typeOf, ih hc, Expr.typeOf]
  | _ =>
    obtain ⟨i, p, cs, rfl, -⟩ := isExpr_iff.mp h
    rw [toShape_node, Expr.kind, Shape.typeOf, Expr.typeOf]
    rfl

theorem typesOf_ok {cs : List Subtree} {es : List Expr} (h : List.Forall₂ IsExpr cs es) :
    Values.typesOf scope (cs.map fun c _ => c.toShape) = .ok (es.map (Expr.typeOf scope)) := by
  induction h with
  | nil => rfl
  | cons hc _ ih =>
    rw [List.map_cons, Values.typesOf, typeOf_ok hc, ih]
    rfl

theorem typeOfChild_ok {cs : List Subtree} {parts : List Part} (h : List.Forall₂ Reads cs parts)
    (i : NodeId) (k : Kind) (p : Position) {n : Nat} {e : Expr} (he : parts[n]? = some (.expr e)) :
    (Subtree.node i k p cs).toShape.typeOfChild scope n = .ok (e.typeOf scope) := by
  have hn : n < cs.length := by
    rw [h.length_eq]
    exact (List.getElem?_eq_some_iff.mp he).1
  obtain ⟨hn', hpart⟩ := List.getElem?_eq_some_iff.mp he
  have hc : cs[n].IsExpr e := by
    have hget := h.get hn hn'
    simp only [List.get_eq_getElem, hpart] at hget
    exact hget
  rw [toShape_node, typeOfChild, child, List.getElem?_map, List.getElem?_eq_getElem hn]
  exact typeOf_ok hc

end Shape

end Classlet
