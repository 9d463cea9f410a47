import Classlet.Analysis.Analyzer
import Classlet.Proofs.Analysis.Typing
import Classlet.Proofs.Analysis.Walk

/-!
# What the passes find

What a pass finds at a node depends on the scope, the kind of the node and the types of the
expressions right below it (`Pass.JudgesBy`); only the pass on written types asks where in the tree
a node stands.  A node that stands for a part of a program never makes a pass halt.
-/

namespace Classlet

open Subtree

/-- The types of the expressions of which a part consists. -/
def Part.types (scope : Scope) (part : Part) : List ExprType := part.values (Expr.typeOf scope)

theorem Part.types_expr (scope : Scope) (e : Expr) :
    (Part.expr e).types scope = e.parts.map (Expr.typeOf scope) := by
  simp [types, values, Part.parts, List.filterMap_map, expr?]

/-! ### Messages -/

namespace Names

/-- What is wrong with the names of a node. -/
def messages (scope : Scope) : Kind → List ExprType → List String
  | .varRef name, _ => (readError? scope name).toList
  | .this, _ => if scope.inStatic then [thisInStatic] else []
  | .assign target, _ | .arrayAssign target, _ => (assignError? scope target).toList
  | _, _ => []

end Names

namespace Operands

/-- What is wrong with the operands of an operator. -/
def operationMessages (scope : Scope) : Kind → List ExprType → List String
  | .binary op, [lhs, rhs] => (binaryError? scope op lhs rhs).toList
  | .unary op, [operand] => (unaryError? scope op operand).toList
  | _, _ => []

/-- What is wrong with a condition. -/
def conditionMessages (scope : Scope) : Kind → List ExprType → List String
  | .ifStmt, [cond] => (conditionError? scope "if" cond).toList
  | .whileStmt, [cond] => (conditionError? scope "while" cond).toList
  | _, _ => []

/-- What is wrong with an operand in its role. -/
def ArrayRole.messages (scope : Scope) (role : ArrayRole) (operand : ExprType) : List String :=
  (role.error? scope operand).toList

/-- What is wrong with the operands of an array construct. -/
def arrayMessages (scope : Scope) : Kind → List ExprType → List String
  | .arrayAccess, [array, index] =>
    ArrayRole.subscripted.messages scope array ++ ArrayRole.index.messages scope index
  | .arrayLength, [array] => ArrayRole.lengthOf.messages scope array
  | .newArray, [size] => ArrayRole.size.messages scope size
  | .arrayLit, elements => elements.flatMap (ArrayRole.element.messages scope)
  | .arrayAssign target, [index, value] =>
    (elementTargetError? scope target).toList ++ (ArrayRole.index.messages scope index
      ++ ArrayRole.element.messages scope value)
  | _, _ => []

end Operands

namespace Values

/-- What is wrong with a return. -/
def returnMessages (scope : Scope) : Kind → List ExprType → List String
  | .returnStmt, types =>
    match scope.method, types with
    | some m, [] =>
      if m.returnType.isVoid then []
      else ["Method " ++ Text.quoted m.name ++ " must return a value of type "
        ++ Text.quoted m.returnType.text]
    | some m, actual :: _ =>
      if m.returnType.isVoid then
        ["Method " ++ Text.quoted m.name ++ " returns void and cannot return a value"]
      else (returnError? scope m actual).toList
    | none, _ => []
  | _, _ => []

/-- What is wrong with an assignment. -/
def assignmentMessages (scope : Scope) : Kind → List ExprType → List String
  | .assign target, [actual] =>
    match targetTy? scope target with
    | none => ["Assignment target " ++ Text.quoted target ++ " is not declared in this scope"]
    | some declared => (assignError? scope target declared actual).toList
  | _, _ => []

/-- What is wrong with a call of a method defined outside the unit. -/
def externalMessages (scope : Scope) (method : String) : List String :=
  if scope.policy.isLenient then []
  else ["Cannot verify the call to " ++ Text.quoted method ++ " on an imported type"]

/-- What is wrong with a call. -/
def argumentMessages (scope : Scope) : Kind → List ExprType → List String
  | .methodCall method, receiver :: args =>
    match Owner.of scope receiver with
    | .thisClass =>
      match scope.table.signature? method with
      | some m => argumentErrors scope m args
      | none =>
        if scope.table.superclassIsImported then externalMessages scope method
        else ["Method " ++ Text.quoted method ++ " not found in class "
          ++ Text.quoted scope.table.className]
    | .external => externalMessages scope method
    | .invalid ty =>
      ["Method " ++ Text.quoted method ++ " not found in type " ++ Text.quoted ty.text]
    | .unresolved reason =>
      ["Cannot resolve the receiver of " ++ Text.quoted method ++ ": " ++ reason]
  | _, _ => []

end Values

/-! ### Visits -/

/-- At a node that stands for a part, the pass finds the messages for its kind and the types of the
expressions of which it consists. -/
def Pass.JudgesBy (pass : Pass) (messages : Scope → Kind → List ExprType → List String) : Prop :=
  ∀ (t : Tree) (scope : Scope) {b : Subtree} {part : Part}, b.Reads part → ∃ p : Position,
    pass.visit t scope b.toShape
      = ⟨(messages scope part.kind (part.types scope)).map (Finding.mk p), .ok ()⟩

namespace Check

variable {i : NodeId} {k : Kind} {p : Position} {cs : List Subtree}

theorem errors_node (msgs : List String) :
    errors (node i k p cs).toShape msgs = ⟨msgs.map (Finding.mk p), .ok ()⟩ := by
  rw [toShape_node]
  induction msgs with
  | nil => rfl
  | cons message rest ih =>
    rw [errors, ih]
    rfl

theorem error_node (message : String) :
    error (node i k p cs).toShape message = ⟨[⟨p, message⟩], .ok ()⟩ := by
  rw [toShape_node]
  rfl

theorem shapeKind_node : (node i k p cs).toShape.kind = .ok k := by
  rw [toShape_node]
  rfl

theorem shapeChildren_node :
    (node i k p cs).toShape.children = .ok (cs.map fun c _ => c.toShape) := by
  rw [toShape_node]
  rfl

end Check

open Check in
theorem Names.judgesBy_messages : undeclaredPass.JudgesBy messages := by
  intro t scope b part h
  obtain ⟨i, p, cs, rfl, hcs⟩ := reads_iff.mp h
  refine ⟨p, ?_⟩
  simp only [undeclaredPass, shapeKind_node, lift_ok_bind]
  cases part with
  | expr e => cases e <;> first | exact errors_node _ | rfl
  | stmt s => cases s <;> first | exact errors_node _ | rfl
  | _ => rfl

namespace Operands

open Check

theorem judgesBy_operationMessages : operationPass.JudgesBy operationMessages := by
  intro t scope b part h
  obtain ⟨i, p, cs, rfl, hcs⟩ := reads_iff.mp h
  refine ⟨p, ?_⟩
  simp only [operationPass, shapeKind_node, lift_ok_bind]
  cases part with
  | expr e =>
    cases e with
    | binary op lhs rhs =>
      simp only [Part.kind, Expr.kind, Shape.typeOfChild_ok hcs i _ p (n := 0) rfl,
        Shape.typeOfChild_ok hcs i _ p (n := 1) rfl, lift_ok_bind]
      exact errors_node _
    | unary op operand =>
      simp only [Part.kind, Expr.kind, Shape.typeOfChild_ok hcs i _ p (n := 0) rfl, lift_ok_bind]
      exact errors_node _
    | _ => rfl
  | stmt s => cases s <;> rfl
  | _ => rfl

theorem judgesBy_conditionMessages : conditionPass.JudgesBy conditionMessages := by
  intro t scope b part h
  obtain ⟨i, p, cs, rfl, hcs⟩ := reads_iff.mp h
  refine ⟨p, ?_⟩
  simp only [conditionPass, shapeKind_node, lift_ok_bind]
  cases part with
  | expr e => cases e <;> rfl
  | stmt s =>
    cases s with
    | ifThen | ifElse | whileDo =>
      simp only [Part.kind, Stmt.kind, Shape.typeOfChild_ok hcs i _ p (n := 0) rfl, lift_ok_bind]
      exact errors_node _
    | _ => rfl
  | _ => rfl

theorem checkElements_node (scope : Scope) {i : NodeId} {k : Kind} {p : Position}
    {cs ds : List Subtree} {es : List Expr} (h : List.Forall₂ IsExpr ds es) :
    checkElements scope (node i k p cs).toShape (ds.map fun d _ => d.toShape)
      = ⟨((es.map (Expr.typeOf scope)).flatMap (ArrayRole.element.messages scope)).map
        (Finding.mk p), .ok ()⟩ := by
  induction h with
  | nil => rfl
  | cons hd _ ih =>
    rw [List.map_cons, checkElements, ArrayRole.check, Shape.typeOf_ok hd, lift_ok_bind,
      errors_node, ih, bind_ok, List.map_cons, List.flatMap_cons, List.map_append]
    rfl

theorem judgesBy_arrayMessages : arrayPass.JudgesBy arrayMessages := by
  intro t scope b part h
  obtain ⟨i, p, cs, rfl, hcs⟩ := reads_iff.mp h
  refine ⟨p, ?_⟩
  simp only [arrayPass, shapeKind_node, lift_ok_bind, ArrayRole.check]
  cases part with
  | expr e =>
    cases e with
    | index array position =>
      simp only [Part.kind, Expr.kind, Shape.typeOfChild_ok hcs i _ p (n := 0) rfl,
        Shape.typeOfChild_ok hcs i _ p (n := 1) rfl, lift_ok_bind, errors_node, bind_ok]
      rw [← List.map_append]
      rfl
    | length | newArray =>
      simp only [Part.kind, Expr.kind, Shape.typeOfChild_ok hcs i _ p (n := 0) rfl, lift_ok_bind]
      exact errors_node _
    | arrayLit elements =>
      rw [Part.parts, List.forall₂_map_right_iff] at hcs
      simp only [Part.kind, Expr.kind, shapeChildren_node, lift_ok_bind, Part.types_expr]
      exact checkElements_node scope hcs
    | _ => rfl
  | stmt s =>
    cases s with
    | arrayAssign target index value =>
      simp only [Part.kind, Stmt.kind, Shape.typeOfChild_ok hcs i _ p (n := 0) rfl,
        Shape.typeOfChild_ok hcs i _ p (n := 1) rfl, lift_ok_bind, errors_node, bind_ok]
      rw [← List.map_append, ← List.map_append]
      rfl
    | _ => rfl
  | _ => rfl

end Operands

namespace Values

open Check

theorem judgesBy_returnMessages : returnPass.JudgesBy returnMessages := by
  intro t scope b part h
  obtain ⟨i, p, cs, rfl, hcs⟩ := reads_iff.mp h
  refine ⟨p, ?_⟩
  simp only [returnPass, shapeKind_node, lift_ok_bind]
  cases part with
  | expr e => cases e <;> rfl
  | stmt s =>
    cases s with
    | ret value =>
      simp only [Part.kind, Stmt.kind, returnMessages]
      cases scope.method with
      | none => rfl
      | some m =>
        simp only [checkReturn, shapeChildren_node, lift_ok_bind]
        cases value with
        | none =>
          cases hcs
          simp only [List.map_nil, Part.types, Part.values, Part.parts, Stmt.parts,
            Option.toList_none, List.filterMap_nil]
          split
          · rfl
          · exact error_node _
        | some value =>
          obtain ⟨c, rfl, hc⟩ := forall₂_one hcs
          simp only [List.map_cons, Shape.typeOf_ok hc, lift_ok_bind, Part.types, Part.values,
            Part.parts, Stmt.parts, Option.toList_some, List.filterMap_cons, Part.expr?,
            Option.map_some]
          split
          · exact error_node _
          · exact errors_node _
    | _ => rfl
  | _ => rfl

theorem judgesBy_assignmentMessages : assignmentPass.JudgesBy assignmentMessages := by
  intro t scope b part h
  obtain ⟨i, p, cs, rfl, hcs⟩ := reads_iff.mp h
  refine ⟨p, ?_⟩
  simp only [assignmentPass, shapeKind_node, lift_ok_bind]
  cases part with
  | expr e => cases e <;> rfl
  | stmt s =>
    cases s with
    | assign target value =>
      simp only [Part.kind, Stmt.kind, Shape.typeOfChild_ok hcs i _ p (n := 0) rfl, lift_ok_bind,
        assignmentMessages, Part.types, Part.values, Part.parts, Stmt.parts, List.filterMap_cons,
        Part.expr?, Option.map_some, List.filterMap_nil]
      cases targetTy? scope target with
      | none => exact error_node _
      | some declared => exact errors_node _
    | _ => rfl
  | _ => rfl

theorem checkExternal_node (scope : Scope) (method : String) {i : NodeId} {k : Kind} {p : Position}
    {cs : List Subtree} : checkExternal scope (node i k p cs).toShape method
      = ⟨(externalMessages scope method).map (Finding.mk p), .ok ()⟩ := by
  rw [checkExternal, externalMessages]
  split
  · rfl
  · exact error_node _

theorem judgesBy_argumentMessages : argumentPass.JudgesBy argumentMessages := by
  intro t scope b part h
  obtain ⟨i, p, cs, rfl, hcs⟩ := reads_iff.mp h
  refine ⟨p, ?_⟩
  simp only [argumentPass, shapeKind_node, lift_ok_bind]
  cases part with
  | expr e =>
    cases e with
    | call receiver method args =>
      have htypes : typesOf scope ((cs.map fun c _ => c.toShape).drop 1)
          = .ok (args.map (Expr.typeOf scope)) := by
        rw [Part.parts, List.forall₂_map_right_iff] at hcs
        obtain ⟨c, ds, -, hds, rfl⟩ := List.forall₂_cons_right_iff.mp hcs
        exact Shape.typesOf_ok hds
      simp only [Part.kind, Expr.kind, Shape.typeOfChild_ok hcs i _ p (n := 0) rfl,
        shapeChildren_node, htypes, lift_ok_bind, argumentMessages, Part.types_expr, Expr.parts,
        List.map_cons]
      cases Owner.of scope (receiver.typeOf scope) with
      | thisClass =>
        cases scope.table.signature? method with
        | some m => exact errors_node _
        | none =>
          simp only
          split
          · exact checkExternal_node scope method
          · exact error_node _
      | external => exact checkExternal_node scope method
      | invalid ty => exact error_node _
      | unresolved reason => exact error_node _
    | _ => rfl
  | stmt s => cases s <;> rfl
  | _ => rfl

end Values

end Classlet
