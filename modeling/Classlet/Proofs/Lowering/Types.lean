import Classlet.Lowering.Expr
import Classlet.Proofs.Semantics.Source
import Classlet.Proofs.Syntax.Reading

/-!
# Types that lowering sees

Lowering works out a type for every expression from the declarations and from what the surroundings
expect.  The types of receivers and of trailing arguments decide under which class a method is
called and whether arguments are packed into an array: `Context.typedCalls` passes calls on in this
way.

* `valueType`: the type of an expression, where the surroundings expect `hint`.
* `importedReceiver?_eq`, `receiverHint_eq`: what lowering finds out about a receiver from its
  subtree is what the receiver says as an expression.
-/

namespace Classlet.Lowering

open Classlet.Ir Classlet.Semantics

/-- The innermost receiver of a chain of calls and field reads. -/
def innermost : Expr → Expr
  | .paren inner => innermost inner
  | .call receiver _ _ => innermost receiver
  | .field object _ => innermost object
  | e => e

namespace Context

/-- The type expected of a receiver: the import at the root of its chain, else the superclass, else
an integer. -/
def expected (cx : Context) (receiver : Expr) : ValueType :=
  match importName? cx (innermost receiver) with
  | some className => .object className
  | none =>
    match cx.table.superclass with
    | some superclass => .object superclass
    | none => .int

/-- The declared signature of a method that is called on a value of a type. -/
def declaredOn? (cx : Context) (owner : ValueType) (method : String) : Option Signature :=
  if ownerName owner = cx.table.className then cx.table.signature? method else none

/-- The type of an expression where the surroundings expect `hint`. -/
def valueType (cx : Context) (hint : ValueType) : Expr → ValueType
  | .int _ | .length _ => .int
  | .bool _ => .boolean
  | .var name =>
    match cx.resolve name with
    | some (_, symbol) => .ofTy symbol.ty
    | none => cx.classType
  | .binary op _ _ => binaryType op
  | .unary op _ => unaryType op
  | .call receiver method _ =>
    match importName? cx receiver with
    | some _ => hint
    | none =>
      resultType (cx.declaredOn? (valueType cx (cx.expected receiver) receiver) method) hint
  | .field object name => fieldType cx name (valueType cx (cx.expected object) object) hint
  | .index array _ => elementType (valueType cx .intArray array)
  | .newArray _ | .arrayLit _ => .intArray
  | .newObject className => .object className
  | .this => cx.classType
  | .paren inner => valueType cx hint inner

/-- The types of expressions, each with its hint; without one an integer is expected. -/
def valueTypes (cx : Context) : List ValueType → List Expr → List ValueType
  | _, [] => []
  | hints, e :: rest => cx.valueType (hints.head?.getD .int) e :: cx.valueTypes hints.tail rest

theorem drop_valueTypes (cx : Context) (k : Nat) (hints : List ValueType) (es : List Expr) :
    (cx.valueTypes hints es).drop k = cx.valueTypes (hints.drop k) (es.drop k) := by
  induction es generalizing k hints with
  | nil => simp [valueTypes]
  | cons e es ih =>
    cases k with
    | zero => rfl
    | succ k => rw [valueTypes, List.drop_succ_cons, ih, List.drop_succ_cons, List.drop_tail]

/-- The type of a receiver. -/
def receiverType (cx : Context) (receiver : Expr) : ValueType :=
  cx.valueType (cx.expected receiver) receiver

/-- The number of arguments passed one by one, if the others are packed: those of a variadic
parameter are, unless there is just one and it is an integer array. -/
def packedFrom? (cx : Context) (declared : Option Signature) (args : List Expr) : Option Nat :=
  match declared with
  | none => none
  | some m =>
    if m.hasVarargs then
      match args.drop m.fixedCount with
      | [only] => if cx.valueType .int only = .intArray then none else some m.fixedCount
      | _ => some m.fixedCount
    else none

end Context

/-! ### Packed arguments -/

/-- The number of arguments that are passed one by one, if the others are packed, by the types of the
arguments. -/
def packedBy? (declared : Option Signature) (types : List ValueType) : Option Nat :=
  declared.bind fun m =>
    if m.hasVarargs = true ∧ types.drop m.fixedCount ≠ [.intArray] then some m.fixedCount else none

theorem drop_argumentHints (m : Signature) : (argumentHints (some m)).drop m.fixedCount = [] := by
  simp [argumentHints]

theorem Context.packedFrom?_eq (cx : Context) (declared : Option Signature) (args : List Expr) :
    cx.packedFrom? declared args
      = packedBy? declared (cx.valueTypes (argumentHints declared) args) := by
  rcases declared with _ | m
  · rfl
  rw [packedFrom?, packedBy?, Option.bind_some, drop_valueTypes, drop_argumentHints]
  rcases args.drop m.fixedCount with _ | ⟨only, _ | ⟨next, rest⟩⟩
  · simp [valueTypes]
  · by_cases hty : cx.valueType .int only = .intArray <;> simp [valueTypes, hty]
  · simp [valueTypes]

variable {m : Option Signature} {args : List Loaded}

theorem packArguments_of_none (h : packedBy? m (args.map (·.ty)) = none) :
    packArguments m args = pure (args.map (·.operand), []) := by
  rcases m with _ | m
  · rfl
  rw [packedBy?, Option.bind_some, ite_eq_right_iff] at h
  by_cases hv : m.hasVarargs = true
  · have htypes : (args.map (·.ty)).drop m.fixedCount = [.intArray] := by
      by_contra hne
      cases h ⟨hv, hne⟩
    rw [← List.map_drop] at htypes
    obtain ⟨only, hdrop, hty⟩ := List.map_eq_singleton_iff.mp htypes
    have hargs : args.map (·.operand)
        = (args.take m.fixedCount).map (·.operand) ++ [only.operand] := by
      conv_lhs => rw [← List.take_append_drop m.fixedCount args, hdrop]
      rw [List.map_append, List.map_singleton]
    simp only [packArguments, hv, hdrop, hty, if_true, hargs]
  · simp only [packArguments, hv, Bool.false_eq_true, if_false]

theorem packArguments_of_some {k : Nat} (h : packedBy? m (args.map (·.ty)) = some k) :
    packArguments m args = packArray ((args.map (·.operand)).drop k) >>= fun r =>
      pure ((args.map (·.operand)).take k ++ [.var r.1], r.2) := by
  obtain ⟨m, rfl, h⟩ := Option.bind_eq_some_iff.mp h
  obtain ⟨⟨hv, htypes⟩, h⟩ := Option.ite_none_right_eq_some.mp h
  obtain rfl := Option.some.inj h
  rw [← List.map_drop] at htypes
  rw [← List.map_drop, ← List.map_take]
  simp only [packArguments, hv, if_true]
  split
  · next only hdrop =>
    rw [hdrop, List.map_singleton, ne_eq, List.singleton_inj] at htypes
    rw [if_neg htypes, hdrop]
  · rfl

/-- Calls by the types of their receivers: the world learns the class a method is looked up in, and
the trailing arguments of a declared variadic parameter are packed into an array. -/
def Context.typedCalls (cx : Context) : Convention where
  action receiver method := .callVirtual (ownerName (cx.receiverType receiver)) method
  packFrom? receiver method args :=
    cx.packedFrom? (cx.declaredOn? (cx.receiverType receiver) method) args

/-! ### Receivers -/

section Receivers

variable {b : Subtree} {e : Expr}

/-- Taking away parentheses from a subtree takes them away from the expression it reads as. -/
theorem unwrapParens_eq (h : b.IsExpr e) :
    ∃ c : Subtree, b.toShape.unwrapParens = c.toShape ∧ c.IsExpr (unparen e) := by
  induction e generalizing b with
  | paren inner ih =>
    obtain ⟨i, p, cs, rfl, hcs⟩ := Subtree.isExpr_iff.mp h
    obtain ⟨c, rfl, hc⟩ := Subtree.forall₂_one hcs
    obtain ⟨d, hd, hdi⟩ := ih hc
    refine ⟨d, ?_, hdi⟩
    rw [Subtree.toShape_node, Expr.kind, List.map_cons, Shape.unwrapParens, hd]
  | _ =>
    refine ⟨b, ?_, h⟩
    obtain ⟨i, p, cs, rfl, -⟩ := Subtree.isExpr_iff.mp h
    simp only [Subtree.toShape_node, Expr.kind, Shape.unwrapParens]

theorem chainRoot_eq (h : b.IsExpr e) :
    ∃ c : Subtree, chainRoot b.toShape = c.toShape ∧ c.IsExpr (innermost e) := by
  induction e generalizing b with
  | paren inner ih =>
    obtain ⟨i, p, cs, rfl, hcs⟩ := Subtree.isExpr_iff.mp h
    obtain ⟨c, rfl, hc⟩ := Subtree.forall₂_one hcs
    obtain ⟨d, hd, hdi⟩ := ih hc
    refine ⟨d, ?_, hdi⟩
    rw [Subtree.toShape_node, Expr.kind, List.map_cons, chainRoot, hd]
  | call receiver method args ih =>
    obtain ⟨i, p, cs, rfl, hcs⟩ := Subtree.isExpr_iff.mp h
    obtain ⟨c, ds, hc, -, rfl⟩ := List.forall₂_cons_right_iff.mp hcs
    obtain ⟨d, hd, hdi⟩ := ih hc
    refine ⟨d, ?_, hdi⟩
    rw [Subtree.toShape_node, Expr.kind, List.map_cons, chainRoot, hd]
  | field object name ih =>
    obtain ⟨i, p, cs, rfl, hcs⟩ := Subtree.isExpr_iff.mp h
    obtain ⟨c, rfl, hc⟩ := Subtree.forall₂_one hcs
    obtain ⟨d, hd, hdi⟩ := ih hc
    refine ⟨d, ?_, hdi⟩
    rw [Subtree.toShape_node, Expr.kind, List.map_cons, chainRoot, hd]
  | _ =>
    refine ⟨b, ?_, h⟩
    obtain ⟨i, p, cs, rfl, -⟩ := Subtree.isExpr_iff.mp h
    simp only [Subtree.toShape_node, Expr.kind, chainRoot]

theorem importedReceiver?_eq (cx : Context) (h : b.IsExpr e) :
    cx.importedReceiver? b.toShape = .ok (importName? cx e) := by
  obtain ⟨c, hc, hce⟩ := unwrapParens_eq h
  obtain ⟨i, p, cs, rfl, -⟩ := Subtree.isExpr_iff.mp hce
  unfold Context.importedReceiver? importName?
  rw [hc, Subtree.toShape_node]
  cases unparen e with
  | var name =>
    simp only [Expr.kind, Shape.kind, pure_bind]
    split <;> rfl
  | _ => rfl

theorem receiverHint_eq (cx : Context) (h : b.IsExpr e) :
    cx.receiverHint b.toShape = .ok (cx.expected e) := by
  obtain ⟨c, hc, hce⟩ := chainRoot_eq h
  unfold Context.receiverHint Context.expected
  rw [hc, importedReceiver?_eq cx hce]
  cases importName? cx (innermost e) with
  | some className => rfl
  | none => cases cx.table.superclass <;> rfl

end Receivers

end Classlet.Lowering
