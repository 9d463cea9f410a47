import Classlet.Lowering.Basic

/-!
# Lowering of expressions

An expression becomes the instructions that compute it and the operand that then holds its value.
Operands are computed from left to right, and the instruction of the expression itself comes last.

A hint says what type the surroundings expect.  It decides only about calls and fields whose
definition is not visible here; a call evaluated for its effect gets the hint of no value.
-/

namespace Classlet.Lowering

open Classlet.Ir

/-- A lowered expression.  A call that returns nothing has no value. -/
structure Lowered where
  value : Option Operand
  ty : ValueType
  code : List Instr

/-- A lowered expression that has a value. -/
structure Loaded where
  operand : Operand
  ty : ValueType
  code : List Instr

/-- The expression at `id` has to have a value. -/
def Lowered.loaded (l : Lowered) (id : NodeId) : Except Halt Loaded :=
  match l.value with
  | some operand => return ⟨operand, l.ty, l.code⟩
  | none => fail (.malformedTree id "void value used as an operand")

/-- An expression that needs no code. -/
def Lowered.ofOperand (operand : Operand) (ty : ValueType) : Lowered := ⟨some operand, ty, []⟩

/-- Computes a value into a new temporary variable. -/
def intoTemp (ty : ValueType) (code : List Instr) (last : String → Instr) : Lower Lowered := do
  let dst ← temp ty
  return ⟨some (.var dst), ty, code ++ [last dst]⟩

/-- A variable read. -/
def lowerName (cx : Context) (name : String) : Lower Lowered :=
  match cx.resolve name with
  | some (.field, field) =>
    intoTemp (.ofTy field.ty) [] fun dst => .getField dst (.var thisName) name (.ofTy field.ty)
  | some (_, symbol) => return .ofOperand (.var name) (.ofTy symbol.ty)
  | none =>
    if name == thisName then return .ofOperand (.var thisName) cx.classType
    else Lower.fail (cx.unresolved name)

/-- The code of several operands. -/
def codeOf (operands : List Loaded) : List Instr := operands.flatMap (·.code)

/-- One store for each element of an array, from index `i` on. -/
def storeElements (array : String) : Nat → List Operand → List Instr
  | _, [] => []
  | i, value :: rest =>
    .arrayStore (.var array) (.const (Int32.ofNat i)) value :: storeElements array (i + 1) rest

/-- A new integer array holding the given elements. -/
def packArray (elements : List Operand) : Lower (String × List Instr) := do
  let dst ← temp .intArray
  return (dst, .newArray dst (.const (Int32.ofNat elements.length)) :: storeElements dst 0 elements)

/-- The argument list of a call and the code that packs the trailing arguments of a variadic
parameter into an array.  One integer array is passed on as it is. -/
def packArguments (m : Option Signature) (args : List Loaded) :
    Lower (List Operand × List Instr) := do
  match m with
  | none => return (args.map (·.operand), [])
  | some m =>
    if m.hasVarargs then
      let fixed := (args.take m.fixedCount).map (·.operand)
      let pack : Lower (List Operand × List Instr) := do
        let (array, code) ← packArray ((args.drop m.fixedCount).map (·.operand))
        return (fixed ++ [.var array], code)
      match args.drop m.fixedCount with
      | [only] => if only.ty = .intArray then return (fixed ++ [only.operand], []) else pack
      | _ => pack
    else return (args.map (·.operand), [])

/-- The types expected of the arguments of a call; past the end of the list an integer is. -/
def argumentHints (m : Option Signature) : List ValueType :=
  match m with
  | none => []
  | some m => (m.params.take m.fixedCount).map fun p => .ofTy p.ty

/-- The callee of a call. -/
inductive Callee where
  | static (className : String)
  | virtual (object : Operand) (className : String)

/-- The declared signature of a method that is called on an object of the class being compiled. -/
def Callee.signature? (cx : Context) (method : String) : Callee → Option Signature
  | static _ => none
  | virtual _ className =>
    if className = cx.table.className then cx.table.signature? method else none

/-- The instruction of a call. -/
def Callee.invoke (method : String) (dst : Option String) (args : List Operand)
    (result : ValueType) : Callee → Instr
  | static className => .invokeStatic dst className method args result
  | virtual object className => .invokeVirtual dst object className method args result

/-- The class name under which the methods of a value are looked up. -/
def ownerName : ValueType → String
  | .object className => className
  | other => other.text

/-- The type of a call's result: the declared one, else what is expected. -/
def resultType (m : Option Signature) (hint : ValueType) : ValueType :=
  match m with
  | some m => .ofTy m.returnType
  | none => hint

/-- A call, once its callee and arguments are lowered. -/
def finishCall (cx : Context) (method : String) (hint : ValueType) (callee : Callee)
    (code : List Instr) (args : List Loaded) : Lower Lowered := do
  let m := callee.signature? cx method
  let (operands, packing) ← packArguments m args
  let ty := resultType m hint
  let code := code ++ codeOf args ++ packing
  if ty.isVoid then return ⟨none, ty, code ++ [callee.invoke method none operands ty]⟩
  else intoTemp ty code fun dst => callee.invoke method (some dst) operands ty

/-- The type of a field read: the declared one for an object of the class, else what is expected,
which is an integer where no value is. -/
def fieldType (cx : Context) (field : String) (object hint : ValueType) : ValueType :=
  match cx.table.field? field with
  | some f => if object = cx.classType then .ofTy f.ty else unseen
  | none => unseen
where
  unseen : ValueType := if hint.isVoid then .int else hint

/-- The type of an array element read. -/
def elementType : ValueType → ValueType
  | .array element => element
  | _ => .int

/-- The type of the result of a binary operator. -/
def binaryType (op : BinaryOp) : ValueType := if op.isArithmetic then .int else .boolean

/-- The type of the operand and of the result of a unary operator. -/
def unaryType : UnaryOp → ValueType
  | .not => .boolean
  | .neg => .int

/-- The type expected of the operands of a binary operator, if the operator alone decides it. -/
def operandHint? (op : BinaryOp) : Option ValueType :=
  if op.isLogical then some .boolean else if op.isEquality then none else some .int

mutual

/-- Lowers an expression. -/
def lowerExpr (cx : Context) (hint : ValueType) : Shape → Lower Lowered
  | .broken _ fault => fun _ => breakOff fault
  | .node id kind _ children =>
    match kind with
    | .intLit value => return .ofOperand (.const value) .int
    | .boolLit value => return .ofOperand (.ofBool value) .boolean
    | .this => return .ofOperand (.var thisName) cx.classType
    | .varRef name => lowerName cx name
    | .paren =>
      match children with
      | inner :: _ => lowerExpr cx hint (inner ())
      | [] => Lower.fail (Tree.noChild id kind 0)
    | .binary op =>
      match children with
      | lhs :: rhs :: _ => do
        -- each side of an equality is expected to be of the other side's type
        let lhsHint ← match operandHint? op with
          | some ty => pure ty
          | none => pure ((← cx.staticType? (rhs ())).getD .int)
        let l ← (← lowerExpr cx lhsHint (lhs ())).loaded (lhs ()).id
        let r ← (← lowerExpr cx ((operandHint? op).getD l.ty) (rhs ())).loaded (rhs ()).id
        intoTemp (binaryType op) (l.code ++ r.code) fun dst => .binary dst op l.operand r.operand
      | [_] => Lower.fail (Tree.noChild id kind 1)
      | [] => Lower.fail (Tree.noChild id kind 0)
    | .unary op =>
      match children with
      | operand :: _ => do
        let v ← (← lowerExpr cx (unaryType op) (operand ())).loaded (operand ()).id
        intoTemp (unaryType op) v.code fun dst => .unary dst op v.operand
      | [] => Lower.fail (Tree.noChild id kind 0)
    | .methodCall method =>
      match children with
      | receiver :: args => do
        match ← cx.importedReceiver? (receiver ()) with
        | some className =>
          finishCall cx method hint (.static className) [] (← lowerArgs cx [] args)
        | none =>
          let v ← (← lowerExpr cx (← cx.receiverHint (receiver ())) (receiver ())).loaded
            (receiver ()).id
          let callee := Callee.virtual v.operand (ownerName v.ty)
          let hints := argumentHints (callee.signature? cx method)
          finishCall cx method hint callee v.code (← lowerArgs cx hints args)
      | [] => Lower.fail (Tree.noChild id kind 0)
    | .fieldAccess field =>
      match children with
      | object :: _ => do
        let v ← (← lowerExpr cx (← cx.receiverHint (object ())) (object ())).loaded (object ()).id
        let ty := fieldType cx field v.ty hint
        intoTemp ty v.code fun dst => .getField dst v.operand field ty
      | [] => Lower.fail (Tree.noChild id kind 0)
    | .arrayAccess =>
      match children with
      | array :: index :: _ => do
        let a ← (← lowerExpr cx .intArray (array ())).loaded (array ()).id
        let i ← (← lowerExpr cx .int (index ())).loaded (index ()).id
        intoTemp (elementType a.ty) (a.code ++ i.code) fun dst => .arrayLoad dst a.operand i.operand
      | [array] => do
        let _ ← (← lowerExpr cx .intArray (array ())).loaded (array ()).id
        Lower.fail (Tree.noChild id kind 1)
      | [] => Lower.fail (Tree.noChild id kind 0)
    | .arrayLength =>
      match children with
      | array :: _ => do
        let a ← (← lowerExpr cx .intArray (array ())).loaded (array ()).id
        intoTemp .int a.code fun dst => .arrayLength dst a.operand
      | [] => Lower.fail (Tree.noChild id kind 0)
    | .newArray =>
      match children with
      | size :: _ => do
        let n ← (← lowerExpr cx .int (size ())).loaded (size ()).id
        intoTemp .intArray n.code fun dst => .newArray dst n.operand
      | [] => Lower.fail (Tree.noChild id kind 0)
    | .arrayLit => do
      let elements ← lowerArgs cx [] children
      let (array, code) ← packArray (elements.map (·.operand))
      return ⟨some (.var array), .intArray, codeOf elements ++ code⟩
    | .newObject className => do
      let dst ← temp (.object className)
      return ⟨some (.var dst), .object className,
        [.newObject dst className, .invokeSpecial (.var dst) className "<init>"]⟩
    | other => Lower.fail
        (.malformedTree id ("expected an expression, found " ++ other.label))
termination_by structural s => s

/-- Lowers expressions from left to right, each with its hint; one without a hint is expected to be
an integer. -/
def lowerArgs (cx : Context) (hints : List ValueType) : Shapes → Lower (List Loaded)
  | [] => return []
  | e :: rest => do
    let v ← (← lowerExpr cx (hints.head?.getD .int) (e ())).loaded (e ()).id
    return v :: (← lowerArgs cx hints.tail rest)
termination_by structural shapes => shapes

end

/-- Parentheses leave no trace in the code. -/
@[simp]
theorem lowerExpr_paren (cx : Context) (hint : ValueType) (id : NodeId) (p : Position)
    (inner : Unit → Shape) (rest : Shapes) :
    lowerExpr cx hint (.node id .paren p (inner :: rest)) = lowerExpr cx hint (inner ()) := by
  rw [lowerExpr]

/-- Lowers an expression whose value is needed. -/
def load (cx : Context) (hint : ValueType) (s : Shape) : Lower Loaded := do
  (← lowerExpr cx hint s).loaded s.id

end Classlet.Lowering
