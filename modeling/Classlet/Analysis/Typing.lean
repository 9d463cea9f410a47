import Classlet.Analysis.Scope
import Classlet.Syntax.Shape

/-!
# Types of expressions

An expression has a known type, or its type is defined by an import, or there is a reason why it has
none.  Only the parts of an expression that decide its type are looked at.
-/

namespace Classlet

/-- The outcome of typing an expression. -/
inductive ExprType where
  | known (ty : Ty)
  /-- Defined outside the unit. -/
  | external
  /-- Not resolvable, with the reason. -/
  | unknown (reason : String)
  deriving DecidableEq, Inhabited

namespace ExprType

/-- The type, if it is known. -/
def known? : ExprType → Option Ty
  | known ty => some ty
  | _ => none

/-- The type as messages show it. -/
def text : ExprType → String
  | known ty => ty.text
  | external => "<external>"
  | unknown _ => "<unknown>"

end ExprType

/-- The judgement on an expression whose type is expected to satisfy some condition. -/
inductive Verdict where
  | accepted
  | rejected
  /-- The type is not known, for a reason. -/
  | unresolved (reason : String)
  deriving DecidableEq, Inhabited

/-- Judges a type.  The policy decides about a type defined outside the unit. -/
def Verdict.of (scope : Scope) (accepts : Ty → Bool) : ExprType → Verdict
  | .known ty => if accepts ty then accepted else rejected
  | .external => if scope.policy.isLenient then accepted else rejected
  | .unknown reason => unresolved reason

/-- Who defines the members of a receiver. -/
inductive Owner where
  /-- The class being compiled. -/
  | thisClass
  /-- A class outside the unit. -/
  | external
  /-- Nobody: a type without members. -/
  | invalid (ty : Ty)
  /-- The receiver's type is not known, for a reason. -/
  | unresolved (reason : String)
  deriving DecidableEq, Inhabited

/-- The owner of the members of a receiver of the given type. -/
def Owner.of (scope : Scope) : ExprType → Owner
  | .known ty =>
    if !ty.isArray && ty.name == scope.table.className then thisClass
    else if !ty.isArray && scope.table.isImported ty.name then external
    else if !ty.isArray && scope.table.superclass == some ty.name then external
    else invalid ty
  | .external => external
  | .unknown reason => unresolved reason

namespace Scope

/-- The type of a variable read. -/
def typeOfName (scope : Scope) (name : String) : ExprType :=
  match scope.resolve name with
  | some (.bound _ symbol) => .known symbol.ty
  | some .imported => .known (.object name)
  | some .this => .known scope.classTy
  | none => .unknown (Text.quoted name ++ " is not declared")

/-- The type of a call of `method` on a receiver of the given type. -/
def typeOfCall (scope : Scope) (method : String) (receiver : ExprType) : ExprType :=
  match Owner.of scope receiver with
  | .thisClass =>
    match scope.table.signature? method with
    | some s => .known s.returnType
    | none =>
      if scope.table.superclassIsImported then .external
      else .unknown ("method " ++ Text.quoted method ++ " not found in class "
        ++ Text.quoted scope.table.className)
  | .external => .external
  | .invalid ty =>
    .unknown ("method " ++ Text.quoted method ++ " not found in type " ++ Text.quoted ty.text)
  | .unresolved reason => .unknown reason

/-- The type of a read of `field` from an object of the given type. -/
def typeOfField (scope : Scope) (field : String) (object : ExprType) : ExprType :=
  match Owner.of scope object with
  | .thisClass =>
    match scope.table.field? field with
    | some f => .known f.ty
    | none =>
      if scope.table.superclassIsImported then .external
      else .unknown ("field " ++ Text.quoted field ++ " not found in class "
        ++ Text.quoted scope.table.className)
  | .external => .external
  | .invalid ty =>
    .unknown ("type " ++ Text.quoted ty.text ++ " has no field " ++ Text.quoted field)
  | .unresolved reason => .unknown reason

end Scope

/-- The type of an element read from a value of the given type. -/
def ExprType.element : ExprType → ExprType
  | known ty => if ty.isArray then known ⟨ty.name, false⟩ else known .int
  | _ => known .int

/-- The type of the result of a binary operator. -/
def BinaryOp.resultTy (op : BinaryOp) : Ty := if op.isArithmetic then .int else .boolean

/-- The type of the operand and of the result of a unary operator. -/
def UnaryOp.resultTy : UnaryOp → Ty
  | .not => .boolean
  | .neg => .int

/-- The type of the expression of a shape. -/
def Shape.typeOf (scope : Scope) : Shape → Except Halt ExprType
  | .broken _ fault => breakOff fault
  | .node id kind _ children =>
    match kind with
    | .intLit _ => return .known .int
    | .boolLit _ => return .known .boolean
    | .this => return .known scope.classTy
    | .varRef name => return scope.typeOfName name
    | .paren =>
      match children with
      | inner :: _ => (inner ()).typeOf scope
      | [] => fail (Tree.noChild id kind 0)
    | .binary op => return .known op.resultTy
    | .unary op => return .known op.resultTy
    | .methodCall method =>
      match children with
      | receiver :: _ => return scope.typeOfCall method (← (receiver ()).typeOf scope)
      | [] => fail (Tree.noChild id kind 0)
    | .fieldAccess field =>
      match children with
      | object :: _ => return scope.typeOfField field (← (object ()).typeOf scope)
      | [] => fail (Tree.noChild id kind 0)
    | .arrayAccess =>
      match children with
      | array :: _ => return (← (array ()).typeOf scope).element
      | [] => fail (Tree.noChild id kind 0)
    | .arrayLength => return .known .int
    | .newArray | .arrayLit => return .known .intArray
    | .newObject className => return .known (.object className)
    | other => return .unknown (other.label ++ " is not an expression")
termination_by structural s => s

/-- The type of the `index`-th child of a shape. -/
def Shape.typeOfChild (scope : Scope) (s : Shape) (index : Nat) : Except Halt ExprType := do
  (← s.child index).typeOf scope

end Classlet
