import Classlet.Analysis.Pass
import Classlet.Analysis.Typing

/-!
# Operand types

The types of what operators, conditions and array constructs work on.

| construct            | operands                    |
|----------------------|-----------------------------|
| `+ - * /`, `< > <= >=` | integers                  |
| `== !=`              | of one type                 |
| `&&`, or, `!`        | truth values                |
| unary `-`            | an integer                  |
| `if`, `while`        | a truth value               |
| subscript, `.length` | an array, an integer index  |
-/

namespace Classlet.Operands

/-- The reason of a verdict that could not be reached. -/
def reason? : Verdict → Option String
  | .unresolved reason => some reason
  | _ => none

/-- The operand types of an operator other than `==` and `!=`. -/
def accepts (op : BinaryOp) : Ty → Bool := if op.isLogical then Ty.isBoolean else Ty.isInt

/-- Two known types have to agree. -/
def sameType : ExprType → ExprType → Verdict
  | .known l, .known r => if l = r then .accepted else .rejected
  | _, _ => .accepted

/-- The verdicts on the operands of a binary operator. -/
def verdicts (scope : Scope) (op : BinaryOp) (lhs rhs : ExprType) : List Verdict :=
  if op.isEquality then
    [.of scope (fun _ => true) lhs, .of scope (fun _ => true) rhs, sameType lhs rhs]
  else [.of scope (accepts op) lhs, .of scope (accepts op) rhs]

/-- What is wrong with the operands of a binary operator, if anything. -/
def binaryError? (scope : Scope) (op : BinaryOp) (lhs rhs : ExprType) : Option String :=
  let found := verdicts scope op lhs rhs
  match found.findSome? reason? with
  | some reason =>
    some ("Cannot resolve the type of an operand of " ++ Text.quoted op.symbol ++ ": " ++ reason)
  | none =>
    if found.contains .rejected then
      some ("Invalid operation " ++ Text.quoted op.symbol ++ " between " ++ Text.quoted lhs.text
        ++ " and " ++ Text.quoted rhs.text)
    else none

/-- What is wrong with the operand of a unary operator, if anything. -/
def unaryError? (scope : Scope) (op : UnaryOp) (operand : ExprType) : Option String :=
  match Verdict.of scope (· = op.resultTy) operand with
  | .accepted => none
  | .rejected =>
    some ("Invalid operation " ++ Text.quoted op.symbol ++ " on " ++ Text.quoted operand.text)
  | .unresolved reason =>
    some ("Cannot resolve the type of the operand of " ++ Text.quoted op.symbol ++ ": " ++ reason)

/-- Operators have operands of the right types. -/
def operationPass : Pass where
  name := "invalid-operation"
  visit _ scope s := do
    match ← Check.lift s.kind with
    | .binary op =>
      let lhs ← Check.lift (s.typeOfChild scope 0)
      let rhs ← Check.lift (s.typeOfChild scope 1)
      Check.errors s (binaryError? scope op lhs rhs).toList
    | .unary op =>
      let operand ← Check.lift (s.typeOfChild scope 0)
      Check.errors s (unaryError? scope op operand).toList
    | _ => pure ()

/-! ### Conditions -/

/-- What is wrong with the condition of a statement introduced by `keyword`, if anything. -/
def conditionError? (scope : Scope) (keyword : String) (cond : ExprType) : Option String :=
  match Verdict.of scope Ty.isBoolean cond with
  | .accepted => none
  | .rejected =>
    some ("Non-boolean condition in " ++ Text.quoted keyword ++ ": found type "
      ++ Text.quoted cond.text)
  | .unresolved reason =>
    some ("Cannot resolve the type of the " ++ Text.quoted keyword ++ " condition: " ++ reason)

/-- Conditions are truth values. -/
def conditionPass : Pass where
  name := "condition"
  visit _ scope s := do
    match ← Check.lift s.kind with
    | .ifStmt =>
      let cond ← Check.lift (s.typeOfChild scope 0)
      Check.errors s (conditionError? scope "if" cond).toList
    | .whileStmt =>
      let cond ← Check.lift (s.typeOfChild scope 0)
      Check.errors s (conditionError? scope "while" cond).toList
    | _ => pure ()

/-! ### Arrays -/

/-- The part an operand plays in an array construct. -/
inductive ArrayRole where
  | subscripted
  | index
  | lengthOf
  | size
  | element

namespace ArrayRole

/-- The role at the start of a sentence. -/
def title : ArrayRole → String
  | subscripted => "Subscripted value"
  | index => "Array index"
  | lengthOf => "`.length` operand"
  | size => "Array size"
  | element => "Array element"

/-- The role inside a sentence. -/
def phrase : ArrayRole → String
  | subscripted => "subscripted value"
  | index => "array index"
  | lengthOf => "`.length` operand"
  | size => "array size"
  | element => "array element"

/-- The types that fit the role. -/
def accepts : ArrayRole → Ty → Bool
  | subscripted | lengthOf => Ty.isArray
  | index | size | element => Ty.isInt

/-- What is wrong with an operand in this role, if anything. -/
def error? (scope : Scope) (role : ArrayRole) (operand : ExprType) : Option String :=
  match Verdict.of scope role.accepts operand with
  | .accepted => none
  | .rejected => some (role.title ++ " has invalid type " ++ Text.quoted operand.text)
  | .unresolved reason => some ("Cannot resolve the type of " ++ role.phrase ++ ": " ++ reason)

/-- Checks one operand of the construct `s`. -/
def check (scope : Scope) (s : Shape) (role : ArrayRole) (operand : Except Halt ExprType) :
    Check Unit := do
  Check.errors s (role.error? scope (← Check.lift operand)).toList

end ArrayRole

/-- The elements of an array literal are integers. -/
def checkElements (scope : Scope) (s : Shape) : Shapes → Check Unit
  | [] => pure ()
  | e :: rest => do
    ArrayRole.element.check scope s ((e ()).typeOf scope)
    checkElements scope s rest

/-- What is wrong with an element assignment to a name, if anything.  A name that is no variable is
not judged here. -/
def elementTargetError? (scope : Scope) (target : String) : Option String :=
  match scope.resolve target with
  | some (.bound _ symbol) =>
    if symbol.ty.isArray then none
    else some ("Indexed assignment target " ++ Text.quoted target ++ " is not an array")
  | _ => none

/-- Array constructs have operands of the right types. -/
def arrayPass : Pass where
  name := "array-operation"
  visit _ scope s := do
    match ← Check.lift s.kind with
    | .arrayAccess =>
      ArrayRole.subscripted.check scope s (s.typeOfChild scope 0)
      ArrayRole.index.check scope s (s.typeOfChild scope 1)
    | .arrayLength => ArrayRole.lengthOf.check scope s (s.typeOfChild scope 0)
    | .newArray => ArrayRole.size.check scope s (s.typeOfChild scope 0)
    | .arrayLit => checkElements scope s (← Check.lift s.children)
    | .arrayAssign target =>
      Check.errors s (elementTargetError? scope target).toList
      ArrayRole.index.check scope s (s.typeOfChild scope 0)
      ArrayRole.element.check scope s (s.typeOfChild scope 1)
    | _ => pure ()

end Classlet.Operands
