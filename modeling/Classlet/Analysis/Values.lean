import Classlet.Analysis.Pass
import Classlet.Analysis.Typing

/-!
# Values against declarations

A value that is returned, assigned or passed has to fit the type declared for it.
-/

namespace Classlet.Values

/-! ### Returned values -/

/-- What is wrong with returning a value of the given type, if anything. -/
def returnError? (scope : Scope) (s : Signature) : ExprType → Option String
  | .known actual =>
    if scope.isAssignable actual s.returnType then none
    else some ("Return type mismatch in " ++ Text.quoted s.name ++ ": expected "
      ++ Text.quoted s.returnType.text ++ ", found " ++ Text.quoted actual.text)
  | .external =>
    if scope.policy.isLenient then none
    else some ("Cannot verify that the value returned by " ++ Text.quoted s.name ++ " is "
      ++ Text.quoted s.returnType.text)
  | .unknown reason =>
    some ("Cannot resolve the type of the value returned by " ++ Text.quoted s.name ++ ": "
      ++ reason)

/-- Checks a return of the method with signature `m`. -/
def checkReturn (scope : Scope) (m : Signature) (s : Shape) : Check Unit := do
  match ← Check.lift s.children with
  | [] =>
    if m.returnType.isVoid then pure ()
    else Check.error s ("Method " ++ Text.quoted m.name ++ " must return a value of type "
      ++ Text.quoted m.returnType.text)
  | value :: _ =>
    if m.returnType.isVoid then
      Check.error s ("Method " ++ Text.quoted m.name ++ " returns void and cannot return a value")
    else
      let actual ← Check.lift ((value ()).typeOf scope)
      Check.errors s (returnError? scope m actual).toList

/-- Returned values fit the declared return type. -/
def returnPass : Pass where
  name := "return"
  visit _ scope s := do
    match ← Check.lift s.kind with
    | .returnStmt =>
      match scope.method with
      | some m => checkReturn scope m s
      | none => pure ()
    | _ => pure ()

/-! ### Assigned values -/

/-- The declared type of an assignment target: of the field of that name unless the method is
static, else of the parameter, else of the local variable. -/
def targetTy? (scope : Scope) (target : String) : Option Ty := do
  let m ← scope.method
  let field := if m.isStatic then none else scope.table.field? target
  let symbol ← field <|> m.param? target <|> m.localVar? target
  return symbol.ty

/-- Whether a value fits its target depends on a definition outside the unit. -/
def isExternalPair (scope : Scope) (actual declared : Ty) : Bool :=
  scope.table.isImported actual.name || scope.table.isImported declared.name
    || (actual.name == scope.table.className && scope.table.superclassIsImported)

/-- What is wrong with assigning a value of the given type, if anything. -/
def assignError? (scope : Scope) (target : String) (declared : Ty) : ExprType → Option String
  | .known actual =>
    if scope.isAssignable actual declared then none
    else if isExternalPair scope actual declared then
      if scope.policy.isLenient then none
      else some ("Cannot verify that " ++ Text.quoted actual.text ++ " is assignable to "
        ++ Text.quoted target ++ " (" ++ Text.quoted declared.text ++ ")")
    else some ("Cannot assign " ++ Text.quoted actual.text ++ " to " ++ Text.quoted target
      ++ " of type " ++ Text.quoted declared.text)
  | .external =>
    if scope.policy.isLenient then none
    else some ("Cannot verify the type of the value assigned to " ++ Text.quoted target)
  | .unknown reason =>
    some ("Cannot resolve the type of the value assigned to " ++ Text.quoted target ++ ": "
      ++ reason)

/-- Assigned values fit the declared type of the target. -/
def assignmentPass : Pass where
  name := "assignment"
  visit _ scope s := do
    match ← Check.lift s.kind with
    | .assign target =>
      match targetTy? scope target with
      | none =>
        Check.error s ("Assignment target " ++ Text.quoted target
          ++ " is not declared in this scope")
      | some declared =>
        let actual ← Check.lift (s.typeOfChild scope 0)
        Check.errors s (assignError? scope target declared actual).toList
    | _ => pure ()

/-! ### Arguments -/

/-- An argument of the given type fits a parameter. -/
def argumentFits (scope : Scope) (declared : Ty) : ExprType → Bool
  | .known actual => scope.isAssignable actual declared
  | .external => scope.policy.isLenient
  | .unknown _ => false

/-- What is wrong with arguments for parameters of the given types, the first of them being argument
number `number`. -/
def mismatches (scope : Scope) (method : String) : Nat → List ExprType → List Ty → List String
  | number, arg :: args, declared :: rest =>
    let others := mismatches scope method (number + 1) args rest
    if argumentFits scope declared arg then others
    else ("Argument " ++ toString number ++ " of " ++ Text.quoted method ++ " has type "
      ++ Text.quoted arg.text ++ ", expected " ++ Text.quoted declared.text) :: others
  | _, _, _ => []

/-- The arguments are one integer array. -/
def isOneArray : List ExprType → Bool
  | [.known ty] => ty.isIntArray
  | _ => false

/-- What is wrong with the arguments of a call.  A trailing variadic parameter takes any number of
integers, or one array of them. -/
def argumentErrors (scope : Scope) (m : Signature) (args : List ExprType) : List String :=
  let fixed := m.fixedCount
  if m.hasVarargs then
    if args.length < fixed then
      ["Method " ++ Text.quoted m.name ++ " expects at least " ++ toString fixed
        ++ " arguments, found " ++ toString args.length]
    else
      let rest := args.drop fixed
      mismatches scope m.name 1 args ((m.params.take fixed).map (·.ty))
        ++ (if isOneArray rest then []
          else mismatches scope m.name (fixed + 1) rest (rest.map fun _ => Ty.int))
  else
    if args.length = fixed then mismatches scope m.name 1 args (m.params.map (·.ty))
    else
      ["Method " ++ Text.quoted m.name ++ " expects " ++ toString fixed ++ " arguments, found "
        ++ toString args.length]

/-- The types of some expressions. -/
def typesOf (scope : Scope) : Shapes → Except Halt (List ExprType)
  | [] => return []
  | e :: rest => return (← (e ()).typeOf scope) :: (← typesOf scope rest)

/-- Checks a call of a method defined outside the unit. -/
def checkExternal (scope : Scope) (s : Shape) (method : String) : Check Unit :=
  if scope.policy.isLenient then pure ()
  else Check.error s ("Cannot verify the call to " ++ Text.quoted method ++ " on an imported type")

/-- Calls name a declared method and pass arguments that fit its parameters. -/
def argumentPass : Pass where
  name := "argument"
  visit _ scope s := do
    match ← Check.lift s.kind with
    | .methodCall method =>
      let receiver ← Check.lift (s.typeOfChild scope 0)
      match Owner.of scope receiver with
      | .thisClass =>
        match scope.table.signature? method with
        | some m =>
          let args ← Check.lift (typesOf scope ((← Check.lift s.children).drop 1))
          Check.errors s (argumentErrors scope m args)
        | none =>
          if scope.table.superclassIsImported then checkExternal scope s method
          else Check.error s ("Method " ++ Text.quoted method ++ " not found in class "
            ++ Text.quoted scope.table.className)
      | .external => checkExternal scope s method
      | .invalid ty =>
        Check.error s ("Method " ++ Text.quoted method ++ " not found in type "
          ++ Text.quoted ty.text)
      | .unresolved reason =>
        Check.error s ("Cannot resolve the receiver of " ++ Text.quoted method ++ ": " ++ reason)
    | _ => pure ()

end Classlet.Values
