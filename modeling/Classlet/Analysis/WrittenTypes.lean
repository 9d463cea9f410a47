import Classlet.Analysis.Pass

/-!
# Written types

Which types may be written in which place.  The base name is `int`, `boolean`, the class, its
superclass or an import; a variadic type belongs to the last parameter, `void` to a return type, and
`String` to the parameters of the entry method.
-/

namespace Classlet.WrittenTypes

/-- The place a type is written in. -/
inductive Slot where
  | field
  | localVar
  | param (isLast : Bool)
  | returned
  deriving DecidableEq, Inhabited

namespace Slot

/-- The slot as messages show it. -/
def text : Slot → String
  | field => "field"
  | localVar => "local variable"
  | param _ => "parameter"
  | returned => "return type"

/-- The slot is a parameter. -/
def isParam : Slot → Bool
  | param _ => true
  | _ => false

end Slot

/-- The first parameter among some ids. -/
def firstParam? (t : Tree) : List NodeId → Except Halt (Option NodeId)
  | [] => return none
  | id :: rest => do
    match ← t.kind id with
    | .param _ => return some id
    | _ => firstParam? t rest

/-- The slot of the written type at an id, as the parent links show it. -/
def slot? (t : Tree) (id : NodeId) : Except Halt (Option Slot) := do
  match ← t.parent id with
  | none => return none
  | some decl =>
    match ← t.kind decl with
    | .methodDecl _ _ _ => return some .returned
    | .param _ =>
      match ← t.parent decl with
      | none => return some (.param false)
      | some method =>
        let last ← firstParam? t (← t.children method).reverse
        return some (.param (last = some decl))
    | .varDecl _ =>
      match ← t.parent decl with
      | none => return some .localVar
      | some owner =>
        match ← t.kind owner with
        | .classDecl _ _ => return some .field
        | _ => return some .localVar
    | _ => return none

/-- What is wrong with a variadic type in a slot. -/
def variadicErrors (name : String) (slot : Slot) : List String :=
  let misplaced := match slot with
    | .param true => []
    | .param false => ["Variadic parameter must be the last parameter"]
    | other => ["Variadic type is not allowed for a " ++ other.text]
  let notInt := if name == "int" then []
    else ["Variadic type must be `int...`, found " ++ Text.quoted (name ++ "...")]
  misplaced ++ notInt

/-- A type of the given base name may stand in a slot. -/
def isSupported (scope : Scope) (slot : Slot) (name : String) (isArray : Bool) : Bool :=
  if name == "void" then slot = .returned && !isArray
  else if name == "String" then slot.isParam && scope.method.any (·.isEntry)
  else scope.isKnownTypeName name

/-- What is wrong with a written type in a slot. -/
def typeErrors (scope : Scope) (slot : Slot) (name : String) (isArray isVarargs : Bool) :
    List String :=
  if isVarargs then variadicErrors name slot
  else if isSupported scope slot name isArray then []
  else ["Unsupported type " ++ Text.quoted (Ty.text ⟨name, isArray⟩) ++ " for " ++ slot.text]

/-- Written types are allowed in their places. -/
def declarationPass : Pass where
  name := "declaration-type"
  visit t scope s := do
    match ← Check.lift s.kind with
    | .typeRef name isArray isVarargs =>
      match ← Check.lift (slot? t s.id) with
      | some slot => Check.errors s (typeErrors scope slot name isArray isVarargs)
      | none => pure ()
    | _ => pure ()

end Classlet.WrittenTypes
