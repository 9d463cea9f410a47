import Classlet.Symbols.Ty

/-!
# Value types

The types of the variables, operands and fields of lowered code.
-/

namespace Classlet.Ir

/-- The type of a value in lowered code. -/
inductive ValueType where
  | int
  /-- A truth value, held as 0 or 1. -/
  | boolean
  /-- No value. -/
  | void
  | string
  | array (element : ValueType)
  | object (className : String)
  deriving DecidableEq, Inhabited

namespace ValueType

/-- The type `int[]`. -/
def intArray : ValueType := array int

/-- The type of no value. -/
def isVoid : ValueType → Bool
  | void => true
  | _ => false

/-- The value type of a base name. -/
def ofName (name : String) : ValueType :=
  if name = "int" then int
  else if name = "boolean" then boolean
  else if name = "void" then void
  else if name = "String" then string
  else object name

/-- The value type of a static type. -/
def ofTy (ty : Ty) : ValueType := if ty.isArray then array (ofName ty.name) else ofName ty.name

/-- The type as listings show it. -/
def text : ValueType → String
  | int => "int"
  | boolean => "boolean"
  | void => "void"
  | string => "String"
  | array element => element.text ++ "[]"
  | object className => className

end ValueType

end Classlet.Ir
