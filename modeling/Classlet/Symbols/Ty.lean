/-!
# Types

A static type of the language: a base name, and whether it is an array of that.
-/

namespace Classlet

/-- A static type. -/
structure Ty where
  name : String
  isArray : Bool
  deriving DecidableEq, Inhabited

namespace Ty

/-- The type of integers. -/
def int : Ty := ⟨"int", false⟩

/-- The type of truth values. -/
def boolean : Ty := ⟨"boolean", false⟩

/-- The type of no value. -/
def void : Ty := ⟨"void", false⟩

/-- The type of integer arrays. -/
def intArray : Ty := ⟨"int", true⟩

/-- The type of string arrays. -/
def stringArray : Ty := ⟨"String", true⟩

/-- The type of the objects of a class. -/
def object (className : String) : Ty := ⟨className, false⟩

/-- The type is `int`. -/
def isInt (ty : Ty) : Bool := !ty.isArray && ty.name == "int"

/-- The type is `boolean`. -/
def isBoolean (ty : Ty) : Bool := !ty.isArray && ty.name == "boolean"

/-- The type is `void`. -/
def isVoid (ty : Ty) : Bool := !ty.isArray && ty.name == "void"

/-- The type is `int[]`. -/
def isIntArray (ty : Ty) : Bool := ty.isArray && ty.name == "int"

/-- The type as it is written. -/
def text (ty : Ty) : String := if ty.isArray then ty.name ++ "[]" else ty.name

end Ty

end Classlet
