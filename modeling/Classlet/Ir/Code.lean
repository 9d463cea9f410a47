import Classlet.Bindings
import Classlet.Error
import Classlet.Ir.Instr
import Classlet.Ir.VarTable
import Classlet.Symbols.Table

/-!
# Lowered methods and classes

A method is a list of instructions over the variables of its table; once registers are allocated it
also says which variable lives in which.
-/

namespace Classlet.Ir

/-- A declared field or parameter. -/
structure Variable where
  name : String
  ty : ValueType
  deriving DecidableEq, Inhabited

/-- The lowered form of a symbol. -/
def Variable.ofSymbol (s : Symbol) : Variable := ⟨s.name, .ofTy s.ty⟩

/-- The registers of a method. -/
structure RegisterAssignment where
  /-- The register of every variable. -/
  registers : Bindings Nat
  /-- The color of every local and temporary variable. -/
  localColors : Bindings Nat
  registerCount : Nat
  deriving Inhabited

/-- The number of colors needed when the largest of some colors counts: one more than it. -/
def colorCount (colors : List Nat) : Nat := colors.foldl (fun n c => max n (c + 1)) 0

/-- The number of colors the local variables use. -/
def RegisterAssignment.colorsUsed (a : RegisterAssignment) : Nat := colorCount a.localColors.bound

/-- A lowered method. -/
structure MethodCode where
  name : String
  isPublic : Bool
  isStatic : Bool
  params : List Variable
  returnType : ValueType
  instructions : List Instr
  vars : VarTable
  /-- The registers, once they are allocated. -/
  registers : Option RegisterAssignment

namespace MethodCode

/-- The name is the receiver or a parameter, whose register is fixed by the calling convention. -/
def isPinned (m : MethodCode) (name : String) : Bool :=
  name == thisName || m.params.any (·.name == name)

/-- The register of a variable: the allocated one, or before allocation the virtual one. -/
def registerOf? (m : MethodCode) (name : String) : Option Nat :=
  match m.registers with
  | some a => a.registers.get? name
  | none => m.vars.position? name

/-- A name stands for nothing in a method. -/
def unresolved (name method : String) : Error :=
  .unresolvedSymbol (name ++ " (in method " ++ method ++ ")")

/-- Every variable of the instructions has to be in the table. -/
def verifyVars (m : MethodCode) : Except Halt Unit :=
  match (m.instructions.flatMap Instr.vars).find? (!m.vars.contains ·) with
  | some name => fail (unresolved name m.name)
  | none => return ()

end MethodCode

/-- A lowered class. -/
structure ClassCode where
  name : String
  superclass : String
  /-- Dotted names. -/
  imports : List String
  fields : List Variable
  methods : List MethodCode

namespace ClassCode

/-- The first method of a name. -/
def method? (c : ClassCode) (name : String) : Option MethodCode := c.methods.find? (·.name == name)

/-- The number of instructions of all methods. -/
def instructionCount (c : ClassCode) : Nat :=
  c.methods.foldr (fun m n => m.instructions.length + n) 0

end ClassCode

end Classlet.Ir
