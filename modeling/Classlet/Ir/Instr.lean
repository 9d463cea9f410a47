import Classlet.Ir.ValueType
import Classlet.Syntax.Operator

/-!
# Instructions

Three-address code over named variables, and which variables an instruction writes and reads.
-/

namespace Classlet.Ir

/-- An operand: a variable, or a constant.  Truth values are the constants 0 and 1. -/
inductive Operand where
  | var (name : String)
  | const (value : Int32)
  deriving DecidableEq, Inhabited

namespace Operand

/-- The constant of a truth value. -/
def ofBool (b : Bool) : Operand := const (if b then 1 else 0)

/-- The variable, if the operand is one. -/
def var? : Operand → Option String
  | var name => some name
  | const _ => none

/-- The operand as listings show it. -/
def text : Operand → String
  | var name => name
  | const value => toString value.toInt

end Operand

/-- An instruction. -/
inductive Instr where
  /-- `dst = src` -/
  | move (dst : String) (src : Operand)
  /-- `dst = lhs op rhs` -/
  | binary (dst : String) (op : BinaryOp) (lhs rhs : Operand)
  /-- `dst = op src` -/
  | unary (dst : String) (op : UnaryOp) (src : Operand)
  /-- `dst = object.field` -/
  | getField (dst : String) (object : Operand) (field : String) (ty : ValueType)
  /-- `object.field = value` -/
  | putField (object : Operand) (field : String) (ty : ValueType) (value : Operand)
  /-- `dst` becomes a new object, not initialized yet. -/
  | newObject (dst className : String)
  /-- Calls an initializer without arguments. -/
  | invokeSpecial (object : Operand) (className method : String)
  /-- Calls a method of a class; there is no `dst` if it returns nothing. -/
  | invokeStatic (dst : Option String) (className method : String) (args : List Operand)
      (ret : ValueType)
  /-- Calls a method of an object; there is no `dst` if it returns nothing. -/
  | invokeVirtual (dst : Option String) (object : Operand) (className method : String)
      (args : List Operand) (ret : ValueType)
  /-- `dst` becomes a new integer array. -/
  | newArray (dst : String) (size : Operand)
  /-- `dst = array.length` -/
  | arrayLength (dst : String) (array : Operand)
  /-- `dst = array[index]` -/
  | arrayLoad (dst : String) (array index : Operand)
  /-- `array[index] = value` -/
  | arrayStore (array index value : Operand)
  | ret (value : Option Operand)
  /-- A place to jump to. -/
  | label (name : String)
  | jump (target : String)
  /-- Jumps if the condition is not zero. -/
  | jumpIf (cond : Operand) (target : String)
  deriving DecidableEq, Inhabited

namespace Instr

/-- The variable the instruction writes. -/
def def? : Instr → Option String
  | move dst _ | binary dst _ _ _ | unary dst _ _ | getField dst _ _ _ | newObject dst _
  | newArray dst _ | arrayLength dst _ | arrayLoad dst _ _ => some dst
  | invokeStatic dst _ _ _ _ | invokeVirtual dst _ _ _ _ _ => dst
  | _ => none

/-- The operands the instruction reads. -/
def uses : Instr → List Operand
  | move _ src | unary _ _ src => [src]
  | binary _ _ lhs rhs => [lhs, rhs]
  | getField _ object _ _ | invokeSpecial object _ _ => [object]
  | putField object _ _ value => [object, value]
  | invokeStatic _ _ _ args _ => args
  | invokeVirtual _ object _ _ args _ => object :: args
  | newArray _ size => [size]
  | arrayLength _ array => [array]
  | arrayLoad _ array index => [array, index]
  | arrayStore array index value => [array, index, value]
  | ret value => value.toList
  | jumpIf cond _ => [cond]
  | newObject _ _ | label _ | jump _ => []

/-- The variables the instruction writes or reads, the written one first, each once. -/
def vars (i : Instr) : List String := (i.def?.toList ++ i.uses.filterMap Operand.var?).eraseDups

/-- The next instruction is never run after this one. -/
def isTerminator : Instr → Bool
  | ret _ | jump _ => true
  | _ => false

/-- The instruction is a return. -/
def isReturn : Instr → Bool
  | ret _ => true
  | _ => false

end Instr

end Classlet.Ir
