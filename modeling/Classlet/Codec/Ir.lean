import Classlet.Codec.Syntax
import Classlet.Ir.Code

/-!
# Lowered code as JSON
-/

namespace Classlet.Codec

open Classlet.Ir

/-! ### Types and operands -/

/-- The value types without content by their names. -/
def plainTypes : List (String × ValueType) :=
  [("Int", .int), ("Boolean", .boolean), ("Void", .void), ("String", .string)]

/-- Reads a value type. -/
def valueType : Decoder ValueType
  | _, .str name => plainTypes.lookup name
  | r, .obj [(name, content)] => do
    let r ← r.enter
    if name = "Array" then return .array (← valueType r content)
    else if name = "Class" then return .object (← string r content)
    else noContent (← plainTypes.lookup name) (some content)
  | _, _ => none

/-- Writes a value type. -/
def encodeValueType : ValueType → Json
  | .array element => tagged "Array" (encodeValueType element)
  | .object className => tagged "Class" (.str className)
  | plain => nameOf plainTypes plain

/-- Reads an operand. -/
def operand : Decoder Operand := variant fun r name content =>
  if name = "Var" then (required string r content).map .var
  else if name = "Const" then (required int32 r content).map fun n => .const (Int32.ofInt n)
  else none

/-- Writes an operand. -/
def encodeOperand : Operand → Json
  | .var name => tagged "Var" (.str name)
  | .const value => tagged "Const" (.int value.toInt)

/-! ### Instructions -/

/-- Reads the parts of a move. -/
def moveContent : Decoder Instr := variantFields ["dst", "src"] fun r fields => do
  match fields with
  | [dst, src] => return .move (← required string r dst) (← required operand r src)
  | _ => none

/-- Reads the parts of a binary operation. -/
def binaryContent : Decoder Instr := variantFields ["dst", "op", "lhs", "rhs"] fun r fields => do
  match fields with
  | [dst, op, lhs, rhs] =>
    return .binary (← required string r dst) (← required binaryOp r op)
      (← required operand r lhs) (← required operand r rhs)
  | _ => none

/-- Reads the parts of a unary operation. -/
def unaryContent : Decoder Instr := variantFields ["dst", "op", "src"] fun r fields => do
  match fields with
  | [dst, op, src] =>
    return .unary (← required string r dst) (← required unaryOp r op)
      (← required operand r src)
  | _ => none

/-- Reads the parts of a field read. -/
def getFieldContent : Decoder Instr :=
  variantFields ["dst", "object", "field", "ty"] fun r fields => do
    match fields with
    | [dst, object, field, t] =>
      return .getField (← required string r dst) (← required operand r object)
        (← required string r field) (← required valueType r t)
    | _ => none

/-- Reads the parts of a field write. -/
def putFieldContent : Decoder Instr :=
  variantFields ["object", "field", "ty", "value"] fun r fields => do
    match fields with
    | [object, field, t, value] =>
      return .putField (← required operand r object) (← required string r field)
        (← required valueType r t) (← required operand r value)
    | _ => none

/-- Reads the parts of an object creation. -/
def newContent : Decoder Instr := variantFields ["dst", "class"] fun r fields => do
  match fields with
  | [dst, className] =>
    return .newObject (← required string r dst) (← required string r className)
  | _ => none

/-- Reads the parts of an initializer call. -/
def invokeSpecialContent : Decoder Instr :=
  variantFields ["object", "class", "method"] fun r fields => do
    match fields with
    | [object, className, method] =>
      return .invokeSpecial (← required operand r object) (← required string r className)
        (← required string r method)
    | _ => none

/-- Reads the parts of a call on a class. -/
def invokeStaticContent : Decoder Instr :=
  variantFields ["dst", "class", "method", "args", "ret"] fun r fields => do
    match fields with
    | [dst, className, method, args, result] =>
      return .invokeStatic (← optional string r dst) (← required string r className)
        (← required string r method) (← required (list operand) r args)
        (← required valueType r result)
    | _ => none

/-- Reads the parts of a call on an object. -/
def invokeVirtualContent : Decoder Instr :=
  variantFields ["dst", "object", "class", "method", "args", "ret"] fun r fields => do
    match fields with
    | [dst, object, className, method, args, result] =>
      return .invokeVirtual (← optional string r dst) (← required operand r object)
        (← required string r className) (← required string r method)
        (← required (list operand) r args) (← required valueType r result)
    | _ => none

/-- Reads the parts of an array creation. -/
def newArrayContent : Decoder Instr := variantFields ["dst", "size"] fun r fields => do
  match fields with
  | [dst, size] => return .newArray (← required string r dst) (← required operand r size)
  | _ => none

/-- Reads the parts of a length read. -/
def arrayLengthContent : Decoder Instr := variantFields ["dst", "array"] fun r fields => do
  match fields with
  | [dst, array] =>
    return .arrayLength (← required string r dst) (← required operand r array)
  | _ => none

/-- Reads the parts of an element read. -/
def arrayLoadContent : Decoder Instr := variantFields ["dst", "array", "index"] fun r fields => do
  match fields with
  | [dst, array, index] =>
    return .arrayLoad (← required string r dst) (← required operand r array)
      (← required operand r index)
  | _ => none

/-- Reads the parts of an element write. -/
def arrayStoreContent : Decoder Instr :=
  variantFields ["array", "index", "value"] fun r fields => do
    match fields with
    | [array, index, value] =>
      return .arrayStore (← required operand r array) (← required operand r index)
        (← required operand r value)
    | _ => none

/-- Reads the parts of a conditional jump. -/
def jumpIfContent : Decoder Instr := variantFields ["cond", "target"] fun r fields => do
  match fields with
  | [cond, target] =>
    return .jumpIf (← required operand r cond) (← required string r target)
  | _ => none

/-- The instructions by their names. -/
def instrContents : List (String × Decoder Instr) :=
  [("Move", moveContent), ("Binary", binaryContent), ("Unary", unaryContent),
    ("GetField", getFieldContent), ("PutField", putFieldContent), ("New", newContent),
    ("InvokeSpecial", invokeSpecialContent), ("InvokeStatic", invokeStaticContent),
    ("InvokeVirtual", invokeVirtualContent), ("NewArray", newArrayContent),
    ("ArrayLength", arrayLengthContent), ("ArrayLoad", arrayLoadContent),
    ("ArrayStore", arrayStoreContent), ("JumpIf", jumpIfContent),
    ("Return", fun r j => (nullable operand r j).map .ret),
    ("Label", fun r j => (string r j).map .label),
    ("Jump", fun r j => (string r j).map .jump)]

/-- Reads an instruction. -/
def instr : Decoder Instr := variant fun r name content => do
  required (← instrContents.lookup name) r content

/-- Writes an instruction. -/
def encodeInstr : Instr → Json
  | .move dst src => tagged "Move" (.obj [("dst", .str dst), ("src", encodeOperand src)])
  | .binary dst op lhs rhs =>
    tagged "Binary" (.obj [("dst", .str dst), ("op", nameOf binaryOps op),
      ("lhs", encodeOperand lhs), ("rhs", encodeOperand rhs)])
  | .unary dst op src =>
    tagged "Unary" (.obj [("dst", .str dst), ("op", nameOf unaryOps op),
      ("src", encodeOperand src)])
  | .getField dst object field t =>
    tagged "GetField" (.obj [("dst", .str dst), ("object", encodeOperand object),
      ("field", .str field), ("ty", encodeValueType t)])
  | .putField object field t value =>
    tagged "PutField" (.obj [("object", encodeOperand object), ("field", .str field),
      ("ty", encodeValueType t), ("value", encodeOperand value)])
  | .newObject dst className => tagged "New" (.obj [("dst", .str dst), ("class", .str className)])
  | .invokeSpecial object className method =>
    tagged "InvokeSpecial" (.obj [("object", encodeOperand object), ("class", .str className),
      ("method", .str method)])
  | .invokeStatic dst className method args result =>
    tagged "InvokeStatic" (.obj [("dst", .ofOption .str dst), ("class", .str className),
      ("method", .str method), ("args", .ofList encodeOperand args),
      ("ret", encodeValueType result)])
  | .invokeVirtual dst object className method args result =>
    tagged "InvokeVirtual" (.obj [("dst", .ofOption .str dst), ("object", encodeOperand object),
      ("class", .str className), ("method", .str method), ("args", .ofList encodeOperand args),
      ("ret", encodeValueType result)])
  | .newArray dst size => tagged "NewArray" (.obj [("dst", .str dst), ("size", encodeOperand size)])
  | .arrayLength dst array =>
    tagged "ArrayLength" (.obj [("dst", .str dst), ("array", encodeOperand array)])
  | .arrayLoad dst array index =>
    tagged "ArrayLoad" (.obj [("dst", .str dst), ("array", encodeOperand array),
      ("index", encodeOperand index)])
  | .arrayStore array index value =>
    tagged "ArrayStore" (.obj [("array", encodeOperand array), ("index", encodeOperand index),
      ("value", encodeOperand value)])
  | .ret value => tagged "Return" (.ofOption encodeOperand value)
  | .label name => tagged "Label" (.str name)
  | .jump target => tagged "Jump" (.str target)
  | .jumpIf cond target =>
    tagged "JumpIf" (.obj [("cond", encodeOperand cond), ("target", .str target)])

/-! ### Methods and classes -/

/-- Reads what a table knows about a variable. -/
def varInfo : Decoder VarInfo := record ["virtual_reg", "ty"] fun r fields => do
  match fields with
  | [virtualReg, t] => return ⟨← required word32 r virtualReg, ← required valueType r t⟩
  | _ => none

/-- Writes what a table knows about a variable. -/
def encodeVarInfo (info : VarInfo) : Json :=
  .obj [("virtual_reg", .nat info.virtualReg), ("ty", encodeValueType info.ty)]

/-- A variable table is read without an index. -/
def varTable : Decoder VarTable := record ["entries"] fun r fields => do
  match fields with
  | [found] => return .ofEntries (← required (list (pair string varInfo)) r found)
  | _ => none

/-- Writes the entries of a variable table. -/
def encodeEntries (found : List (String × VarInfo)) : Json :=
  .ofList (fun (name, info) => .arr [.str name, encodeVarInfo info]) found

/-- Writes a variable table without its index. -/
def encodeVarTable (t : VarTable) : Json := .obj [("entries", encodeEntries t.entries)]

/-- Reads a declared field or parameter. -/
def variableDecl : Decoder Variable := record ["name", "ty"] fun r fields => do
  match fields with
  | [name, t] => return ⟨← required string r name, ← required valueType r t⟩
  | _ => none

/-- Writes a declared field or parameter. -/
def encodeVariable (v : Variable) : Json :=
  .obj [("name", .str v.name), ("ty", encodeValueType v.ty)]

/-- Reads the registers of a method. -/
def registerAssignment : Decoder RegisterAssignment :=
  record ["registers", "locals_colors", "register_count"] fun r fields => do
    match fields with
    | [registers, localColors, registerCount] =>
      return ⟨← required (bindings word32) r registers,
        ← required (bindings word64) r localColors, ← required word32 r registerCount⟩
    | _ => none

/-- Writes bindings as an object. -/
def encodeBindings (b : Bindings Nat) : Json := .obj (b.pairs.map fun (name, n) => (name, .nat n))

/-- Writes the registers of a method. -/
def encodeRegisterAssignment (a : RegisterAssignment) : Json :=
  .obj [("registers", encodeBindings a.registers), ("locals_colors", encodeBindings a.localColors),
    ("register_count", .nat a.registerCount)]

/-- Reads a lowered method. -/
def method : Decoder MethodCode :=
  record ["name", "is_public", "is_static", "params", "return_type", "instructions", "vars",
    "registers"] fun r fields => do
      match fields with
      | [name, isPublic, isStatic, params, returnType, instructions, vars, registers] =>
        return ⟨← required string r name, ← required boolean r isPublic,
          ← required boolean r isStatic, ← required (list variableDecl) r params,
          ← required valueType r returnType, ← required (list instr) r instructions,
          ← required varTable r vars, ← optional registerAssignment r registers⟩
      | _ => none

/-- Writes a lowered method. -/
def encodeMethod (m : MethodCode) : Json :=
  .obj [("name", .str m.name), ("is_public", .bool m.isPublic), ("is_static", .bool m.isStatic),
    ("params", .ofList encodeVariable m.params), ("return_type", encodeValueType m.returnType),
    ("instructions", .ofList encodeInstr m.instructions), ("vars", encodeVarTable m.vars),
    ("registers", .ofOption encodeRegisterAssignment m.registers)]

/-- Reads a lowered class. -/
def irClass : Decoder ClassCode :=
  record ["name", "superclass", "imports", "fields", "methods"] fun r fields => do
    match fields with
    | [name, superclass, imports, decls, methods] =>
      return ⟨← required string r name, ← required string r superclass,
        ← required (list string) r imports, ← required (list variableDecl) r decls,
        ← required (list method) r methods⟩
    | _ => none

/-- Writes a lowered class. -/
def encodeClass (c : ClassCode) : Json :=
  .obj [("name", .str c.name), ("superclass", .str c.superclass), ("imports", .strings c.imports),
    ("fields", .ofList encodeVariable c.fields), ("methods", .ofList encodeMethod c.methods)]

end Classlet.Codec
