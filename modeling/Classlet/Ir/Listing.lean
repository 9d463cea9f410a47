import Classlet.Ir.Code

/-!
# Listings

Lowered code as text, one instruction a line, every variable with its register.
-/

namespace Classlet.Ir

/-- The left side of an instruction that may have a destination. -/
def Instr.destination : Option String → String
  | some dst => dst ++ " = "
  | none => ""

/-- The operands of a call, separated by commas. -/
def Operand.listText (args : List Operand) : String := ", ".intercalate (args.map Operand.text)

/-- An instruction as listings show it. -/
def Instr.text : Instr → String
  | move dst src => dst ++ " = " ++ src.text
  | binary dst op lhs rhs => dst ++ " = " ++ lhs.text ++ " " ++ op.symbol ++ " " ++ rhs.text
  | unary dst op src => dst ++ " = " ++ op.symbol ++ src.text
  | getField dst object field ty =>
    dst ++ " = getfield " ++ object.text ++ "." ++ field ++ " : " ++ ty.text
  | putField object field ty value =>
    "putfield " ++ object.text ++ "." ++ field ++ " : " ++ ty.text ++ " = " ++ value.text
  | newObject dst className => dst ++ " = new " ++ className
  | invokeSpecial object className method =>
    "invokespecial " ++ object.text ++ "." ++ className ++ ":" ++ method ++ "()"
  | invokeStatic dst className method args result =>
    destination dst ++ "invokestatic " ++ className ++ "." ++ method ++ "("
      ++ Operand.listText args ++ ") : " ++ result.text
  | invokeVirtual dst object className method args result =>
    destination dst ++ "invokevirtual " ++ object.text ++ ":" ++ className ++ "." ++ method ++ "("
      ++ Operand.listText args ++ ") : " ++ result.text
  | newArray dst size => dst ++ " = new int[" ++ size.text ++ "]"
  | arrayLength dst array => dst ++ " = " ++ array.text ++ ".length"
  | arrayLoad dst array index => dst ++ " = " ++ array.text ++ "[" ++ index.text ++ "]"
  | arrayStore array index value => array.text ++ "[" ++ index.text ++ "] = " ++ value.text
  | ret (some value) => "return " ++ value.text
  | ret none => "return"
  | label name => name ++ ":"
  | jump target => "goto " ++ target
  | jumpIf cond target => "if " ++ cond.text ++ " goto " ++ target

/-- A number with zeros in front of it, four digits wide at least. -/
def fourDigits (n : Nat) : String :=
  let digits := toString n
  String.ofList (List.replicate (4 - digits.length) '0') ++ digits

/-- Instructions as lines, numbered from `number`.  A label stands out and shows no number. -/
def instrLines : Nat → List Instr → List String
  | _, [] => []
  | number, i :: rest =>
    let line := match i with
      | .label _ => "  " ++ i.text
      | _ => "  " ++ fourDigits number ++ ":   " ++ i.text
    line :: instrLines (number + 1) rest

/-- Lines as a text in which every line is ended. -/
def endLines (lines : List String) : String := String.join (lines.map (· ++ "\n"))

namespace MethodCode

/-- The first line of a method. -/
def header (m : MethodCode) : String :=
  ".method " ++ (if m.isPublic then "public " else "") ++ (if m.isStatic then "static " else "")
    ++ m.name ++ "(" ++ ", ".intercalate (m.params.map fun p => p.ty.text ++ " " ++ p.name)
    ++ ") : " ++ m.returnType.text

/-- The line of a variable. -/
def varLine (m : MethodCode) (entry : String × VarInfo) : String :=
  "  ; r" ++ toString ((m.registerOf? entry.1).getD entry.2.virtualReg) ++ " " ++ entry.1 ++ " : "
    ++ entry.2.ty.text

/-- The listing of a method. -/
def listing (m : MethodCode) : String :=
  endLines ([m.header]
    ++ (m.registers.map fun a => "  .registers " ++ toString a.registerCount).toList
    ++ m.vars.entries.map m.varLine
    ++ instrLines 0 m.instructions
    ++ [".end method"])

end MethodCode

/-- The listing of a class: its declarations, then every method after an empty line. -/
def ClassCode.listing (c : ClassCode) : String :=
  endLines ([".class " ++ c.name, ".super " ++ c.superclass]
    ++ c.imports.map (".import " ++ ·)
    ++ c.fields.map fun f => ".field " ++ f.name ++ " : " ++ f.ty.text)
    ++ String.join (c.methods.map fun m => "\n" ++ m.listing)

end Classlet.Ir
