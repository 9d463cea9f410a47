import Classlet.Report
import Classlet.Symbols.Table
import Classlet.Syntax.Shape

/-!
# The symbol table of a tree

Reads the declarations of the first class of a unit.  A name declared more than once in the same
place stays in the table as often as it is declared and is reported once, at its second declaration.
-/

namespace Classlet

namespace Shape

/-- Breaks off at the first link that leads nowhere. -/
def checkLinks : Shapes → Except Halt Unit
  | [] => return ()
  | s :: rest => do
    discard (s ()).kind
    checkLinks rest

/-- The dotted name of an import, without quotes around its segments. -/
def importName? : Shape → Option String
  | .node _ (.importDecl path) _ _ => some (".".intercalate (path.map Text.trimQuotes))
  | _ => none

/-- The type a written type denotes, and whether it is variadic.  A variadic type is an array. -/
def readType : Shape → Except Halt (Ty × Bool)
  | .node _ (.typeRef name isArray isVarargs) _ _ =>
    return (⟨name, isArray || isVarargs⟩, isVarargs)
  | .node id kind _ _ => fail (.malformedTree id ("expected a type, found " ++ kind.label))
  | .broken _ fault => breakOff fault

/-- The type of the last written type among some shapes. -/
def lastType? : Shapes → Option Ty
  | [] => none
  | s :: rest =>
    match s () with
    | .node _ (.typeRef name isArray isVarargs) _ _ =>
      some ((lastType? rest).getD ⟨name, isArray || isVarargs⟩)
    | _ => lastType? rest

/-- The symbol that a declaration of `name` with the given children declares. -/
def readSymbol (id : NodeId) (kind : Kind) (name : String) : Shapes → Except Halt Symbol
  | [] => fail (Tree.noChild id kind 0)
  | written :: _ => do
    let (ty, isVarargs) ← (written ()).readType
    return ⟨name, ty, isVarargs⟩

/-- The symbols declared by those of some shapes that `select` picks, and a report for each name
among them that is repeated.  `seen` holds the names declared before. -/
def readSymbols (select : Kind → Option String) (message : String → String) :
    List String → Shapes → Except Halt (List Symbol × List Report)
  | _, [] => return ([], [])
  | seen, s :: rest =>
    match s () with
    | .broken _ fault => breakOff fault
    | .node id kind position children =>
      match select kind with
      | none => readSymbols select message seen rest
      | some name => do
        let symbol ← readSymbol id kind name children
        let (symbols, reports) ← readSymbols select message (name :: seen) rest
        let repeated := if seen.count name = 1 then
            [Report.error .semantic position (message name)]
          else []
        return (symbol :: symbols, repeated ++ reports)

/-- The wording for a repeated declaration inside a method. -/
def repeatedIn (what method name : String) : String :=
  "Duplicate " ++ what ++ " " ++ Text.quoted name ++ " in method " ++ Text.quoted method

/-- The signature that a method declaration with the given members declares.  Without a written
return type a method returns nothing, and only the entry method may be written so. -/
def readSignature (name : String) (isPublic isStatic : Bool) (position : Position)
    (members : Shapes) : Except Halt (Signature × List Report) := do
  checkLinks members
  let (returnType, untyped) := match lastType? members with
    | some ty => (ty, [])
    | none =>
      if isStatic && name == entryName then (Ty.void, [])
      else (Ty.void, [Report.error .semantic position
        ("Method " ++ Text.quoted name ++ " has no return type")])
  let (params, repeatedParams) ←
    readSymbols Kind.paramName? (repeatedIn "parameter" name) [] members
  let (locals, repeatedLocals) ←
    readSymbols Kind.varName? (repeatedIn "local variable" name) [] members
  return (⟨name, returnType, params, locals, isPublic, isStatic⟩,
    untyped ++ repeatedParams ++ repeatedLocals)

/-- The signatures of the methods among some class members, and their reports.  `seen` holds the
names of the methods before. -/
def readSignatures : List String → Shapes → Except Halt (List Signature × List Report)
  | _, [] => return ([], [])
  | seen, s :: rest =>
    match s () with
    | .node _ (.methodDecl name isPublic isStatic) position members => do
      let (signature, reports) ← readSignature name isPublic isStatic position members
      let (signatures, more) ← readSignatures (name :: seen) rest
      let repeated := if seen.count name = 1 then
          [Report.error .semantic position ("Duplicate method " ++ Text.quoted name)]
        else []
      return (signature :: signatures, reports ++ repeated ++ more)
    | _ => readSignatures seen rest

/-- The symbol table of a unit with the given children, and the reports on its declarations. -/
def readTable (units : Shapes) : Except Halt (SymbolTable × List Report) := do
  let (className, superclass, members) ← firstClass units
  checkLinks units
  checkLinks members
  let (fields, repeatedFields) ←
    readSymbols Kind.varName? (fun name => "Duplicate field " ++ Text.quoted name) [] members
  let (signatures, reports) ← readSignatures [] members
  return ({
    imports := units.filterMap fun s => (s ()).importName?
    className, superclass, fields
    methods := signatures.map (·.name)
    signatures }, repeatedFields ++ reports)

end Shape

/-- The symbol table of a tree, and the reports on its declarations. -/
def Tree.symbolTable (t : Tree) : Except Halt (SymbolTable × List Report) := do
  Shape.readTable (← (t.shape t.root).children)

end Classlet
