import Classlet.Lowering.Expr

/-!
# Lowering of statements, methods and classes

Every method is lowered on its own: temporary variables and labels are numbered from zero in each.
-/

namespace Classlet.Lowering

open Classlet.Ir

/-- An assignment of a value to a name. -/
def lowerAssign (cx : Context) (target : String) (value : Shape) : Lower (List Instr) := do
  match cx.resolve target with
  | some (.field, field) =>
    let v ← load cx (.ofTy field.ty) value
    return v.code ++ [.putField (.var thisName) target (.ofTy field.ty) v.operand]
  | some (_, symbol) =>
    let v ← load cx (.ofTy symbol.ty) value
    return v.code ++ [.move target v.operand]
  | none => Lower.fail (cx.unresolved target)

/-- The array that an element assignment to a name refers to, and the code that fetches it. -/
def lowerTarget (cx : Context) (target : String) : Lower (Operand × List Instr) := do
  match cx.resolve target with
  | some (.field, field) =>
    let dst ← temp (.ofTy field.ty)
    return (.var dst, [.getField dst (.var thisName) target (.ofTy field.ty)])
  | some _ => return (.var target, [])
  | none => Lower.fail (cx.unresolved target)

/-- The code of a conditional, the `n`-th of its method. -/
def conditionalCode (n : Nat) (cond : Loaded) (body otherwise : List Instr) : List Instr :=
  let number := toString n
  cond.code
    ++ [.jumpIf cond.operand ("then" ++ number), .jump ("else" ++ number),
      .label ("then" ++ number)]
    ++ body
    ++ [.jump ("endif" ++ number), .label ("else" ++ number)]
    ++ otherwise
    ++ [.label ("endif" ++ number)]

/-- The code of a loop, the `n`-th of its method. -/
def loopCode (n : Nat) (cond : Loaded) (body : List Instr) : List Instr :=
  let number := toString n
  [.label ("whilecond" ++ number)]
    ++ cond.code
    ++ [.jumpIf cond.operand ("whilebody" ++ number), .jump ("endwhile" ++ number),
      .label ("whilebody" ++ number)]
    ++ body
    ++ [.jump ("whilecond" ++ number), .label ("endwhile" ++ number)]

mutual

/-- Lowers a statement. -/
def lowerStmt (cx : Context) : Shape → Lower (List Instr)
  | .broken _ fault => fun _ => breakOff fault
  | .node id kind _ children =>
    match kind with
    | .assign target =>
      match children with
      | value :: _ => lowerAssign cx target (value ())
      | [] => Lower.fail (Tree.noChild id kind 0)
    | .arrayAssign target => do
      let (array, fetch) ← lowerTarget cx target
      match children with
      | index :: value :: _ =>
        let i ← load cx .int (index ())
        let v ← load cx .int (value ())
        return fetch ++ i.code ++ v.code ++ [.arrayStore array i.operand v.operand]
      | [index] =>
        let _ ← load cx .int (index ())
        Lower.fail (Tree.noChild id kind 1)
      | [] => Lower.fail (Tree.noChild id kind 0)
    | .returnStmt =>
      match children with
      | value :: _ => do
        let v ← load cx (.ofTy cx.signature.returnType) (value ())
        return v.code ++ [.ret (some v.operand)]
      | [] => return [.ret none]
    | .ifStmt => do
      let n ← nextNumber "if"
      match children with
      | cond :: body :: rest =>
        let c ← load cx .boolean (cond ())
        let b ← lowerStmt cx (body ())
        let o ← match rest with
          | otherwise :: _ => lowerStmt cx (otherwise ())
          | [] => pure []
        return conditionalCode n c b o
      | [cond] =>
        let _ ← load cx .boolean (cond ())
        Lower.fail (Tree.noChild id kind 1)
      | [] => Lower.fail (Tree.noChild id kind 0)
    | .whileStmt => do
      let n ← nextNumber "while"
      match children with
      | cond :: body :: _ =>
        let c ← load cx .boolean (cond ())
        let b ← lowerStmt cx (body ())
        return loopCode n c b
      | [cond] =>
        let _ ← load cx .boolean (cond ())
        Lower.fail (Tree.noChild id kind 1)
      | [] => Lower.fail (Tree.noChild id kind 0)
    | .block => lowerStmts cx children
    | .exprStmt =>
      match children with
      | e :: _ => return (← lowerExpr cx .void (e ())).code
      | [] => Lower.fail (Tree.noChild id kind 0)
    | other => Lower.fail (.malformedTree id ("expected a statement, found " ++ other.label))
termination_by structural s => s

/-- Lowers statements one after the other. -/
def lowerStmts (cx : Context) : Shapes → Lower (List Instr)
  | [] => return []
  | s :: rest => return (← lowerStmt cx (s ())) ++ (← lowerStmts cx rest)
termination_by structural shapes => shapes

end

@[simp]
theorem lowerStmt_block (cx : Context) (id : NodeId) (p : Position) (body : Shapes) :
    lowerStmt cx (.node id .block p body) = lowerStmts cx body := by
  rw [lowerStmt]

/-- Lowers the statements among the members of a method. -/
def lowerBody (cx : Context) : Shapes → Lower (List Instr)
  | [] => return []
  | s :: rest => do
    let code ← if (← (s ()).kind).isStatement then lowerStmt cx (s ()) else pure []
    return code ++ (← lowerBody cx rest)

/-- A method that returns nothing ends in a return. -/
def endWithReturn (ty : ValueType) (code : List Instr) : List Instr :=
  if ty.isVoid && !code.getLast?.any Instr.isReturn then code ++ [.ret none] else code

/-- Lowers a method with the given members. -/
def lowerMethod (cx : Context) (members : Shapes) : Except Halt MethodCode := do
  let (code, final) ← (lowerBody cx members).run cx.start
  let s := cx.signature
  let method : MethodCode := {
    name := s.name
    isPublic := s.isPublic
    isStatic := s.isStatic
    params := s.params.map Variable.ofSymbol
    returnType := .ofTy s.returnType
    instructions := endWithReturn (.ofTy s.returnType) code
    vars := final.vars
    registers := none }
  method.verifyVars
  return method

/-- Lowers the methods among the members of a class, `index` of which came before. -/
def lowerMethods (table : SymbolTable) : Nat → Shapes → Except Halt (List MethodCode)
  | _, [] => return []
  | index, s :: rest =>
    match s () with
    | .broken _ fault => breakOff fault
    | .node _ (.methodDecl name _ _) _ members => do
      let signature ← table.declared index name
      let method ← lowerMethod ⟨table, signature⟩ members
      return method :: (← lowerMethods table (index + 1) rest)
    | .node .. => lowerMethods table index rest

end Classlet.Lowering

namespace Classlet

/-- The superclass of a class that declares none. -/
def defaultSuperclass : String := "Object"

/-- Lowers the first class of a tree. -/
def Tree.lower (t : Tree) (table : SymbolTable) : Except Halt Ir.ClassCode := do
  let (_, _, members) ← Shape.firstClass (← (t.shape t.root).children)
  let methods ← Lowering.lowerMethods table 0 members
  return {
    name := table.className
    superclass := table.superclass.getD defaultSuperclass
    imports := table.imports
    fields := table.fields.map Ir.Variable.ofSymbol
    methods }

end Classlet
