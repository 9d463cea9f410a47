import Classlet.Syntax.Tree
import Classlet.Text

/-!
# Programs as values

A unit written down as plain data, and the syntax tree it denotes.  Every declaration and every
statement of the tree starts a line of its own; types and expressions stand on the line of what they
belong to, each two columns further right than the one before.
-/

namespace Classlet

/-- A written type. -/
structure TypeExpr where
  name : String
  isArray : Bool
  isVarargs : Bool
  deriving DecidableEq, Inhabited

/-- An expression. -/
inductive Expr where
  | int (value : Int32)
  | bool (value : Bool)
  | var (name : String)
  | binary (op : BinaryOp) (lhs rhs : Expr)
  | unary (op : UnaryOp) (operand : Expr)
  | call (receiver : Expr) (method : String) (args : List Expr)
  | field (object : Expr) (name : String)
  | index (array position : Expr)
  | length (array : Expr)
  | newArray (size : Expr)
  | arrayLit (elements : List Expr)
  | newObject (className : String)
  | this
  | paren (inner : Expr)
  deriving Inhabited

/-- A statement. -/
inductive Stmt where
  | assign (target : String) (value : Expr)
  | arrayAssign (target : String) (index value : Expr)
  | ret (value : Option Expr)
  | ifThen (cond : Expr) (body : Stmt)
  | ifElse (cond : Expr) (body otherwise : Stmt)
  | whileDo (cond : Expr) (body : Stmt)
  | block (body : List Stmt)
  | expr (value : Expr)
  deriving Inhabited

/-- A method. -/
structure MethodDecl where
  name : String
  isPublic : Bool
  isStatic : Bool
  returnType : Option TypeExpr
  params : List (String × TypeExpr)
  locals : List (String × TypeExpr)
  body : List Stmt
  deriving Inhabited

/-- A class. -/
structure ClassDecl where
  name : String
  superclass : Option String
  fields : List (String × TypeExpr)
  methods : List MethodDecl
  deriving Inhabited

/-- A unit: dotted imports and classes, the first of which is compiled. -/
structure Program where
  imports : List String
  classes : List ClassDecl
  deriving Inhabited

/-- The entry method, still without a body. -/
def MethodDecl.entry : MethodDecl where
  name := "main"
  isPublic := true
  isStatic := true
  returnType := none
  params := [("args", ⟨"String", true, false⟩)]
  locals := []
  body := []

/-! ### Writing a tree -/

/-- A tree that is being written, and the place reached so far. -/
structure Writer where
  tree : Tree
  line : Int
  column : Int

namespace Writer

/-- The writer at the start of a unit. -/
def start : Writer := ⟨.emptyProgram, 1, 1⟩

/-- Goes to the start of the next line. -/
def newLine (w : Writer) : Writer := { w with line := w.line + 1, column := 1 }

/-- Goes right on the same line. -/
def advance (w : Writer) : Writer := { w with column := w.column + 2 }

/-- Adds a node here as the last child of `parent`, then what belongs inside it. -/
def put (w : Writer) (parent : NodeId) (kind : Kind) (inside : NodeId → Writer → Writer) : Writer :=
  let (id, tree) := w.tree.add kind ⟨w.line, w.column⟩
  inside id { w with tree := tree.link parent id }

/-- Adds a node here as the last child of `parent`. -/
def leaf (w : Writer) (parent : NodeId) (kind : Kind) : Writer := w.put parent kind fun _ w => w

end Writer

/-- Writes a type. -/
def TypeExpr.write (ty : TypeExpr) (parent : NodeId) (w : Writer) : Writer :=
  w.advance.leaf parent (.typeRef ty.name ty.isArray ty.isVarargs)

mutual

/-- Writes an expression. -/
def Expr.write (parent : NodeId) : Expr → Writer → Writer
  | .int value, w => w.advance.leaf parent (.intLit value)
  | .bool value, w => w.advance.leaf parent (.boolLit value)
  | .var name, w => w.advance.leaf parent (.varRef name)
  | .binary op lhs rhs, w =>
    w.advance.put parent (.binary op) fun id w => rhs.write id (lhs.write id w)
  | .unary op operand, w => w.advance.put parent (.unary op) fun id w => operand.write id w
  | .call receiver method args, w =>
    w.advance.put parent (.methodCall method) fun id w => writeExprs id args (receiver.write id w)
  | .field object name, w => w.advance.put parent (.fieldAccess name) fun id w => object.write id w
  | .index array position, w =>
    w.advance.put parent .arrayAccess fun id w => position.write id (array.write id w)
  | .length array, w => w.advance.put parent .arrayLength fun id w => array.write id w
  | .newArray size, w => w.advance.put parent .newArray fun id w => size.write id w
  | .arrayLit elements, w => w.advance.put parent .arrayLit fun id w => writeExprs id elements w
  | .newObject className, w => w.advance.leaf parent (.newObject className)
  | .this, w => w.advance.leaf parent .this
  | .paren inner, w => w.advance.put parent .paren fun id w => inner.write id w

/-- Writes expressions one after the other. -/
def writeExprs (parent : NodeId) : List Expr → Writer → Writer
  | [], w => w
  | e :: rest, w => writeExprs parent rest (e.write parent w)

end

mutual

/-- Writes a statement. -/
def Stmt.write (parent : NodeId) : Stmt → Writer → Writer
  | .assign target value, w =>
    w.newLine.put parent (.assign target) fun id w => value.write id w
  | .arrayAssign target index value, w =>
    w.newLine.put parent (.arrayAssign target) fun id w => value.write id (index.write id w)
  | .ret none, w => w.newLine.leaf parent .returnStmt
  | .ret (some value), w => w.newLine.put parent .returnStmt fun id w => value.write id w
  | .ifThen cond body, w =>
    w.newLine.put parent .ifStmt fun id w => body.write id (cond.write id w)
  | .ifElse cond body otherwise, w =>
    w.newLine.put parent .ifStmt fun id w => otherwise.write id (body.write id (cond.write id w))
  | .whileDo cond body, w =>
    w.newLine.put parent .whileStmt fun id w => body.write id (cond.write id w)
  | .block body, w => w.newLine.put parent .block fun id w => writeStmts id body w
  | .expr value, w => w.newLine.put parent .exprStmt fun id w => value.write id w

/-- Writes statements one after the other. -/
def writeStmts (parent : NodeId) : List Stmt → Writer → Writer
  | [], w => w
  | s :: rest, w => writeStmts parent rest (s.write parent w)

end

/-- Writes the declaration of a name with its type. -/
def writeDeclaration (kind : String → Kind) (parent : NodeId) (w : Writer)
    (decl : String × TypeExpr) : Writer :=
  w.newLine.put parent (kind decl.1) fun id w => decl.2.write id w

/-- Writes a method. -/
def MethodDecl.write (parent : NodeId) (w : Writer) (m : MethodDecl) : Writer :=
  w.newLine.put parent (.methodDecl m.name m.isPublic m.isStatic) fun id w =>
    let w := match m.returnType with
      | some ty => ty.write id w
      | none => w
    let w := m.params.foldl (writeDeclaration .param id) w
    let w := m.locals.foldl (writeDeclaration .varDecl id) w
    writeStmts id m.body w

/-- Writes a class. -/
def ClassDecl.write (parent : NodeId) (w : Writer) (c : ClassDecl) : Writer :=
  w.newLine.put parent (.classDecl c.name c.superclass) fun id w =>
    let w := c.fields.foldl (writeDeclaration .varDecl id) w
    c.methods.foldl (MethodDecl.write id) w

/-- Writes an import. -/
def writeImport (parent : NodeId) (w : Writer) (dotted : String) : Writer :=
  w.newLine.leaf parent (.importDecl (Text.segments dotted))

/-- The syntax tree of a unit. -/
def Program.build (p : Program) : Tree :=
  let w := p.imports.foldl (writeImport 0) Writer.start
  (p.classes.foldl (ClassDecl.write 0) w).tree

end Classlet
