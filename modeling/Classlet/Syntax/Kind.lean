import Classlet.Syntax.Operator

/-!
# Node kinds

What a node of the syntax tree stands for, with the attributes it carries itself.  Everything else a
construct consists of is found among the node's children, in the order its constructor lists.
-/

namespace Classlet

/-- A place in the program text.  Both numbers are `-1` where the place is not known. -/
structure Position where
  line : Int
  column : Int
  deriving DecidableEq, Inhabited

/-- The place of something that stands nowhere in the text. -/
def Position.unknown : Position := ⟨-1, -1⟩

/-- The kind of a syntax tree node. -/
inductive Kind where
  /-- The whole unit.  Children: imports, then classes. -/
  | program
  /-- An import by its dotted path.  No children. -/
  | importDecl (path : List String)
  /-- A class.  Children: its fields and methods. -/
  | classDecl (name : String) (superclass : Option String)
  /-- A field or a local variable.  Child: its written type. -/
  | varDecl (name : String)
  /-- A method.  Children: the written return type if any, parameters, locals, statements. -/
  | methodDecl (name : String) (isPublic isStatic : Bool)
  /-- A parameter.  Child: its written type. -/
  | param (name : String)
  /-- A written type.  No children. -/
  | typeRef (name : String) (isArray isVarargs : Bool)
  /-- An assignment to a variable.  Child: the value. -/
  | assign (target : String)
  /-- An assignment to an array element.  Children: the index, the value. -/
  | arrayAssign (target : String)
  /-- A return.  Child: the value, if one is returned. -/
  | returnStmt
  /-- A conditional.  Children: the condition, the branch taken, the other branch if any. -/
  | ifStmt
  /-- A loop.  Children: the condition, the body. -/
  | whileStmt
  /-- A sequence of statements, its children. -/
  | block
  /-- An expression evaluated for its effect.  Child: the expression. -/
  | exprStmt
  /-- An integer literal. -/
  | intLit (value : Int32)
  /-- A truth value literal. -/
  | boolLit (value : Bool)
  /-- A variable read. -/
  | varRef (name : String)
  /-- A binary operation.  Children: the operands. -/
  | binary (op : BinaryOp)
  /-- A unary operation.  Child: the operand. -/
  | unary (op : UnaryOp)
  /-- A method call.  Children: the receiver, the arguments. -/
  | methodCall (method : String)
  /-- A field read.  Child: the object. -/
  | fieldAccess (field : String)
  /-- An array element read.  Children: the array, the index. -/
  | arrayAccess
  /-- An array's length.  Child: the array. -/
  | arrayLength
  /-- The creation of an integer array.  Child: its size. -/
  | newArray
  /-- An integer array given by its elements, the children. -/
  | arrayLit
  /-- The creation of an object. -/
  | newObject (className : String)
  /-- The receiver of the running method. -/
  | this
  /-- A parenthesized expression, its child. -/
  | paren
  -- With a decidable equality, a case split that has to see that a kind is no integer literal would
  -- try out all integers, where these can be enumerated.
  deriving BEq, ReflBEq, LawfulBEq, Inhabited

namespace Kind

/-- The kinds that denote a value. -/
def isExpression : Kind → Bool
  | intLit _ | boolLit _ | varRef _ | binary _ | unary _ | methodCall _ | fieldAccess _
  | arrayAccess | arrayLength | newArray | arrayLit | newObject _ | this | paren => true
  | _ => false

/-- The kinds that are executed. -/
def isStatement : Kind → Bool
  | assign _ | arrayAssign _ | returnStmt | ifStmt | whileStmt | block | exprStmt => true
  | _ => false

/-- Integer and truth value literals. -/
def isLiteral : Kind → Bool
  | intLit _ | boolLit _ => true
  | _ => false

/-- The name that a variable declaration declares. -/
def varName? : Kind → Option String
  | varDecl name => some name
  | _ => none

/-- The name that a parameter declaration declares. -/
def paramName? : Kind → Option String
  | param name => some name
  | _ => none

/-- The words a message uses for a node of this kind. -/
def label : Kind → String
  | program => "program"
  | importDecl _ => "import"
  | classDecl _ _ => "class"
  | varDecl _ => "variable declaration"
  | methodDecl _ _ _ => "method"
  | param _ => "parameter"
  | typeRef _ _ _ => "type"
  | assign _ => "assignment"
  | arrayAssign _ => "array assignment"
  | returnStmt => "return"
  | ifStmt => "if"
  | whileStmt => "while"
  | block => "block"
  | exprStmt => "expression statement"
  | intLit _ => "integer literal"
  | boolLit _ => "boolean literal"
  | varRef _ => "variable"
  | binary _ => "binary expression"
  | unary _ => "unary expression"
  | methodCall _ => "method call"
  | fieldAccess _ => "field access"
  | arrayAccess => "array access"
  | arrayLength => "array length"
  | newArray => "array creation"
  | arrayLit => "array literal"
  | newObject _ => "object creation"
  | this => "this"
  | paren => "parenthesized expression"

end Kind

end Classlet
