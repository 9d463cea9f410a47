import Classlet.Codec.Decoder
import Classlet.Syntax.Tree

/-!
# Trees as JSON
-/

namespace Classlet.Codec

/-- The binary operators by their names. -/
def binaryOps : List (String × BinaryOp) :=
  [("Add", .add), ("Sub", .sub), ("Mul", .mul), ("Div", .div), ("Lt", .lt), ("Gt", .gt),
    ("Le", .le), ("Ge", .ge), ("Eq", .eq), ("Ne", .ne), ("And", .and), ("Or", .or)]

/-- The unary operators by their names. -/
def unaryOps : List (String × UnaryOp) := [("Not", .not), ("Neg", .neg)]

/-- Reads a binary operator by its name. -/
def binaryOp : Decoder BinaryOp := oneOf binaryOps

/-- Reads a unary operator by its name. -/
def unaryOp : Decoder UnaryOp := oneOf unaryOps

/-- Reads a position. -/
def position : Decoder Position := record ["line", "column"] fun r fields => do
  match fields with
  | [line, column] => return ⟨← required int32 r line, ← required int32 r column⟩
  | _ => none

/-- Writes a position. -/
def encodePosition (p : Position) : Json := .obj [("line", .int p.line), ("column", .int p.column)]

/-- The content of a kind that has one attribute. -/
def single {α : Type} (name : String) (d : Decoder α) (build : α → Kind) :
    Decoder Kind := variantFields [name] fun r fields => do
  match fields with
  | [a] => return build (← required d r a)
  | _ => none

/-- Reads the attributes of a class. -/
def classDeclContent : Decoder Kind := variantFields ["name", "superclass"] fun r fields => do
  match fields with
  | [name, superclass] =>
    return .classDecl (← required string r name) (← optional string r superclass)
  | _ => none

/-- Reads the attributes of a method. -/
def methodDeclContent : Decoder Kind :=
  variantFields ["name", "is_public", "is_static"] fun r fields => do
    match fields with
    | [name, isPublic, isStatic] =>
      return .methodDecl (← required string r name) (← required boolean r isPublic)
        (← required boolean r isStatic)
    | _ => none

/-- Reads the attributes of a written type. -/
def typeRefContent : Decoder Kind :=
  variantFields ["name", "is_array", "is_varargs"] fun r fields => do
    match fields with
    | [name, isArray, isVarargs] =>
      return .typeRef (← required string r name) (← required boolean r isArray)
        (← required boolean r isVarargs)
    | _ => none

/-- The kinds without attributes by their names. -/
def plainKinds : List (String × Kind) :=
  [("Program", .program), ("Return", .returnStmt), ("If", .ifStmt), ("While", .whileStmt),
    ("Block", .block), ("ExprStmt", .exprStmt), ("ArrayAccess", .arrayAccess),
    ("ArrayLength", .arrayLength), ("NewArray", .newArray), ("ArrayLiteral", .arrayLit),
    ("This", .this), ("Paren", .paren)]

/-- The kinds with attributes by their names. -/
def attributedKinds : List (String × Decoder Kind) :=
  [("ImportDecl", single "path" (list string) .importDecl),
    ("ClassDecl", classDeclContent),
    ("VarDecl", single "name" string .varDecl),
    ("MethodDecl", methodDeclContent),
    ("Param", single "name" string .param),
    ("TypeRef", typeRefContent),
    ("Assign", single "target" string .assign),
    ("ArrayAssign", single "target" string .arrayAssign),
    ("IntLiteral", single "value" int32 fun n => .intLit (Int32.ofInt n)),
    ("BoolLiteral", single "value" boolean .boolLit),
    ("VarRef", single "name" string .varRef),
    ("Binary", single "op" binaryOp .binary),
    ("Unary", single "op" unaryOp .unary),
    ("MethodCall", single "method" string .methodCall),
    ("FieldAccess", single "field" string .fieldAccess),
    ("NewObject", single "class" string .newObject)]

/-- Reads a node kind. -/
def kind : Decoder Kind := variant fun r name content => do
  match plainKinds.lookup name with
  | some k => noContent k content
  | none => required (← attributedKinds.lookup name) r content

/-- Writes a node kind. -/
def encodeKind : Kind → Json
  | .importDecl path => tagged "ImportDecl" (.obj [("path", .strings path)])
  | .classDecl name superclass =>
    tagged "ClassDecl" (.obj [("name", .str name), ("superclass", .ofOption .str superclass)])
  | .varDecl name => tagged "VarDecl" (.obj [("name", .str name)])
  | .methodDecl name isPublic isStatic =>
    tagged "MethodDecl" (.obj [("name", .str name), ("is_public", .bool isPublic),
      ("is_static", .bool isStatic)])
  | .param name => tagged "Param" (.obj [("name", .str name)])
  | .typeRef name isArray isVarargs =>
    tagged "TypeRef" (.obj [("name", .str name), ("is_array", .bool isArray),
      ("is_varargs", .bool isVarargs)])
  | .assign target => tagged "Assign" (.obj [("target", .str target)])
  | .arrayAssign target => tagged "ArrayAssign" (.obj [("target", .str target)])
  | .intLit value => tagged "IntLiteral" (.obj [("value", .int value.toInt)])
  | .boolLit value => tagged "BoolLiteral" (.obj [("value", .bool value)])
  | .varRef name => tagged "VarRef" (.obj [("name", .str name)])
  | .binary op => tagged "Binary" (.obj [("op", nameOf binaryOps op)])
  | .unary op => tagged "Unary" (.obj [("op", nameOf unaryOps op)])
  | .methodCall method => tagged "MethodCall" (.obj [("method", .str method)])
  | .fieldAccess field => tagged "FieldAccess" (.obj [("field", .str field)])
  | .newObject className => tagged "NewObject" (.obj [("class", .str className)])
  | plain => nameOf plainKinds plain

/-- Reads a node with its links. -/
def node : Decoder Node := record ["kind", "position", "parent", "children"] fun r fields => do
  match fields with
  | [k, p, parent, children] =>
    return ⟨← required kind r k, ← required position r p,
      ← optional word32 r parent, ← required (list word32) r children⟩
  | _ => none

/-- Writes a node with its links. -/
def encodeNode (n : Node) : Json :=
  .obj [("kind", encodeKind n.kind), ("position", encodePosition n.position),
    ("parent", .ofOption .nat n.parent), ("children", .ofList .nat n.children)]

/-- Reads a tree, without following its links. -/
def tree : Decoder Tree := record ["nodes", "root"] fun r fields => do
  match fields with
  | [nodes, root] =>
    return ⟨(← required (list node) r nodes).toArray, ← required word32 r root⟩
  | _ => none

/-- Writes a tree. -/
def encodeTree (t : Tree) : Json :=
  .obj [("nodes", .ofList encodeNode t.nodes.toList), ("root", .nat t.root)]

end Classlet.Codec
