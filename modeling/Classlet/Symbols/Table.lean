import Classlet.Error
import Classlet.Symbols.Ty
import Classlet.Text

/-!
# The symbol table

What the rest of the compiler knows about a unit without looking at its tree: the imports, the class
with its superclass, the fields, and the signature of every method.  Repeated names are kept; a
look-up by name sees the first declaration, a look-up by place sees each.
-/

namespace Classlet

/-- A declared name with its type. -/
structure Symbol where
  name : String
  ty : Ty
  isVarargs : Bool
  deriving DecidableEq, Inhabited

/-- The declared shape of a method. -/
structure Signature where
  name : String
  returnType : Ty
  params : List Symbol
  locals : List Symbol
  isPublic : Bool
  isStatic : Bool
  deriving DecidableEq, Inhabited

/-- Where a variable is declared. -/
inductive Origin where
  | param
  | localVar
  | field
  deriving DecidableEq, Inhabited

/-- The name of the entry method. -/
def entryName : String := "main"

/-- The name of the receiver inside a method. -/
def thisName : String := "this"

/-- The first symbol of a name. -/
def Symbol.find? (symbols : List Symbol) (name : String) : Option Symbol :=
  symbols.find? (·.name == name)

namespace Signature

/-- The last parameter takes any number of arguments. -/
def hasVarargs (s : Signature) : Bool := s.params.getLast?.any (·.isVarargs)

/-- The number of parameters that take one argument each. -/
def fixedCount (s : Signature) : Nat :=
  if s.hasVarargs then s.params.length - 1 else s.params.length

/-- The parameter of a name. -/
def param? (s : Signature) (name : String) : Option Symbol := Symbol.find? s.params name

/-- The local variable of a name. -/
def localVar? (s : Signature) (name : String) : Option Symbol := Symbol.find? s.locals name

/-- The signature is that of the static entry method. -/
def isEntry (s : Signature) : Bool := s.isStatic && s.name == entryName

end Signature

/-- The symbol table of a unit. -/
structure SymbolTable where
  /-- Dotted names. -/
  imports : List String
  className : String
  superclass : Option String
  fields : List Symbol
  /-- Method names, in the order of their declarations. -/
  methods : List String
  /-- Signatures, in the order of their declarations. -/
  signatures : List Signature
  deriving DecidableEq, Inhabited

namespace SymbolTable

/-- The table of a class without members. -/
def ofClass (className : String) (superclass : Option String) : SymbolTable :=
  ⟨[], className, superclass, [], [], []⟩

/-- Declares a further method. -/
def addMethod (table : SymbolTable) (s : Signature) : SymbolTable :=
  { table with methods := table.methods ++ [s.name], signatures := table.signatures ++ [s] }

/-- The first signature of a name. -/
def signature? (table : SymbolTable) (method : String) : Option Signature :=
  table.signatures.find? (·.name == method)

/-- The first signature of a name, which has to be declared. -/
def signature (table : SymbolTable) (method : String) : Except Halt Signature :=
  match table.signature? method with
  | some s => return s
  | none => fail (.unknownMethod method)

/-- The signature of the `index`-th method declaration, which has to be named `method`. -/
def declared (table : SymbolTable) (index : Nat) (method : String) : Except Halt Signature :=
  match table.signatures[index]? with
  | some s => if s.name == method then return s else fail (.unknownMethod method)
  | none => fail (.unknownMethod method)

/-- The class declares a method of this name. -/
def hasMethod (table : SymbolTable) (method : String) : Bool :=
  table.signatures.any (·.name == method)

/-- The field of a name. -/
def field? (table : SymbolTable) (name : String) : Option Symbol := Symbol.find? table.fields name

/-- The name is that of an import, in full or by its last segment. -/
def isImported (table : SymbolTable) (name : String) : Bool :=
  table.imports.any fun i => i == name || Text.lastSegment i == name

/-- The class has a superclass, and that is an import. -/
def superclassIsImported (table : SymbolTable) : Bool :=
  table.superclass.any table.isImported

/-- The variable a name stands for in the body of a method: a parameter, else a local variable, else
a field. -/
def resolveIn (table : SymbolTable) (s : Signature) (name : String) : Option (Origin × Symbol) :=
  match s.param? name with
  | some p => some (.param, p)
  | none =>
    match s.localVar? name with
    | some l => some (.localVar, l)
    | none => (table.field? name).map fun f => (.field, f)

/-- The variable a name stands for in the body of the first method named `method`. -/
def resolve (table : SymbolTable) (method name : String) : Option (Origin × Symbol) :=
  (table.signature? method).bind fun s => table.resolveIn s name

end SymbolTable

end Classlet
