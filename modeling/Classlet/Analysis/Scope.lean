import Classlet.Symbols.Table

/-!
# Scopes

The names visible at a place of the program: the symbol table, the method around the place if there
is one, and the policy for what imports define.
-/

namespace Classlet

/-- How to judge what depends on a definition outside the unit. -/
inductive ExternalPolicy where
  /-- Accept what cannot be checked. -/
  | assumeCompatible
  /-- Reject what cannot be checked. -/
  | strict
  deriving DecidableEq, Inhabited

/-- The policy accepts what cannot be checked. -/
def ExternalPolicy.isLenient : ExternalPolicy → Bool
  | .assumeCompatible => true
  | .strict => false

/-- What a name stands for. -/
inductive Resolution where
  | bound (origin : Origin) (symbol : Symbol)
  /-- An imported class, used by its name. -/
  | imported
  | this
  deriving DecidableEq, Inhabited

/-- The names visible at a place. -/
structure Scope where
  table : SymbolTable
  method : Option Signature
  policy : ExternalPolicy
  deriving DecidableEq, Inhabited

namespace Scope

/-- The scope of a class outside its methods. -/
def ofTable (table : SymbolTable) (policy : ExternalPolicy) : Scope := ⟨table, none, policy⟩

/-- The scope of the `index`-th method declaration, which has to be named `method`. -/
def enter (scope : Scope) (index : Nat) (method : String) : Except Halt Scope := do
  let s ← scope.table.declared index method
  return { scope with method := some s }

/-- The place is inside a static method. -/
def inStatic (scope : Scope) : Bool := scope.method.any (·.isStatic)

/-- The type of the receiver. -/
def classTy (scope : Scope) : Ty := .object scope.table.className

/-- The variable a name stands for.  Outside a method only fields are visible. -/
def boundSymbol? (scope : Scope) (name : String) : Option (Origin × Symbol) :=
  match scope.method with
  | some s => scope.table.resolveIn s name
  | none => (scope.table.field? name).map fun f => (.field, f)

/-- What a name stands for: a variable, else an import, else the receiver. -/
def resolve (scope : Scope) (name : String) : Option Resolution :=
  match scope.boundSymbol? name with
  | some (origin, symbol) => some (.bound origin symbol)
  | none =>
    if scope.table.isImported name then some .imported
    else if name == thisName then some .this
    else none

/-- The name may stand as the base of a declared type. -/
def isKnownTypeName (scope : Scope) (name : String) : Bool :=
  name == "int" || name == "boolean" || name == scope.table.className
    || scope.table.superclass == some name || scope.table.isImported name

/-- A value of type `source` may be stored where `target` is declared: the types agree, or an object
of the class goes where one of its superclass is expected. -/
def isAssignable (scope : Scope) (source target : Ty) : Bool :=
  source == target
    || (!source.isArray && !target.isArray && source.name == scope.table.className
      && scope.table.superclass == some target.name)

end Scope

end Classlet
