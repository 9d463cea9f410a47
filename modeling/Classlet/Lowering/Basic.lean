import Classlet.Analysis.Typing
import Classlet.Ir.Code
import Classlet.Ir.NameSupply

/-!
# Lowering: what a method needs

The declarations a method body refers to, the names and variables given out while it is lowered, and
the questions about receivers that decide how calls and fields outside the unit are typed.
-/

namespace Classlet.Lowering

open Classlet.Ir

/-- The declarations around a method body. -/
structure Context where
  table : SymbolTable
  signature : Signature

/-- The names and variables given out so far. -/
structure State where
  names : NameSupply
  vars : VarTable

/-- A step of lowering. -/
abbrev Lower := StateT State (Except Halt)

/-- Stops lowering with an error. -/
def Lower.fail {α : Type} (e : Error) : Lower α := fun _ => Classlet.fail e

/-- Takes the next number of a stem. -/
def nextNumber (stem : String) : Lower Nat := fun s =>
  let (n, names) := s.names.next stem
  return (n, { s with names })

/-- Makes a temporary variable. -/
def temp (ty : ValueType) : Lower String := fun s =>
  let (name, names) := s.names.fresh "tmp"
  let (_, vars) := s.vars.insert name ty
  return (name, ⟨names, vars⟩)

namespace Context

/-- The names and variables of a method before its body: the receiver unless the method is static,
the parameters and the local variables. -/
def start (cx : Context) : State :=
  let declared := cx.signature.params ++ cx.signature.locals
  let receiver := if cx.signature.isStatic then VarTable.empty
    else (VarTable.empty.insert thisName (.object cx.table.className)).2
  { names := .ofReserved ((declared ++ cx.table.fields).map (·.name) ++ [thisName])
    vars := declared.foldl (fun vars s => (vars.insert s.name (.ofTy s.ty)).2) receiver }

/-- The type of the receiver. -/
def classType (cx : Context) : ValueType := .object cx.table.className

/-- The variable a name stands for. -/
def resolve (cx : Context) (name : String) : Option (Origin × Symbol) :=
  cx.table.resolveIn cx.signature name

/-- A name stands for nothing here. -/
def unresolved (cx : Context) (name : String) : Error :=
  MethodCode.unresolved name cx.signature.name

/-- The scope of the method. -/
def scope (cx : Context) : Scope := ⟨cx.table, some cx.signature, .assumeCompatible⟩

/-- The type analysis knows for an expression, if it knows one. -/
def staticType? (cx : Context) (s : Shape) : Except Halt (Option ValueType) :=
  match s.typeOf cx.scope with
  | .ok ty => return ty.known?.map ValueType.ofTy
  | .error (.error _) => return none
  | .error (.fault f) => breakOff f

/-- The import that a receiver names, if it names one and no variable. -/
def importedReceiver? (cx : Context) (s : Shape) : Except Halt (Option String) := do
  match ← s.unwrapParens.kind with
  | .varRef name =>
    if name != thisName && (cx.resolve name).isNone && cx.table.isImported name then
      return some name
    else return none
  | _ => return none

end Context

/-- The innermost receiver of a chain of calls and field reads. -/
def chainRoot : Shape → Shape
  | .node _ .paren _ (inner :: _) => chainRoot (inner ())
  | .node _ (.methodCall _) _ (receiver :: _) => chainRoot (receiver ())
  | .node _ (.fieldAccess _) _ (object :: _) => chainRoot (object ())
  | s => s

/-- The type to assume for a receiver whose own type is not known: the import at the root of its
chain, else the superclass, else an integer. -/
def Context.receiverHint (cx : Context) (s : Shape) : Except Halt ValueType := do
  match ← cx.importedReceiver? (chainRoot s) with
  | some className => return .object className
  | none =>
    match cx.table.superclass with
    | some superclass => return .object superclass
    | none => return .int

end Classlet.Lowering
