/-!
# Errors, faults and halts

An `Error` stops a stage for a reason of the language or of the configuration and has a message.  A
`Fault` stops it because the tree cannot be walked at all, or because a check gave up; it is not
turned into a result.  A `Halt` is either.
-/

namespace Classlet

/-- A reason for a stage to stop. -/
inductive Error where
  /-- The unit declares no class. -/
  | missingClass
  /-- A method is looked up that the class does not declare. -/
  | unknownMethod (method : String)
  /-- A name stands for nothing that can be loaded or stored. -/
  | unresolvedSymbol (name : String)
  /-- A node lacks the children its kind asks for, or is not of the kind expected in its place. -/
  | malformedTree (node : Nat) (reason : String)
  /-- The local variables of a method need more registers than are available. -/
  | registerBudget (method : String) (required available : Nat)
  /-- An analysis pass did not come to an end of its own. -/
  | passFailed (pass reason : String)
  /-- The configuration is not acceptable. -/
  | config (text : String)
  deriving DecidableEq, Inhabited

/-- The wording of an error. -/
def Error.message : Error → String
  | .missingClass => "No class declaration found in the compilation unit"
  | .unknownMethod method => "Method not declared in class: " ++ method
  | .unresolvedSymbol name => "Unresolved symbol: " ++ name
  | .malformedTree node reason => "Malformed tree at node " ++ toString node ++ ": " ++ reason
  | .registerBudget method required available =>
    "Method " ++ method ++ " needs at least " ++ toString required
      ++ " registers for its locals, only " ++ toString available ++ " available"
  | .passFailed pass reason => "Analysis pass " ++ pass ++ " failed: " ++ reason
  | .config text => "Configuration error: " ++ text

/-- A reason for a walk to break off. -/
inductive Fault where
  /-- The walk met an id beyond the `size` nodes that exist. -/
  | danglingId (size id : Nat)
  /-- The links form a cycle, so that the walk has no end. -/
  | endlessWalk
  /-- A check gave up, with or without saying why. -/
  | gaveUp (why : Option String)
  deriving DecidableEq, Inhabited

/-- The wording of a fault. -/
def Fault.reason : Fault → String
  | .danglingId size id =>
    "index out of bounds: the len is " ++ toString size ++ " but the index is " ++ toString id
  | .endlessWalk => "the links form a cycle"
  | .gaveUp why => why.getD "panic"

/-- What stops a computation over a tree. -/
inductive Halt where
  | error (error : Error)
  | fault (fault : Fault)
  deriving DecidableEq, Inhabited

/-- Stops with an error. -/
def fail {α : Type} (e : Error) : Except Halt α := .error (.error e)

/-- Stops with a fault. -/
def breakOff {α : Type} (f : Fault) : Except Halt α := .error (.fault f)

/-- A sequence that does not stop consists of steps that do not stop. -/
theorem Halt.bind_ok {α β : Type} {x : Except Halt α} {f : α → Except Halt β} {b : β}
    (h : (x >>= f) = .ok b) : ∃ a, x = .ok a ∧ f a = .ok b := by
  cases x with
  | error e => cases h
  | ok a => exact ⟨a, rfl, h⟩

end Classlet
