import Classlet.Syntax.Kind
import Classlet.Error

/-!
# Reports

What the compiler tells its user: a message, the stage it comes from, the place it concerns and how
grave it is.
-/

namespace Classlet

/-- The stage a report comes from. -/
inductive Stage where
  | syntactic
  /-- Symbol table and analysis. -/
  | semantic
  /-- Optimizer, lowering and register allocation. -/
  | optimization
  deriving DecidableEq, Inhabited

/-- How grave a report is. -/
inductive Severity where
  | error
  | log
  deriving DecidableEq, Inhabited

/-- A message to the user. -/
structure Report where
  stage : Stage
  position : Position
  message : String
  /-- The error behind the report, if there is one. -/
  cause : Option Error
  severity : Severity
  deriving DecidableEq, Inhabited

/-- The stage as a report's text shows it. -/
def Stage.name : Stage → String
  | .syntactic => "syntactic"
  | .semantic => "semantic"
  | .optimization => "optimization"

/-- The severity as a report's text shows it. -/
def Severity.name : Severity → String
  | .error => "error"
  | .log => "log"

namespace Report

/-- An error at a position. -/
def error (stage : Stage) (position : Position) (message : String) : Report :=
  ⟨stage, position, message, none, .error⟩

/-- A remark at a position. -/
def log (stage : Stage) (position : Position) (message : String) : Report :=
  ⟨stage, position, message, none, .log⟩

/-- The report of an error that stopped a stage. -/
def ofError (stage : Stage) (position : Position) (e : Error) : Report :=
  ⟨stage, position, e.message, some e, .error⟩

/-- Whether the report is an error. -/
def isError (r : Report) : Bool := r.severity = .error

/-- The report on one line. -/
def text (r : Report) : String :=
  r.severity.name ++ " [" ++ r.stage.name ++ "] " ++ toString r.position.line ++ ":"
    ++ toString r.position.column ++ ": " ++ r.message

/-- Whether some report is an error. -/
def anyError (reports : List Report) : Bool := reports.any isError

@[simp]
theorem anyError_nil : anyError [] = false := rfl

@[simp]
theorem anyError_append (a b : List Report) : anyError (a ++ b) = (anyError a || anyError b) :=
  List.any_append

end Report

end Classlet
