import Classlet.Analysis.Names
import Classlet.Analysis.Operands
import Classlet.Analysis.Values
import Classlet.Analysis.WrittenTypes

/-!
# Analysis

Runs passes over a tree, one after the other, up to and including the first that finds an error.  A
pass that halts counts as having found one: the failure of the pass itself.
-/

namespace Classlet

namespace Pass

/-- The report of a pass that halted with an error.  An error that already names a failed pass is
kept. -/
def failure (name : String) : Error → Report
  | .passFailed pass reason => .ofError .semantic .unknown (.passFailed pass reason)
  | e => .ofError .semantic .unknown (.passFailed name e.message)

/-- The reports of a pass of the given name that had an outcome.  What a pass found before it halted
with an error is kept; what it found before a fault is not. -/
def reportsOf (name : String) (outcome : Check Unit) : List Report :=
  match outcome.result with
  | .ok _ => outcome.findings.map Finding.report
  | .error (.error e) => outcome.findings.map Finding.report ++ [failure name e]
  | .error (.fault f) => [.ofError .semantic .unknown (.passFailed name f.reason)]

/-- The reports of a pass on a tree. -/
def reports (pass : Pass) (t : Tree) (scope : Scope) : List Report :=
  reportsOf pass.name (pass.run t scope)

/-- The standard passes in the order they are run. -/
def standard : List Pass :=
  [Names.undeclaredPass, Operands.operationPass, Operands.conditionPass, Operands.arrayPass,
    Values.returnPass, Values.assignmentPass, Values.argumentPass, Names.importPass,
    WrittenTypes.declarationPass]

end Pass

/-- The reports of the passes in order, up to and including the first that finds an error. -/
def analyzeWith (t : Tree) (scope : Scope) : List Pass → List Report
  | [] => []
  | pass :: rest =>
    let found := pass.reports t scope
    if Report.anyError found then found else found ++ analyzeWith t scope rest

/-- The reports of the standard analysis of a tree. -/
def analyze (policy : ExternalPolicy) (t : Tree) (table : SymbolTable) : List Report :=
  analyzeWith t (.ofTable table policy) Pass.standard

end Classlet
