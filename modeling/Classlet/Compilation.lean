import Classlet.Analysis.Analyzer
import Classlet.Lowering.Method
import Classlet.Optimize
import Classlet.Registers.Allocation
import Classlet.Symbols.Build

/-!
# Compilation

From the tree of a unit to lowered code with registers: symbol table, analysis, optimization if it
is asked for, lowering, register allocation.  Analysis also runs over a table with errors, and any
error up to then ends the compilation.  Afterwards a method without registers does not keep the
others from getting theirs.
-/

namespace Classlet

/-- The options of a compilation. -/
structure Options where
  /-- Propagate and fold constants. -/
  optimize : Bool := false
  registers : Registers.Mode := .disabled
  externalTypes : ExternalPolicy := .assumeCompatible
  /-- Methods may be allocated in parallel.  The result does not depend on it. -/
  parallelAllocation : Bool := true
  deriving DecidableEq, Inhabited

/-- The result of a compilation. -/
structure Compilation where
  /-- The symbol table, unless the unit has none. -/
  symbols : Option SymbolTable
  /-- The lowered class, unless the compilation ended before. -/
  ir : Option Ir.ClassCode
  /-- The reports in the order of the stages. -/
  reports : List Report

/-- There is lowered code and no error. -/
def Compilation.isSuccess (c : Compilation) : Bool := c.ir.isSome && !Report.anyError c.reports

/-- The position of the node that an error names, if there is such a node. -/
def Tree.errorPosition (t : Tree) : Error → Position
  | .malformedTree node _ => (t.nodes[node]?.map (·.position)).getD .unknown
  | _ => .unknown

namespace Compilation

/-- The result where there is no symbol table. -/
def withoutTable (t : Tree) (e : Error) : Compilation :=
  ⟨none, none, [.ofError .semantic (t.errorPosition e) e]⟩

/-- The result where the optimizer or lowering stopped. -/
def stopped (t : Tree) (table : SymbolTable) (reports : List Report) (e : Error) : Compilation :=
  ⟨some table, none, reports ++ [.ofError .optimization (t.errorPosition e) e]⟩

/-- Optimizes the tree if that is asked for. -/
def optimizeIf (options : Options) (table : SymbolTable) (t : Tree) : Except Halt Unit × Tree :=
  if options.optimize then
    let (result, t) := (Optimize.optimize table).run.run t
    (result.map fun _ => (), t)
  else (.ok (), t)

/-- The result where lowering the tree gave code, for which registers are then allocated, or
stopped. -/
def ofLowered (options : Options) (table : SymbolTable) (reports : List Report) (t : Tree) :
    Except Halt Ir.ClassCode → Except Fault Compilation
  | .ok c =>
    let (c, more) := Registers.allocateClass options.registers c
    .ok ⟨some table, some c, reports ++ more⟩
  | .error (.error e) => .ok (stopped t table reports e)
  | .error (.fault f) => .error f

/-- The result where the optimizer has left a tree, which is then lowered, or stopped. -/
def ofOptimized (options : Options) (table : SymbolTable) (reports : List Report) :
    Except Halt Unit × Tree → Except Fault (Compilation × Tree)
  | (.ok _, t) => return (← ofLowered options table reports t (t.lower table), t)
  | (.error (.error e), t) => .ok (stopped t table reports e, t)
  | (.error (.fault f), _) => .error f

/-- The result where the tree has a symbol table, with which it is then analyzed, or none. -/
def ofTable (options : Options) (t : Tree) :
    Except Halt (SymbolTable × List Report) → Except Fault (Compilation × Tree)
  | .ok (table, declarationReports) =>
    let reports := declarationReports ++ analyze options.externalTypes t table
    if Report.anyError reports then .ok (⟨some table, none, reports⟩, t)
    else ofOptimized options table reports (optimizeIf options table t)
  | .error (.error e) => .ok (withoutTable t e, t)
  | .error (.fault f) => .error f

end Compilation

/-- Compiles a tree, and returns it as the optimizer left it. -/
def compile (options : Options) (t : Tree) : Except Fault (Compilation × Tree) :=
  Compilation.ofTable options t t.symbolTable

end Classlet
