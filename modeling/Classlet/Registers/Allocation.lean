import Classlet.Registers.Coloring
import Classlet.Report

/-!
# Register allocation

The receiver and the parameters have the first registers, in the order of the calling convention;
the local and temporary variables share the registers after them, one for each color.
-/

namespace Classlet.Registers

open Classlet.Ir

/-- How registers are allocated. -/
inductive Mode where
  /-- Not at all. -/
  | disabled
  /-- With as few registers as the coloring needs. -/
  | minimize
  /-- The same, failing where the local variables need more than `available`. -/
  | limit (available : Nat)
  deriving DecidableEq, Inhabited

/-- The mode of a number given by the user: -1 for none, 0 for as few registers as possible, any
higher number for a limit. -/
def Mode.ofFlag (flag : Int) : Except Error Mode :=
  if flag = -1 then return .disabled
  else if flag = 0 then return .minimize
  else if 0 < flag then return .limit flag.toNat
  else throw (.config ("invalid register flag " ++ toString flag
    ++ ": expected -1, 0 or a positive count"))

/-- The colors of the local and temporary variables of a method. -/
def localColors (m : MethodCode) : Bindings Nat :=
  let g := Graph.ofMethod m
  color g (g.nodes.filter (!m.isPinned ·))

/-- Gives consecutive registers to names. -/
def placeParams : Bindings Nat → Nat → List String → Bindings Nat
  | registers, _, [] => registers
  | registers, next, name :: rest => placeParams (registers.put name next) (next + 1) rest

/-- The register layout for colored local variables. -/
def layout (m : MethodCode) (colors : Bindings Nat) : RegisterAssignment :=
  let receiver : Bindings Nat := if m.isStatic then .none else Bindings.none.put thisName 0
  let first := if m.isStatic then 0 else 1
  let pinned := first + m.params.length
  let params := placeParams receiver first (m.params.map (·.name))
  { registers := colors.pairs.foldl (fun found (name, c) => found.put name (pinned + c)) params
    localColors := colors
    registerCount := pinned + colorCount colors.bound }

/-- The registers of a method; none if allocation is disabled. -/
def allocate (mode : Mode) (m : MethodCode) : Except Error (Option RegisterAssignment) :=
  match mode with
  | .disabled => return none
  | .minimize => return some (layout m (localColors m))
  | .limit available =>
    let colors := localColors m
    let required := colorCount colors.bound
    if available < required then throw (.registerBudget m.name required available)
    else return some (layout m colors)

/-- Allocates the registers of a method.  A method that fails is left without registers and
reported. -/
def allocateMethod (mode : Mode) (m : MethodCode) : MethodCode × List Report :=
  match allocate mode m with
  | .ok registers => ({ m with registers }, [])
  | .error e => ({ m with registers := none }, [.ofError .optimization .unknown e])

/-- Allocates the registers of every method of a class. -/
def allocateClass (mode : Mode) (c : ClassCode) : ClassCode × List Report :=
  let results := c.methods.map (allocateMethod mode)
  ({ c with methods := results.map (·.1) }, results.flatMap (·.2))

end Classlet.Registers
