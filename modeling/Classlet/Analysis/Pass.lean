import Classlet.Analysis.Check
import Classlet.Analysis.Scope

/-!
# Passes over a tree

A pass is one independent check: what it does at every node, and what it does once at the end.  A
run visits the nodes in pre-order, each in the scope of the method around it.
-/

namespace Classlet

/-- One independent check of a tree. -/
structure Pass where
  name : String
  /-- What to check at a node. -/
  visit : Tree → Scope → Shape → Check Unit
  /-- What to check after the last node, in the scope of the class. -/
  finish : Scope → Check Unit := fun _ => pure ()

namespace Pass

mutual

/-- Visits a node, then what is below it. -/
def walk (pass : Pass) (t : Tree) (scope : Scope) : Shape → Check Unit
  | .node id kind position children => do
    pass.visit t scope (.node id kind position children)
    pass.walkChildren t scope 0 children
  | .broken id fault => do
    pass.visit t scope (.broken id fault)
    Check.halt (.fault fault)
termination_by structural s => s

/-- Walks the children of a node in order.  A method declaration that comes after `index` others
has the scope of the signature of that index. -/
def walkChildren (pass : Pass) (t : Tree) (scope : Scope) : Nat → Shapes → Check Unit
  | _, [] => pure ()
  | index, s :: rest => do
    match ← Check.lift (s ()).kind with
    | .methodDecl name _ _ =>
      let inner ← Check.lift (scope.enter index name)
      pass.walk t inner (s ())
      pass.walkChildren t scope (index + 1) rest
    | _ =>
      pass.walk t scope (s ())
      pass.walkChildren t scope index rest
termination_by structural _ shapes => shapes

end

/-- Runs a pass over a whole tree. -/
def run (pass : Pass) (t : Tree) (scope : Scope) : Check Unit := do
  pass.walk t scope (t.shape t.root)
  pass.finish scope

end Pass

end Classlet
