import Classlet.Ir.Code
import Std.Data.TreeSet

/-!
# Interference

Two variables interfere if some instruction refers to both.  The receiver takes no part.
-/

namespace Classlet.Registers

open Classlet.Ir

/-- An interference graph. -/
structure Graph where
  /-- The nodes in the order they were added. -/
  nodes : List String
  /-- The neighbors of every node. -/
  adjacency : Bindings (Std.TreeSet String)
  deriving Inhabited

namespace Graph

/-- The graph without nodes. -/
def empty : Graph := ⟨[], .none⟩

/-- The neighbors of a node. -/
def neighborSet (g : Graph) (name : String) : Std.TreeSet String := (g.adjacency.get? name).getD ∅

/-- The neighbors of a node in the order of their names. -/
def neighbors (g : Graph) (name : String) : List String := (g.neighborSet name).toList

/-- The number of neighbors of a node. -/
def degree (g : Graph) (name : String) : Nat := (g.neighborSet name).size

/-- The node `a` has the neighbor `b`. -/
def interferes (g : Graph) (a b : String) : Bool := (g.neighborSet a).contains b

/-- The number of edges, each counted at both its ends. -/
def edgeCount (g : Graph) : Nat := g.nodes.foldr (fun name n => g.degree name + n) 0 / 2

/-- Adds a node, unless it is there or the receiver. -/
def addNode (g : Graph) (name : String) : Graph :=
  if name != thisName && (g.adjacency.get? name).isNone then
    ⟨g.nodes ++ [name], g.adjacency.put name ∅⟩
  else g

/-- Adds `b` to the neighbors of `a`, if `a` is a node. -/
def addNeighbor (g : Graph) (a b : String) : Graph :=
  match g.adjacency.get? a with
  | some others => { g with adjacency := g.adjacency.put a (others.insert b) }
  | none => g

/-- Adds an edge to the ends of it that are nodes. -/
def addEdge (g : Graph) (a b : String) : Graph :=
  if a = b then g else (g.addNeighbor a b).addNeighbor b a

/-- Adds the variables of one instruction and the edges between them. -/
def addClique (g : Graph) : List String → Graph
  | [] => g
  | a :: rest => (rest.foldl (fun g b => g.addEdge a b) (g.addNode a)).addClique rest

/-- Adds the variables an instruction refers to. -/
def addInstr (g : Graph) (i : Instr) : Graph := g.addClique (i.vars.filter (· != thisName))

/-- A node is added at the end, unless it is there or the receiver. -/
theorem nodes_addNode (g : Graph) (name : String) :
    (g.addNode name).nodes
      = if name = thisName ∨ (g.adjacency.get? name).isSome then g.nodes
        else g.nodes ++ [name] := by
  unfold addNode
  by_cases h : name = thisName
  · simp [h]
  · cases g.adjacency.get? name <;> simp [h]

/-- Edges add no nodes. -/
@[simp]
theorem nodes_addNeighbor (g : Graph) (a b : String) : (g.addNeighbor a b).nodes = g.nodes := by
  unfold addNeighbor
  split <;> rfl

@[simp]
theorem nodes_addEdge (g : Graph) (a b : String) : (g.addEdge a b).nodes = g.nodes := by
  unfold addEdge
  split <;> simp

/-- The interference graph of a method: the variables of its table, then those only instructions
refer to. -/
def ofMethod (m : MethodCode) : Graph :=
  m.instructions.foldl addInstr (m.vars.names.foldl addNode empty)

end Graph

end Classlet.Registers
