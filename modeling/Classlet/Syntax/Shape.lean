import Classlet.Syntax.Tree

/-!
# Shapes

The shape of a tree at an id is what following the child links from there shows: an inductive value,
on which everything that only reads the tree recurses.  A link that leads nowhere becomes a `broken`
leaf, and only a reader that looks at that leaf breaks off.

A child is worked out when it is looked at.  So a tree whose nodes are children of several others,
or whose links form a cycle, has a shape too, and a reader meets no more of it than it asks for.
-/

namespace Classlet

/-- A subtree as its child links show it. -/
inductive Shape where
  | node (id : NodeId) (kind : Kind) (position : Position) (children : List (Unit → Shape))
  /-- A link that cannot be followed. -/
  | broken (id : NodeId) (fault : Fault)
  deriving Inhabited

/-- Shapes that stand next to each other, each worked out when it is looked at. -/
abbrev Shapes := List (Unit → Shape)

namespace Tree

/-- The shape at an id, followed to a depth of `fuel` nodes. -/
def shapeWithin (t : Tree) : Nat → NodeId → Shape
  | 0, id =>
    match t.nodes[id]? with
    | some _ => .broken id .endlessWalk
    | none => .broken id (.danglingId t.size id)
  | fuel + 1, id =>
    match t.nodes[id]? with
    | some n => .node id n.kind n.position (n.children.map fun child _ => shapeWithin t fuel child)
    | none => .broken id (.danglingId t.size id)

/-- The shape at an id. -/
def shape (t : Tree) (id : NodeId) : Shape := t.shapeWithin t.stepLimit id

end Tree

namespace Shape

/-- The id a shape was read at. -/
def id : Shape → NodeId
  | .node id _ _ _ => id
  | .broken id _ => id

/-- The kind of the topmost node. -/
def kind : Shape → Except Halt Kind
  | .node _ kind _ _ => return kind
  | .broken _ fault => breakOff fault

/-- The child shapes. -/
def children : Shape → Except Halt Shapes
  | .node _ _ _ children => return children
  | .broken _ fault => breakOff fault

/-- The `index`-th child shape. -/
def child : Shape → Nat → Except Halt Shape
  | .node id kind _ children, index =>
    match children[index]? with
    | some c => return c ()
    | none => fail (Tree.noChild id kind index)
  | .broken _ fault, _ => breakOff fault

mutual

/-- The ids in pre-order. -/
def ids : Shape → Except Halt (List NodeId)
  | .node id _ _ children => return id :: (← idsOfAll children)
  | .broken _ fault => breakOff fault
termination_by structural s => s

/-- The ids of several shapes, one after the other. -/
def idsOfAll : Shapes → Except Halt (List NodeId)
  | [] => return []
  | s :: rest => return (← (s ()).ids) ++ (← idsOfAll rest)
termination_by structural shapes => shapes

end

/-- The shape under the parentheses around it. -/
def unwrapParens : Shape → Shape
  | .node _ .paren _ (inner :: _) => (inner ()).unwrapParens
  | s => s
termination_by structural s => s

/-- The first class among some shapes, with its child shapes. -/
def firstClass : Shapes → Except Halt (String × Option String × Shapes)
  | [] => fail .missingClass
  | s :: rest =>
    match s () with
    | .broken _ fault => breakOff fault
    | .node _ (.classDecl name superclass) _ members => return (name, superclass, members)
    | .node .. => firstClass rest

end Shape

namespace Tree

/-- The ids of the subtree at an id, in pre-order. -/
def descendants (t : Tree) (id : NodeId) : Except Halt (List NodeId) := (t.shape id).ids

/-- The id under the parentheses around an id. -/
def unwrapParens (t : Tree) (id : NodeId) : Except Halt NodeId :=
  match (t.shape id).unwrapParens with
  | .node inner _ _ _ => return inner
  | .broken _ fault => breakOff fault

end Tree

end Classlet
