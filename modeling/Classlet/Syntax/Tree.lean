import Classlet.Syntax.Kind
import Classlet.Error

/-!
# The syntax tree

Nodes live in one array and refer to each other by their place in it.  A subtree that is replaced
stays in the array but no child list leads to it any more, so ids never change their meaning.

Links are only checked when they are followed: an id that is not in the array breaks off the walk
that meets it.
-/

namespace Classlet

/-- The place of a node in the array of its tree. -/
abbrev NodeId := Nat

/-- A node with its links. -/
structure Node where
  kind : Kind
  position : Position
  /-- The node whose child this is; none for the root and for detached nodes. -/
  parent : Option NodeId
  children : List NodeId
  deriving BEq, ReflBEq, LawfulBEq, Inhabited

/-- A syntax tree. -/
structure Tree where
  nodes : Array Node
  root : NodeId
  deriving BEq, ReflBEq, LawfulBEq, Inhabited

namespace Tree

/-- The number of nodes, detached ones included. -/
def size (t : Tree) : Nat := t.nodes.size

/-- A bound on the length of walks along links.  A walk that never comes back to a node has at most
as many steps as there are nodes; the rest is more than any walk makes that goes around a cycle
before something stops it. -/
def stepLimit (t : Tree) : Nat := t.size + 0x1000000000000000

/-- A tree of one node. -/
def ofKind (kind : Kind) (position : Position) : Tree := ⟨#[⟨kind, position, none, []⟩], 0⟩

/-- The tree of a unit without imports and classes. -/
def emptyProgram : Tree := ofKind .program ⟨1, 1⟩

/-! ### Reading -/

/-- The node at an id. -/
def node (t : Tree) (id : NodeId) : Except Halt Node :=
  match t.nodes[id]? with
  | some n => .ok n
  | none => breakOff (.danglingId t.size id)

/-- The kind of the node at an id. -/
def kind (t : Tree) (id : NodeId) : Except Halt Kind := return (← t.node id).kind

/-- The child list of the node at an id. -/
def children (t : Tree) (id : NodeId) : Except Halt (List NodeId) := return (← t.node id).children

/-- The parent of the node at an id. -/
def parent (t : Tree) (id : NodeId) : Except Halt (Option NodeId) := return (← t.node id).parent

/-- The position of the node at an id. -/
def position (t : Tree) (id : NodeId) : Except Halt Position := return (← t.node id).position

/-- A node lacks its `index`-th child. -/
def noChild (id : NodeId) (kind : Kind) (index : Nat) : Error :=
  .malformedTree id (kind.label ++ " has no child " ++ toString index)

/-- The `index`-th child of the node at an id. -/
def child (t : Tree) (id : NodeId) (index : Nat) : Except Halt NodeId := do
  let n ← t.node id
  match n.children[index]? with
  | some c => return c
  | none => fail (noChild id n.kind index)

/-- The closest proper ancestor whose kind satisfies `p`, within `fuel` steps up from `above`. -/
def ancestorFrom (t : Tree) (p : Kind → Bool) : Nat → Option NodeId → Except Halt (Option NodeId)
  | _, none => return none
  | 0, some _ => breakOff .endlessWalk
  | fuel + 1, some above => do
    let n ← t.node above
    if p n.kind then return some above else ancestorFrom t p fuel n.parent

/-- The closest proper ancestor whose kind satisfies `p`. -/
def ancestor (t : Tree) (id : NodeId) (p : Kind → Bool) : Except Halt (Option NodeId) := do
  ancestorFrom t p t.stepLimit (← t.parent id)

/-! ### Growing -/

/-- Adds a detached node. -/
def add (t : Tree) (kind : Kind) (position : Position) : NodeId × Tree :=
  (t.size, { t with nodes := t.nodes.push ⟨kind, position, none, []⟩ })

/-- Changes the node at an id.  An id without a node is passed over. -/
def update (t : Tree) (id : NodeId) (f : Node → Node) : Tree :=
  { t with nodes := t.nodes.modify id f }

/-- Makes `child` the last child of `parent`.  Ids without a node are passed over. -/
def link (t : Tree) (parent child : NodeId) : Tree :=
  let t := t.update child fun n => { n with parent := some parent }
  t.update parent fun n => { n with children := n.children ++ [child] }

/-- Makes the detached node `child` the last child of `parent`. -/
def appendChild (t : Tree) (parent child : NodeId) : Except Halt Tree := do
  discard (t.node child)
  discard (t.node parent)
  return t.link parent child

/-- Adds a node as the last child of `parent`. -/
def addChild (t : Tree) (parent : NodeId) (kind : Kind) (position : Position) :
    Except Halt (NodeId × Tree) := do
  let (id, t) := t.add kind position
  return (id, ← t.appendChild parent id)

/-- Copies the subtree at an id into fresh detached nodes, to a depth of `fuel`. -/
def copyWithin : Nat → Tree → NodeId → Except Halt (NodeId × Tree)
  | 0, _, _ => breakOff .endlessWalk
  | fuel + 1, t, id => do
    let n ← t.node id
    let (copy, t) := t.add n.kind n.position
    let t ← n.children.foldlM (fun t child => do
      let (childCopy, t) ← copyWithin fuel t child
      t.appendChild copy childCopy) t
    return (copy, t)

/-- Copies the subtree at an id into fresh detached nodes and returns the id of the copy. -/
def deepCopy (t : Tree) (id : NodeId) : Except Halt (NodeId × Tree) :=
  copyWithin t.stepLimit t id

@[simp]
theorem size_add (t : Tree) (kind : Kind) (position : Position) :
    (t.add kind position).2.size = t.size + 1 := by
  simp [add, size]

@[simp]
theorem size_update (t : Tree) (id : NodeId) (f : Node → Node) : (t.update id f).size = t.size := by
  simp [update, size]

@[simp]
theorem size_link (t : Tree) (parent child : NodeId) : (t.link parent child).size = t.size := by
  simp [link]

theorem getElem?_nodes_add (t : Tree) (kind : Kind) (position : Position) (id : NodeId) :
    (t.add kind position).2.nodes[id]?
      = if id = t.size then some ⟨kind, position, none, []⟩ else t.nodes[id]? :=
  Array.getElem?_push

theorem getElem?_nodes_update (t : Tree) (id other : NodeId) (f : Node → Node) :
    (t.update id f).nodes[other]?
      = if id = other then t.nodes[other]?.map f else t.nodes[other]? := by
  simp [update, Array.getElem?_modify]

/-! ### Replacing -/

/-- Puts the detached node `new` in the place of `old`, which becomes detached. -/
def replace (t : Tree) (old new : NodeId) : Except Halt Tree := do
  if (← t.parent new).isSome then
    fail (.malformedTree new "replacement node is already attached")
  match ← t.parent old with
  | some parent =>
    let siblings ← t.children parent
    match siblings.idxOf? old with
    | none => fail (.malformedTree parent "child link is broken")
    | some slot =>
      let t := t.update parent fun n => { n with children := n.children.set slot new }
      let t := t.update new fun n => { n with parent := some parent }
      return t.update old fun n => { n with parent := none }
  | none =>
    if old = t.root then return { t with root := new }
    else fail (.malformedTree old "node is detached")

end Tree

end Classlet
