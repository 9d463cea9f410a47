import Classlet.Bindings
import Classlet.Symbols.Table
import Classlet.Syntax.Shape
import Std.Data.TreeSet

/-!
# The optimizer

Propagates and folds constants in turns until a round changes nothing.  Every other round replaces a
variable read, an operator or a pair of parentheses by a literal, so the rounds come to an end.

* Folding replaces an operation on literals by its result, from the leaves up.  Arithmetic wraps
  around at 32 bits.  A division by zero is left alone, and so is a comparison that is the condition
  of a loop.
* Propagation replaces a read of a parameter or local variable that holds a known literal by that
  literal.  The statements of a method are gone through in order: the assignment of a literal makes
  the variable known, any other assignment makes it unknown.  A variable that is assigned anywhere
  inside a conditional or a loop of the method is never known.

An edit changes a tree in steps and may halt on the way.  The steps made before a halt stay made.
-/

namespace Classlet.Optimize

/-! ### Edits of a tree -/

/-- An edit of a tree. -/
abbrev Edit := ExceptT Halt (StateM Tree)

namespace Edit

/-- Looks something up in the tree. -/
def read {α : Type} (f : Tree → Except Halt α) : Edit α := fun t => (f t, t)

/-- Makes one step.  A step that halts leaves the tree as it is. -/
def step {α : Type} (f : Tree → Except Halt (α × Tree)) : Edit α := fun t =>
  match f t with
  | .ok (a, t') => (.ok a, t')
  | .error h => (.error h, t)

/-- Puts the detached node `new` in the place of `old`. -/
def replace (old new : NodeId) : Edit Unit := step fun t => return ((), ← t.replace old new)

variable {α β : Type}

theorem pure_apply (a : α) (t : Tree) : (pure a : Edit α) t = (.ok a, t) := rfl

theorem bind_apply (x : Edit α) (f : α → Edit β) (t : Tree) :
    (x >>= f) t = match x t with
      | (.ok a, t') => f a t'
      | (.error h, t') => (.error h, t') := by
  have h : (x >>= f) t = (ExceptT.bindCont f (x t).1) (x t).2 := rfl
  rw [h]
  rcases x t with ⟨_ | a, t'⟩ <;> rfl

theorem bind_ok {x : Edit α} {f : α → Edit β} {t t' : Tree} {a : α} (h : x t = (.ok a, t')) :
    (x >>= f) t = f a t' := by
  rw [bind_apply, h]

theorem foldlM_cons_ok {f : β → α → Edit β} {a : α} {l : List α} {b b' : β} {t t' : Tree}
    (h : f b a t = (.ok b', t')) : ((a :: l).foldlM f b) t = (l.foldlM f b') t' := by
  rw [List.foldlM_cons, bind_ok h]

theorem read_ok {f : Tree → Except Halt α} {t : Tree} {a : α} (h : f t = .ok a) :
    (read f) t = (.ok a, t) := by
  rw [read, h]

theorem step_ok {f : Tree → Except Halt (α × Tree)} {t t' : Tree} {a : α} (h : f t = .ok (a, t')) :
    (step f) t = (.ok a, t') := by
  rw [step, h]

theorem replace_ok {old new : NodeId} {t t' : Tree} (h : t.replace old new = .ok t') :
    (replace old new) t = (.ok (), t') := by
  refine step_ok ?_
  rw [h]
  rfl

end Edit

/-! ### Folding -/

/-- The result of an operator on two integers. -/
def foldInts (op : BinaryOp) (a b : Int32) : Option Kind :=
  match op with
  | .add => some (.intLit (a + b))
  | .sub => some (.intLit (a - b))
  | .mul => some (.intLit (a * b))
  | .div => if b = 0 then none else some (.intLit (a / b))
  | .lt => some (.boolLit (a < b))
  | _ => none

/-- The result of an operator on two truth values. -/
def foldBools (op : BinaryOp) (a b : Bool) : Option Kind :=
  match op with
  | .and => some (.boolLit (a && b))
  | .or => some (.boolLit (a || b))
  | _ => none

/-- The node at an id, seen through at most `fuel` parentheses, is the condition of a loop. -/
def isLoopConditionWithin (t : Tree) : Nat → NodeId → Except Halt Bool
  | 0, _ => breakOff .endlessWalk
  | fuel + 1, id => do
    match ← t.parent id with
    | none => return false
    | some parent =>
      match ← t.kind parent with
      | .paren => isLoopConditionWithin t fuel parent
      | .whileStmt => return (← t.children parent).head? = some id
      | _ => return false

/-- The node at an id, seen through parentheses, is the condition of a loop. -/
def isLoopCondition (t : Tree) (id : NodeId) : Except Halt Bool :=
  isLoopConditionWithin t t.stepLimit id

/-- The kind of the `index`-th child of the node at an id. -/
def childKind (t : Tree) (id : NodeId) (index : Nat) : Except Halt Kind := do
  t.kind (← t.child id index)

/-- The literal that the node at an id can be replaced by. -/
def foldable? (t : Tree) (id : NodeId) : Except Halt (Option Kind) := do
  match ← t.kind id with
  | .binary op =>
    let lhs ← childKind t id 0
    let rhs ← childKind t id 1
    match lhs, rhs with
    | .intLit a, .intLit b =>
      if op = .lt then
        if ← isLoopCondition t id then return none else return foldInts op a b
      else return foldInts op a b
    | .boolLit a, .boolLit b => return foldBools op a b
    | _, _ => return none
  | .unary .not =>
    match ← childKind t id 0 with
    | .boolLit b => return some (.boolLit !b)
    | _ => return none
  | .paren =>
    let inner ← childKind t id 0
    return if inner.isLiteral then some inner else none
  | _ => return none

/-- Folds the node at an id if that is possible, and returns how many nodes were folded. -/
def foldNode (id : NodeId) : Edit Nat := do
  match ← Edit.read fun t => foldable? t id with
  | none => return 0
  | some literal =>
    let position ← Edit.read fun t => t.position id
    let new ← Edit.step fun t => return t.add literal position
    Edit.replace id new
    return 1

/-- Folds the whole tree, every node after the nodes below it, and returns how many were folded. -/
def foldConstants : Edit Nat := do
  let ids ← Edit.read fun t => t.descendants t.root
  ids.reverse.foldlM (fun count id => return count + (← foldNode id)) 0

/-! ### Propagation -/

mutual

/-- The variables assigned in a subtree. -/
def assigned : Shape → Except Halt (List String)
  | .node _ kind _ children => do
    let below ← assignedInAll children
    match kind with
    | .assign target => return target :: below
    | _ => return below
  | .broken _ fault => breakOff fault
termination_by structural s => s

/-- The variables assigned in some subtrees. -/
def assignedInAll : Shapes → Except Halt (List String)
  | [] => return []
  | s :: rest => return (← assigned (s ())) ++ (← assignedInAll rest)
termination_by structural shapes => shapes

end

mutual

/-- The variables assigned in a conditional or a loop of a subtree. -/
def branchAssigned : Shape → Except Halt (List String)
  | .node _ kind _ children =>
    match kind with
    | .ifStmt | .whileStmt => assignedInAll children
    | _ => branchAssignedInAll children
  | .broken _ fault => breakOff fault
termination_by structural s => s

/-- The variables assigned in a conditional or a loop of some subtrees. -/
def branchAssignedInAll : Shapes → Except Halt (List String)
  | [] => return []
  | s :: rest => return (← branchAssigned (s ())) ++ (← branchAssignedInAll rest)
termination_by structural shapes => shapes

end

/-- The variables of a method that may become known. -/
structure Tracking where
  declared : Std.TreeSet String
  branchAssigned : Std.TreeSet String

/-- The variable may become known. -/
def Tracking.propagates (tr : Tracking) (name : String) : Bool :=
  tr.declared.contains name && !tr.branchAssigned.contains name

/-- The variables of a method that declares and assigns the given ones. -/
def Tracking.ofNames (declared branchAssigned : List String) : Tracking :=
  ⟨.ofList declared, .ofList branchAssigned⟩

@[simp]
theorem Tracking.propagates_ofNames (declared branchAssigned : List String) (name : String) :
    (ofNames declared branchAssigned).propagates name
      = (declared.contains name && !branchAssigned.contains name) := by
  simp [ofNames, propagates]

/-- What is known at a place of a method. -/
structure Facts where
  /-- The node of the literal that each known variable holds. -/
  constants : Bindings NodeId
  /-- The number of reads replaced so far. -/
  replaced : Nat

namespace Facts

/-- Nothing is known. -/
def none : Facts := ⟨.none, 0⟩

/-- A variable is not known any more. -/
def forget (facts : Facts) (name : String) : Facts :=
  { facts with constants := facts.constants.unbind name }

/-- A variable holds a literal. -/
def learn (facts : Facts) (name : String) (literal : NodeId) : Facts :=
  { facts with constants := facts.constants.put name literal }

/-- The literal a variable holds. -/
def literal? (facts : Facts) (name : String) : Option NodeId := facts.constants.get? name

@[simp]
theorem literal?_forget (facts : Facts) (name other : String) :
    (facts.forget name).literal? other
      = if other = name then Option.none else facts.literal? other :=
  Bindings.get?_unbind ..

@[simp]
theorem literal?_learn (facts : Facts) (name other : String) (literal : NodeId) :
    (facts.learn name literal).literal? other
      = if other = name then some literal else facts.literal? other :=
  Bindings.get?_put ..

end Facts

/-- Replaces the node at an id by the literal it is known to hold, if it is a read of a known
variable, and returns how many reads were replaced. -/
def substituteNode (facts : Facts) (id : NodeId) : Edit Nat := do
  match ← Edit.read fun t => t.kind id with
  | .varRef name =>
    match facts.literal? name with
    | some literal =>
      let copy ← Edit.step fun t => t.deepCopy literal
      Edit.replace id copy
      return 1
    | none => return 0
  | _ => return 0

/-- Replaces the reads of known variables in the expression at an id. -/
def substitute (facts : Facts) (id : NodeId) : Edit Facts := do
  let ids ← Edit.read fun t => t.descendants id
  let count ← ids.foldlM (fun count id => return count + (← substituteNode facts id)) 0
  return { facts with replaced := facts.replaced + count }

/-- Goes through the statement at an id, to a depth of `fuel` statements. -/
def propagateStmt (tr : Tracking) : Nat → NodeId → Facts → Edit Facts
  | 0, _, _ => Edit.read fun _ => breakOff .endlessWalk
  | fuel + 1, id, facts => do
    let node ← Edit.read fun t => t.node id
    match node.kind with
    | .assign target =>
      let facts ← substitute facts (← Edit.read fun t => t.child id 0)
      let value ← Edit.read fun t => t.child id 0
      let kind ← Edit.read fun t => t.kind value
      if tr.propagates target && kind.isLiteral then return facts.learn target value
      else return facts.forget target
    | .ifStmt | .whileStmt =>
      match node.children with
      | cond :: branches =>
        let facts ← substitute facts cond
        branches.foldlM (fun facts branch => propagateStmt tr fuel branch facts) facts
      | [] => return facts
    | .block => node.children.foldlM (fun facts s => propagateStmt tr fuel s facts) facts
    | .arrayAssign _ | .returnStmt | .exprStmt => node.children.foldlM substitute facts
    | _ => return facts

/-- The statements among some ids. -/
def statementsOf (t : Tree) : List NodeId → Except Halt (List NodeId)
  | [] => return []
  | id :: rest => do
    let kind ← t.kind id
    let others ← statementsOf t rest
    return if kind.isStatement then id :: others else others

/-- Goes through the method at an id, and returns how many reads were replaced. -/
def propagateMethod (signature : Signature) (id : NodeId) : Edit Nat := do
  let inBranches ← Edit.read fun t => branchAssigned (t.shape id)
  let tr := Tracking.ofNames ((signature.params ++ signature.locals).map (·.name)) inBranches
  let body ← Edit.read fun t => do statementsOf t (← t.children id)
  let fuel ← Edit.read fun t => return t.stepLimit
  let facts ← body.foldlM (fun facts s => propagateStmt tr fuel s facts) Facts.none
  return facts.replaced

/-- The methods among the members of a class. -/
def methodsOf : Shapes → Except Halt (List (NodeId × String))
  | [] => return []
  | s :: rest =>
    match s () with
    | .broken _ fault => breakOff fault
    | .node id (.methodDecl name _ _) _ _ => return (id, name) :: (← methodsOf rest)
    | .node .. => methodsOf rest

/-- Goes through methods in order, `index` of which came before, and returns how many reads were
replaced. -/
def propagateMethods (table : SymbolTable) : Nat → List (NodeId × String) → Edit Nat
  | _, [] => return 0
  | index, (id, name) :: rest => do
    let signature ← Edit.read fun _ => table.declared index name
    let count ← propagateMethod signature id
    return count + (← propagateMethods table (index + 1) rest)

/-- Goes through every method of the first class, and returns how many reads were replaced. -/
def propagateConstants (table : SymbolTable) : Edit Nat := do
  let methods ← Edit.read fun t => do
    let (_, _, members) ← Shape.firstClass (← (t.shape t.root).children)
    methodsOf members
  propagateMethods table 0 methods

/-! ### Rounds -/

/-- What a run of the optimizer did. -/
structure Stats where
  /-- Rounds, the last one that changes nothing included. -/
  rounds : Nat
  propagated : Nat
  folded : Nat
  deriving DecidableEq, Inhabited

/-- The run changed the tree. -/
def Stats.changed (s : Stats) : Bool := 0 < s.propagated + s.folded

/-- At most `fuel` rounds after what `stats` counts. -/
def optimizeWithin (table : SymbolTable) : Nat → Stats → Edit Stats
  | 0, _ => Edit.read fun _ => breakOff .endlessWalk
  | fuel + 1, stats => do
    let propagated ← propagateConstants table
    let folded ← foldConstants
    let stats : Stats := ⟨stats.rounds + 1, stats.propagated + propagated, stats.folded + folded⟩
    if propagated = 0 ∧ folded = 0 then return stats else optimizeWithin table fuel stats

/-- Optimizes the tree of a unit with the given symbol table. -/
def optimize (table : SymbolTable) : Edit Stats := do
  let fuel ← Edit.read fun t => return t.stepLimit
  optimizeWithin table fuel ⟨0, 0, 0⟩

end Classlet.Optimize
