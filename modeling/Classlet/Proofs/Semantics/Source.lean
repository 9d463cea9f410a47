import Classlet.Lowering.Basic
import Classlet.Proofs.Semantics.World
import Classlet.Syntax.Program

/-!
# Meaning of statements and expressions

Expressions are evaluated from left to right, both operands of `&&` and `||` included.  Evaluation
may change the world but never the store, which holds the receiver, the parameters and the local
variables, one cell for each name.  A name stands for a parameter, else for a local variable, else
for a field of the receiver.

What the world is told about a call on an object is a *convention*: under `Convention.plain` it
learns the name of the method and gets the receiver and the arguments as they are.

Statements are executed within a number of rounds that bounds every loop: `BodyEnds` says that some
number suffices.  `MethodEnds` adds the return that a method which returns nothing may leave out.
-/

namespace Classlet.Semantics

open Classlet.Lowering (Context)

/-- A value for every name. -/
abbrev Store (R : Type) := String → Value R

/-- Gives a name a value. -/
def Store.set {R : Type} (σ : Store R) (name : String) (v : Value R) : Store R := fun other =>
  if other = name then v else σ other

@[simp]
theorem Store.set_apply {R : Type} (σ : Store R) (name other : String) (v : Value R) :
    σ.set name v other = if other = name then v else σ other := rfl

/-- An expression without the parentheses around it. -/
def unparen : Expr → Expr
  | .paren inner => unparen inner
  | e => e

/-- The import that a receiver names, if it names one and no variable. -/
def importName? (cx : Context) (e : Expr) : Option String :=
  match unparen e with
  | .var name =>
    if name != thisName && (cx.resolve name).isNone && cx.table.isImported name then some name
    else none
  | _ => none

/-- How calls on objects are passed on to the world. -/
structure Convention where
  /-- What a call of a method on a receiver stands for. -/
  action : (receiver : Expr) → (method : String) → Action
  /-- The number of arguments that are passed one by one where the others go into an array. -/
  packFrom? : (receiver : Expr) → (method : String) → (args : List Expr) → Option Nat

/-- The world learns the name of the method and gets the arguments one by one. -/
def Convention.plain : Convention where
  action _ method := .call method
  packFrom? _ _ _ := none

/-- Everything around a running method but its store. -/
structure Setting (R W : Type) where
  context : Context
  convention : Convention
  world : World R W

variable {R W : Type} [DecidableEq R]

/-! ### Expressions -/

/-- Stores values into an array one after the other, from index `i` on. -/
def storeFrom (world : World R W) (array : Value R) : Nat → List (Value R) → Eval W Unit
  | _, [] => pure ()
  | i, v :: rest => do
    let _ ← world.perform .arrayStore [array, .word (Int32.ofNat i), v]
    storeFrom world array (i + 1) rest

/-- A new array holding the given values. -/
def newArrayOf (world : World R W) (values : List (Value R)) : Eval W (Value R) := do
  let array ← world.perform .newArray [.word (Int32.ofNat values.length)]
  storeFrom world array 0 values
  return array

/-- The arguments of a call, those from place `k` on in an array if the convention says so. -/
def passed (world : World R W) (values : List (Value R)) : Option Nat → Eval W (List (Value R))
  | none => return values
  | some k => do
    let array ← newArrayOf world (values.drop k)
    return values.take k ++ [array]

/-- The value of a name. -/
def evalName (s : Setting R W) (σ : Store R) (name : String) : Eval W (Value R) :=
  match s.context.resolve name with
  | some (.field, _) => s.world.perform (.getField name) [σ thisName]
  | some _ => return σ name
  | none => if name = thisName then return σ thisName else .trap

mutual

/-- The value of an expression. -/
def eval (s : Setting R W) (σ : Store R) : Expr → Eval W (Value R)
  | .int n => return .word n
  | .bool b => return .ofBool b
  | .var name => evalName s σ name
  | .binary op lhs rhs => do
    let a ← eval s σ lhs
    let b ← eval s σ rhs
    .ofOption (applyBinary op a b)
  | .unary op operand => do
    let a ← eval s σ operand
    .ofOption (applyUnary op a)
  | .call receiver method args =>
    match importName? s.context receiver with
    | some className => do
      let values ← evalAll s σ args
      s.world.perform (.callStatic className method) values
    | none => do
      let object ← eval s σ receiver
      let values ← evalAll s σ args
      let values ← passed s.world values (s.convention.packFrom? receiver method args)
      s.world.perform (s.convention.action receiver method) (object :: values)
  | .field object name => do
    let a ← eval s σ object
    s.world.perform (.getField name) [a]
  | .index array position => do
    let a ← eval s σ array
    let i ← eval s σ position
    s.world.perform .arrayLoad [a, i]
  | .length array => do
    let a ← eval s σ array
    s.world.perform .arrayLength [a]
  | .newArray size => do
    let n ← eval s σ size
    s.world.perform .newArray [n]
  | .arrayLit elements => do
    let values ← evalAll s σ elements
    newArrayOf s.world values
  | .newObject className => do
    let object ← s.world.perform (.newObject className) []
    let _ ← s.world.perform (.construct className "<init>") [object]
    return object
  | .this => return σ thisName
  | .paren inner => eval s σ inner

/-- The values of expressions, from left to right. -/
def evalAll (s : Setting R W) (σ : Store R) : List Expr → Eval W (List (Value R))
  | [] => return []
  | e :: rest => do
    let v ← eval s σ e
    let values ← evalAll s σ rest
    return v :: values

end

@[simp]
theorem eval_paren (s : Setting R W) (σ : Store R) (e : Expr) :
    eval s σ (.paren e) = eval s σ e := by
  rw [eval]

/-! ### Statements -/

/-- How far the execution of a statement got. -/
inductive Progress (R W : Type) where
  /-- It is done, and what follows it is next. -/
  | done (store : Store R) (world : W)
  /-- The method has ended. -/
  | stopped (outcome : Outcome R) (world : W)
  /-- A loop takes more rounds than are allowed. -/
  | unfinished

namespace Progress

/-- Goes on with what follows. -/
def andThen (p : Progress R W) (next : Store R → W → Progress R W) : Progress R W :=
  match p with
  | done σ w => next σ w
  | stopped o w => stopped o w
  | unfinished => unfinished

/-- Goes on with the value of a computation; a trap ends the method. -/
def after {α : Type} (x : Eval W α) (w : W) (next : α → W → Progress R W) : Progress R W :=
  match x w with
  | (some a, w') => next a w'
  | (none, w') => stopped .trapped w'

/-- How the method ends if nothing follows, where reaching the end counts as `atEnd`. -/
def outcome? (atEnd : Outcome R) : Progress R W → Option (Outcome R × W)
  | done _ w => some (atEnd, w)
  | stopped o w => some (o, w)
  | unfinished => none

end Progress

/-- Assigns a value to a name. -/
def assignName (s : Setting R W) (σ : Store R) (name : String) (v : Value R) (w : W) :
    Progress R W :=
  match s.context.resolve name with
  | some (.field, _) =>
    .after (s.world.perform (.putField name) [σ thisName, v]) w fun _ w => .done σ w
  | some _ => .done (σ.set name v) w
  | none => .stopped .trapped w

/-- At most so many rounds of a loop. -/
def repeatWhile (cond : Store R → Eval W (Value R)) (body : Store R → W → Progress R W) :
    Nat → Store R → W → Progress R W
  | 0, _, _ => .unfinished
  | n + 1, σ, w =>
    .after (cond σ) w fun v w =>
      if v.isTrue then (body σ w).andThen (repeatWhile cond body n) else .done σ w

mutual

/-- Executes a statement, every loop of it for at most `n` rounds. -/
def exec (s : Setting R W) (n : Nat) : Stmt → Store R → W → Progress R W
  | .assign target value, σ, w => .after (eval s σ value) w (assignName s σ target)
  | .arrayAssign target index value, σ, w =>
    .after (do
      let a ← evalName s σ target
      let i ← eval s σ index
      let v ← eval s σ value
      s.world.perform .arrayStore [a, i, v]) w fun _ w => .done σ w
  | .ret none, _, w => .stopped (.returned none) w
  | .ret (some value), σ, w =>
    .after (eval s σ value) w fun v w => .stopped (.returned (some v)) w
  | .ifThen cond body, σ, w =>
    .after (eval s σ cond) w fun v w => if v.isTrue then exec s n body σ w else .done σ w
  | .ifElse cond body otherwise, σ, w =>
    .after (eval s σ cond) w fun v w =>
      if v.isTrue then exec s n body σ w else exec s n otherwise σ w
  | .whileDo cond body, σ, w => repeatWhile (fun σ => eval s σ cond) (exec s n body) n σ w
  | .block body, σ, w => execAll s n body σ w
  | .expr value, σ, w => .after (eval s σ value) w fun _ w => .done σ w

/-- Executes statements one after the other. -/
def execAll (s : Setting R W) (n : Nat) : List Stmt → Store R → W → Progress R W
  | [], σ, w => .done σ w
  | stmt :: rest, σ, w => (exec s n stmt σ w).andThen (execAll s n rest)

end

@[simp]
theorem exec_block (s : Setting R W) (n : Nat) (body : List Stmt) :
    exec s n (.block body) = execAll s n body := by
  funext σ w
  rw [exec]

/-- The statements of a body end with an outcome and leave the world in a state. -/
def BodyEnds (s : Setting R W) (body : List Stmt) (σ : Store R) (w : W) (o : Outcome R) (w' : W) :
    Prop :=
  ∃ n, (execAll s n body σ w).outcome? .completed = some (o, w')

/-- The outcome of a method that reaches its end: one that returns nothing returns there. -/
def Setting.outcomeAtEnd (s : Setting R W) : Outcome R :=
  if (Ir.ValueType.ofTy s.context.signature.returnType).isVoid then .returned none else .completed

/-- A method with the given statements ends with an outcome and leaves the world in a state. -/
def MethodEnds (s : Setting R W) (body : List Stmt) (σ : Store R) (w : W) (o : Outcome R) (w' : W) :
    Prop :=
  ∃ n, (execAll s n body σ w).outcome? s.outcomeAtEnd = some (o, w')

end Classlet.Semantics
