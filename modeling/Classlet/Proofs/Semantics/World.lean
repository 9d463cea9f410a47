import Classlet.Syntax.Operator

/-!
# Values and worlds

What a running method works on: 32-bit words and references.  Fields, arrays, objects and calls
belong to a *world* that is not looked into.  An action of the world takes a list of values, may
change the world, and gives a value or is not possible, in which case the method traps.

Arithmetic wraps around at 32 bits and a division by zero traps.  Truth values are the words 0 and
1; every other value also counts as true where a condition is tested.
-/

namespace Classlet.Semantics

/-- A value: a word, or a reference to something in the world. -/
inductive Value (R : Type) where
  | word (n : Int32)
  | ref (r : R)
  deriving DecidableEq, Inhabited

namespace Value

variable {R : Type}

/-- The word of a truth value. -/
def ofBool (b : Bool) : Value R := word (if b then 1 else 0)

/-- Everything but the word 0 counts as true. -/
def isTrue : Value R → Bool
  | word n => n != 0
  | ref _ => true

@[simp]
theorem isTrue_ofBool (b : Bool) : (ofBool b : Value R).isTrue = b := by
  cases b <;> rfl

end Value

/-- How the run of a method ends. -/
inductive Outcome (R : Type) where
  | returned (value : Option (Value R))
  /-- A division by zero, a wrong operand, or an action the world does not allow. -/
  | trapped
  /-- The end of the method is reached without a return. -/
  | completed
  deriving DecidableEq

/-! ### Computations -/

/-- A computation that may change the world and may trap. -/
abbrev Eval (W : Type) := OptionT (StateM W)

namespace Eval

variable {W α β : Type}

/-- Traps. -/
def trap : Eval W α := fun w => (none, w)

/-- The given value, or a trap if there is none. -/
def ofOption : Option α → Eval W α
  | some a => pure a
  | none => trap

theorem pure_apply (a : α) (w : W) : (pure a : Eval W α) w = (some a, w) := rfl

theorem bind_apply (x : Eval W α) (f : α → Eval W β) (w : W) :
    (x >>= f) w = match x w with
      | (some a, w') => f a w'
      | (none, w') => (none, w') := by
  have h : (x >>= f) w = (match (x w).1 with
      | some a => f a
      | none => trap) (x w).2 := by
    rfl
  rw [h]
  rcases x w with ⟨_ | a, w'⟩ <;> rfl

theorem bind_some {x : Eval W α} {f : α → Eval W β} {w w' : W} {a : α} (h : x w = (some a, w')) :
    (x >>= f) w = f a w' := by
  rw [bind_apply, h]

theorem bind_none {x : Eval W α} {f : α → Eval W β} {w w' : W} (h : x w = (none, w')) :
    (x >>= f) w = (none, w') := by
  rw [bind_apply, h]

end Eval

/-! ### Worlds -/

/-- An operation that is up to the world. -/
inductive Action where
  | getField (field : String)
  | putField (field : String)
  | newObject (className : String)
  | construct (className method : String)
  | callStatic (className method : String)
  | callVirtual (className method : String)
  /-- A call on an object, whatever its class. -/
  | call (method : String)
  | newArray
  | arrayLength
  | arrayLoad
  | arrayStore
  deriving DecidableEq

/-- What every action does to a world with references in `R` and states in `W`. -/
abbrev World (R W : Type) := Action → List (Value R) → W → Option (Value R × W)

/-- Performs an action. -/
def World.perform {R W : Type} (world : World R W) (a : Action) (operands : List (Value R)) :
    Eval W (Value R) := fun w =>
  match world a operands w with
  | some (v, w') => (some v, w')
  | none => (none, w)

/-! ### Operators -/

section Operators

variable {R : Type}

/-- The operators that are defined on words only. -/
def onWords (op : BinaryOp) (a b : Int32) : Option (Value R) :=
  match op with
  | .add => some (.word (a + b))
  | .sub => some (.word (a - b))
  | .mul => some (.word (a * b))
  | .div => if b = 0 then none else some (.word (a / b))
  | .lt => some (.ofBool (a < b))
  | .gt => some (.ofBool (b < a))
  | .le => some (.ofBool (a ≤ b))
  | .ge => some (.ofBool (b ≤ a))
  | .eq | .ne | .and | .or => none

/-- A binary operator on values.  Both operands of `&&` and `||` are there already. -/
def applyBinary [DecidableEq R] (op : BinaryOp) (a b : Value R) : Option (Value R) :=
  match op with
  | .eq => some (.ofBool (a = b))
  | .ne => some (.ofBool (a ≠ b))
  | .and => some (.ofBool (a.isTrue && b.isTrue))
  | .or => some (.ofBool (a.isTrue || b.isTrue))
  | op =>
    match a, b with
    | .word m, .word n => onWords op m n
    | _, _ => none

/-- A unary operator on values. -/
def applyUnary (op : UnaryOp) (a : Value R) : Option (Value R) :=
  match op, a with
  | .not, a => some (.ofBool !a.isTrue)
  | .neg, .word n => some (.word (-n))
  | .neg, .ref _ => none

end Operators

end Classlet.Semantics
