import Classlet.Proofs.Optimize.Reads

/-!
# Constant bodies

A straight line assigns to variables one after the other and then returns a value.  Where its
expressions can be evaluated without running the program, because they are made of literals and of
variables that the line has assigned before, nothing of them is left in the normal form: it assigns
and returns the literals of the values (`StraightLine.normalizeAll_body`).  An assigned variable is
known to hold the literal of the value that evaluation has for it (`Knowledge.Matches`), from one
assignment to the next.

* `MethodDecl.normalize_straightLine`: the normal form of a method whose body is such a line.
-/

namespace Classlet

open Optimize

/-! ### Constants -/

/-- A value that a literal is written for. -/
inductive Constant where
  | int (value : Int32)
  | bool (value : Bool)
  deriving DecidableEq

namespace Constant

/-- The literal of the value. -/
def literal : Constant → Expr
  | int n => .int n
  | bool b => .bool b

/-- The result of a binary operator, where it has one.  Arithmetic wraps around at 32 bits. -/
def binary : BinaryOp → Constant → Constant → Option Constant
  | .add, int a, int b => some (int (a + b))
  | .sub, int a, int b => some (int (a - b))
  | .mul, int a, int b => some (int (a * b))
  | .div, int a, int b => if b = 0 then none else some (int (a / b))
  | .lt, int a, int b => some (bool (a < b))
  | .and, bool a, bool b => some (bool (a && b))
  | .or, bool a, bool b => some (bool (a || b))
  | _, _, _ => none

/-- The negation of a truth value. -/
def not : Constant → Option Constant
  | bool b => some (bool !b)
  | int _ => none

@[simp]
theorem isLiteral_literal (v : Constant) : v.literal.isLiteral = true := by cases v <;> rfl

theorem collapse_binary {op : BinaryOp} {a b v : Constant} (h : binary op a b = some v) :
    (Expr.binary op a.literal b.literal).collapse false = v.literal := by
  cases a with
  | int a =>
    cases b with
    | int b =>
      cases op with
      | add | sub | mul | lt => cases h; rfl
      | div =>
        simp only [binary] at h
        split at h
        · cases h
        · next hb =>
          cases h
          simp [Expr.collapse, Expr.kind, Expr.parts, literal, collapse?, foldInts, hb,
            Expr.ofLiteral?]
      | _ => cases h
    | bool b => cases op <;> cases h
  | bool a =>
    cases b with
    | int b => cases op <;> cases h
    | bool b => cases op <;> cases h <;> rfl

theorem collapse_not {a v : Constant} (h : a.not = some v) :
    (Expr.unary .not a.literal).collapse false = v.literal := by
  cases a <;> cases h
  rfl

theorem collapse_paren (v : Constant) : (Expr.paren v.literal).collapse false = v.literal := by
  cases v <;> rfl

end Constant

/-- The value of an expression in which the given variables hold constants.  All operands are
evaluated; an expression has no value where an operand has none or one of the wrong kind, a divisor
is zero, or something else is read or done than reading a variable and computing with
`+ - * / < && || !`. -/
def Expr.evaluate (env : String → Option Constant) : Expr → Option Constant
  | .int n => some (.int n)
  | .bool b => some (.bool b)
  | .var x => env x
  | .binary op lhs rhs => do Constant.binary op (← lhs.evaluate env) (← rhs.evaluate env)
  | .unary .not operand => do (← operand.evaluate env).not
  | .paren inner => inner.evaluate env
  | _ => none

/-- Every variable that holds a constant is known to be its literal. -/
def Knowledge.Matches (F : Knowledge) (env : String → Option Constant) : Prop :=
  ∀ x v, env x = some v → F x = some v.literal

namespace Knowledge.Matches

variable {F : Knowledge} {env : String → Option Constant}

theorem set (h : F.Matches env) (x : String) (v : Constant) :
    (F.set x (some v.literal)).Matches (Function.update env x (some v)) := by
  intro y w hy
  rw [Function.update_apply] at hy
  rw [Knowledge.set]
  split at hy
  · next hxy =>
    cases hy
    rw [if_pos hxy]
  · next hxy => rw [if_neg hxy, h y w hy]

/-- **An expression that has a value is simplified to its literal.** -/
theorem simplify_substitute (h : F.Matches env) {e : Expr} {v : Constant}
    (hv : e.evaluate env = some v) : (e.substitute F).simplify false = v.literal := by
  induction e generalizing v with
  | int | bool =>
    cases hv
    rfl
  | var x =>
    rw [Expr.substitute, h x v hv, Option.getD_some,
      Expr.simplify_of_isLiteral v.isLiteral_literal]
  | binary op l r ihl ihr =>
    obtain ⟨a, ha, hv⟩ := Option.bind_eq_some_iff.mp hv
    obtain ⟨b, hb, hv⟩ := Option.bind_eq_some_iff.mp hv
    rw [Expr.substitute, Expr.simplify, ihl ha, ihr hb, Constant.collapse_binary hv]
  | unary op e ih =>
    cases op with
    | not =>
      obtain ⟨a, ha, hv⟩ := Option.bind_eq_some_iff.mp hv
      rw [Expr.substitute, Expr.simplify, ih ha, Constant.collapse_not hv]
    | neg => cases hv
  | paren e ih => rw [Expr.substitute, Expr.simplify, ih hv, Constant.collapse_paren]
  | _ => cases hv

end Knowledge.Matches

/-! ### Straight lines -/

/-- Assignments to variables one after the other, and what is returned then. -/
structure StraightLine (α : Type) where
  assigns : List (String × α)
  result : α
  deriving DecidableEq

namespace StraightLine

/-- The line with other values for the same variables. -/
def map {α β : Type} (f : α → β) (line : StraightLine α) : StraightLine β :=
  ⟨line.assigns.map fun a => (a.1, f a.2), f line.result⟩

/-- The variables in the order in which they are assigned. -/
def targets {α : Type} (line : StraightLine α) : List String := line.assigns.map (·.1)

/-- The statements of the line. -/
def body (line : StraightLine Expr) : List Stmt :=
  line.assigns.map (fun a => .assign a.1 a.2) ++ [.ret (some line.result)]

/-- The values of the result and of the assigned expressions, each in the place of its
expression. -/
def evaluateFrom (env : String → Option Constant) (result : Expr) :
    List (String × Expr) → Option (StraightLine Constant)
  | [] => do return ⟨[], ← result.evaluate env⟩
  | (x, e) :: rest => do
    let v ← e.evaluate env
    let line ← evaluateFrom (Function.update env x (some v)) result rest
    return ⟨(x, v) :: line.assigns, line.result⟩

/-- The values of a line that can read no variable before it has assigned it. -/
def evaluate (line : StraightLine Expr) : Option (StraightLine Constant) :=
  evaluateFrom (fun _ => none) line.result line.assigns

theorem targets_evaluateFrom {env : String → Option Constant} {result : Expr}
    {assigns : List (String × Expr)} {values : StraightLine Constant}
    (h : evaluateFrom env result assigns = some values) :
    values.targets = assigns.map (·.1) := by
  induction assigns generalizing env values with
  | nil =>
    obtain ⟨v, -, h⟩ := Option.bind_eq_some_iff.mp h
    cases h
    rfl
  | cons a assigns ih =>
    obtain ⟨v, -, h⟩ := Option.bind_eq_some_iff.mp h
    obtain ⟨line, hline, h⟩ := Option.bind_eq_some_iff.mp h
    cases h
    exact congrArg (a.1 :: ·) (ih hline)

/-- **Every expression of a line that has values becomes the literal of its value**, where all
assigned variables may become known. -/
theorem normalizeAll_body {P : String → Bool} {F : Knowledge} {env : String → Option Constant}
    {line : StraightLine Expr} {values : StraightLine Constant}
    (hP : ∀ a ∈ line.assigns, P a.1 = true) (hF : F.Matches env)
    (h : evaluateFrom env line.result line.assigns = some values) :
    (Stmt.normalizeAll P line.body F).1 = (values.map Constant.literal).body := by
  obtain ⟨assigns, result⟩ := line
  induction assigns generalizing F env values with
  | nil =>
    obtain ⟨v, hv, h⟩ := Option.bind_eq_some_iff.mp h
    cases h
    simp [body, map, Stmt.normalizeAll, Stmt.normalize, hF.simplify_substitute hv]
  | cons a assigns ih =>
    rw [List.forall_mem_cons] at hP
    obtain ⟨v, hv, h⟩ := Option.bind_eq_some_iff.mp h
    obtain ⟨line, hline, h⟩ := Option.bind_eq_some_iff.mp h
    cases h
    have hrest := ih (hF.set a.1 v) hP.2 hline
    simp only [body, map, List.map_cons, List.cons_append, Stmt.normalizeAll, Stmt.normalize,
      hF.simplify_substitute hv, hP.1, Constant.isLiteral_literal, Bool.and_self,
      if_true] at hrest ⊢
    rw [hrest]

end StraightLine

/-- **The normal form of a straight line of constants** assigns and returns their literals. -/
theorem MethodDecl.normalize_straightLine {m : MethodDecl} {line : StraightLine Expr}
    {values : StraightLine Constant} (hbody : m.body = line.body)
    (hdeclared : line.targets ⊆ (m.params ++ m.locals).map (·.1))
    (h : line.evaluate = some values) :
    m.normalize (.ofDecl m) = { m with body := (values.map Constant.literal).body } := by
  have hbranch : Stmt.branchAssignedInAll m.body = [] := by
    rw [List.eq_nil_iff_forall_not_mem]
    intro x hx
    obtain ⟨s, hs, hx⟩ := Stmt.mem_branchAssignedInAll.mp hx
    rw [hbody, StraightLine.body, List.mem_append, List.mem_map, List.mem_singleton] at hs
    rcases hs with ⟨a, -, rfl⟩ | rfl <;> cases hx
  have hP : ∀ a ∈ line.assigns, (tracking (.ofDecl m) m.body).propagates a.1 = true := by
    intro a ha
    rw [propagates_ofDecl, hbranch, List.contains_iff_mem.mpr (hdeclared (List.mem_map_of_mem ha))]
    rfl
  have hnone : Knowledge.Matches (fun _ => none) fun _ => none := fun _ _ hx => by cases hx
  have hnormal := StraightLine.normalizeAll_body hP hnone h
  rw [← hbody] at hnormal
  rw [normalize, hnormal]

end Classlet
