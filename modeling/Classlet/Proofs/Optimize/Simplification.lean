import Classlet.Optimize
import Classlet.Proofs.Optimize.Sameness

/-!
# Simplification

Constant folding as a function on syntax.  First the parts of an expression are simplified; then an
operation on literals collapses to its result, and so do parentheses around a literal.  A comparison
that is the condition of a loop, seen through parentheses, stays as it is.

* `Expr.simplify_eq`: a simplified expression is the expression of the simplified parts, collapsed.
* `evalSame_simplify`, `execSame_simplify`: simplified expressions and statements mean the same.
-/

namespace Classlet

open Lowering (Context)
open Optimize Semantics

namespace Optimize

/-- The literal that a node of a kind collapses to, where its children have the given kinds. -/
def collapse? (inCondition : Bool) : Kind → List Kind → Option Kind
  | .binary op, [.intLit a, .intLit b] =>
    if op = .lt ∧ inCondition = true then none else foldInts op a b
  | .binary op, [.boolLit a, .boolLit b] => foldBools op a b
  | .unary .not, [.boolLit b] => some (.boolLit !b)
  | .paren, [inner] => if inner.isLiteral then some inner else none
  | _, _ => none

/-- The child of a node in a slot is the condition of a loop, seen through parentheses, if the node
itself is one or not. -/
def conditionSlot (kind : Kind) (inCondition : Bool) (slot : Nat) : Bool :=
  match kind with
  | .paren => inCondition
  | .whileStmt => slot == 0
  | _ => false

end Optimize

namespace Expr

/-- The literal of a kind. -/
def ofLiteral? : Kind → Option Expr
  | .intLit n => some (.int n)
  | .boolLit b => some (.bool b)
  | _ => none

/-- The literal that an expression collapses to, or else the expression. -/
def collapse (inCondition : Bool) (e : Expr) : Expr :=
  ((collapse? inCondition e.kind (e.parts.map kind)).bind ofLiteral?).getD e

mutual

/-- The simplified expression. -/
def simplify (inCondition : Bool) : Expr → Expr
  | .int n => .int n
  | .bool b => .bool b
  | .var name => .var name
  | .binary op lhs rhs => (binary op (lhs.simplify false) (rhs.simplify false)).collapse inCondition
  | .unary op operand => (unary op (operand.simplify false)).collapse inCondition
  | .call receiver method args => .call (receiver.simplify false) method (simplifyAll args)
  | .field object name => .field (object.simplify false) name
  | .index array position => .index (array.simplify false) (position.simplify false)
  | .length array => .length (array.simplify false)
  | .newArray size => .newArray (size.simplify false)
  | .arrayLit elements => .arrayLit (simplifyAll elements)
  | .newObject className => .newObject className
  | .this => .this
  | .paren inner => (paren (inner.simplify inCondition)).collapse inCondition

/-- The simplified expressions. -/
def simplifyAll : List Expr → List Expr
  | [] => []
  | e :: rest => e.simplify false :: simplifyAll rest

end

theorem simplifyAll_eq (es : List Expr) : simplifyAll es = es.map (simplify false) := by
  induction es with
  | nil => rfl
  | cons e es ih => rw [simplifyAll, ih, List.map_cons]

end Expr

mutual

/-- The statement with simplified expressions. -/
def Stmt.simplify : Stmt → Stmt
  | .assign target value => .assign target (value.simplify false)
  | .arrayAssign target index value =>
    .arrayAssign target (index.simplify false) (value.simplify false)
  | .ret value => .ret (value.map (Expr.simplify false))
  | .ifThen cond body => .ifThen (cond.simplify false) body.simplify
  | .ifElse cond body otherwise => .ifElse (cond.simplify false) body.simplify otherwise.simplify
  | .whileDo cond body => .whileDo (cond.simplify true) body.simplify
  | .block body => .block (simplifyAll body)
  | .expr value => .expr (value.simplify false)

/-- The statements with simplified expressions. -/
def Stmt.simplifyAll : List Stmt → List Stmt
  | [] => []
  | s :: rest => s.simplify :: simplifyAll rest

end

theorem Stmt.simplifyAll_eq (ss : List Stmt) : simplifyAll ss = ss.map simplify := by
  induction ss with
  | nil => rfl
  | cons s ss ih => rw [simplifyAll, ih, List.map_cons]

/-- The method with simplified expressions. -/
def MethodDecl.simplify (m : MethodDecl) : MethodDecl := { m with body := m.body.map Stmt.simplify }

/-- The class with simplified expressions. -/
def ClassDecl.simplify (c : ClassDecl) : ClassDecl :=
  { c with methods := c.methods.map MethodDecl.simplify }

/-- The program with simplified expressions. -/
def Program.simplify (p : Program) : Program :=
  { p with classes := p.classes.map ClassDecl.simplify }

/-! ### Collapsing -/

namespace Optimize

theorem collapse?_cases {inCondition : Bool} {k l : Kind} {ks : List Kind}
    (h : collapse? inCondition k ks = some l) :
    (∃ op a b, k = .binary op ∧ ks = [.intLit a, .intLit b] ∧ foldInts op a b = some l) ∨
    (∃ op a b, k = .binary op ∧ ks = [.boolLit a, .boolLit b] ∧ foldBools op a b = some l) ∨
    (∃ b, k = .unary .not ∧ ks = [.boolLit b] ∧ l = .boolLit !b) ∨
    (k = .paren ∧ ks = [l] ∧ l.isLiteral = true) := by
  unfold collapse? at h
  split at h
  · next op a b =>
    split at h
    · cases h
    · exact .inl ⟨op, a, b, rfl, rfl, h⟩
  · next op a b => exact .inr (.inl ⟨op, a, b, rfl, rfl, h⟩)
  · next b =>
    cases h
    exact .inr (.inr (.inl ⟨b, rfl, rfl, rfl⟩))
  · next inner =>
    split at h
    · next hl =>
      cases h
      exact .inr (.inr (.inr ⟨rfl, rfl, hl⟩))
    · cases h
  · cases h

/-- Operations and parentheses, the nodes that may collapse. -/
def isCompound : Kind → Bool
  | .binary _ | .unary _ | .paren => true
  | _ => false

/-- Integers fold to an integer under an arithmetic operator, else to a truth value. -/
theorem foldInts_cases {op : BinaryOp} {a b : Int32} {l : Kind} (h : foldInts op a b = some l) :
    (op.isArithmetic = true ∧ ∃ n, l = .intLit n) ∨
      (op.isArithmetic = false ∧ ∃ c, l = .boolLit c) := by
  cases op with
  | div =>
    rw [foldInts, Option.ite_none_left_eq_some] at h
    cases h.2
    exact .inl ⟨rfl, _, rfl⟩
  | add | sub | mul =>
    cases h
    exact .inl ⟨rfl, _, rfl⟩
  | lt =>
    cases h
    exact .inr ⟨rfl, _, rfl⟩
  | _ => cases h

theorem foldBools_cases {op : BinaryOp} {a b : Bool} {l : Kind} (h : foldBools op a b = some l) :
    op.isArithmetic = false ∧ ∃ c, l = .boolLit c := by
  cases op with
  | and | or =>
    cases h
    exact ⟨rfl, _, rfl⟩
  | _ => cases h

theorem isLiteral_of_foldInts {op : BinaryOp} {a b : Int32} {l : Kind}
    (h : foldInts op a b = some l) : l.isLiteral = true := by
  rcases foldInts_cases h with ⟨-, n, rfl⟩ | ⟨-, c, rfl⟩ <;> rfl

theorem isLiteral_of_foldBools {op : BinaryOp} {a b : Bool} {l : Kind}
    (h : foldBools op a b = some l) : l.isLiteral = true := by
  obtain ⟨-, c, rfl⟩ := foldBools_cases h
  rfl

/-- Only operations and parentheses collapse, only over literals, and only to literals. -/
theorem collapse?_spec {inCondition : Bool} {k l : Kind} {ks : List Kind}
    (h : collapse? inCondition k ks = some l) :
    isCompound k = true ∧ (∀ k' ∈ ks, k'.isLiteral = true) ∧ l.isLiteral = true := by
  rcases collapse?_cases h with ⟨op, a, b, rfl, rfl, hl⟩ | ⟨op, a, b, rfl, rfl, hl⟩ |
    ⟨b, rfl, rfl, rfl⟩ | ⟨rfl, rfl, hl⟩
  · exact ⟨rfl, by simp [Kind.isLiteral], isLiteral_of_foldInts hl⟩
  · exact ⟨rfl, by simp [Kind.isLiteral], isLiteral_of_foldBools hl⟩
  · exact ⟨rfl, by simp [Kind.isLiteral], rfl⟩
  · exact ⟨rfl, by simp [hl], hl⟩

theorem collapse?_eq_none {inCondition : Bool} {k : Kind} (hk : isCompound k = false)
    (ks : List Kind) : collapse? inCondition k ks = none := by
  cases h : collapse? inCondition k ks with
  | none => rfl
  | some l => rw [(collapse?_spec h).1] at hk; cases hk

end Optimize

namespace Expr

theorem ofLiteral?_isSome {k : Kind} (h : k.isLiteral = true) :
    ∃ e : Expr, ofLiteral? k = some e ∧ e.kind = k ∧ e.parts = [] := by
  cases k with
  | intLit n => exact ⟨.int n, rfl, rfl, rfl⟩
  | boolLit b => exact ⟨.bool b, rfl, rfl, rfl⟩
  | _ => cases h

theorem collapse_cases (inCondition : Bool) (e : Expr) :
    (collapse? inCondition e.kind (e.parts.map kind) = none ∧ e.collapse inCondition = e) ∨
    ∃ l, collapse? inCondition e.kind (e.parts.map kind) = some l ∧ l.isLiteral = true ∧
      (e.collapse inCondition).kind = l ∧ (e.collapse inCondition).parts = [] := by
  unfold collapse
  cases h : collapse? inCondition e.kind (e.parts.map kind) with
  | none => exact .inl ⟨rfl, rfl⟩
  | some l =>
    have hl := (collapse?_spec h).2.2
    obtain ⟨e', he', hk, hp⟩ := ofLiteral?_isSome hl
    refine .inr ⟨l, rfl, hl, ?_⟩
    rw [Option.bind_some, he', Option.getD_some]
    exact ⟨hk, hp⟩

theorem collapse_of_not_compound {e : Expr} (inCondition : Bool) (h : isCompound e.kind = false) :
    e.collapse inCondition = e := by
  rw [collapse, collapse?_eq_none h]
  rfl

/-- **A simplified expression is that of the simplified parts, collapsed.** -/
theorem simplify_eq (inCondition : Bool) (e : Expr) :
    ∃ e₁ : Expr, e.simplify inCondition = e₁.collapse inCondition ∧ e₁.kind = e.kind ∧
      e₁.parts = e.parts.map (simplify (conditionSlot e.kind inCondition 0)) := by
  cases e with
  | binary op l r => exact ⟨_, rfl, rfl, rfl⟩
  | unary op e => exact ⟨_, rfl, rfl, rfl⟩
  | paren e => exact ⟨_, rfl, rfl, rfl⟩
  | call r m args =>
    refine ⟨.call (r.simplify false) m (simplifyAll args), ?_, rfl, ?_⟩
    · rw [simplify, collapse_of_not_compound _ rfl]
    · rw [simplifyAll_eq]; rfl
  | arrayLit es =>
    refine ⟨.arrayLit (simplifyAll es), ?_, rfl, ?_⟩
    · rw [simplify, collapse_of_not_compound _ rfl]
    · exact simplifyAll_eq es
  | _ => exact ⟨_, (collapse_of_not_compound inCondition rfl).symm, rfl, rfl⟩

theorem eq_int_of_kind {e : Expr} {n : Int32} (h : e.kind = .intLit n) : e = .int n := by
  cases e <;> cases h
  rfl

theorem eq_bool_of_kind {e : Expr} {b : Bool} (h : e.kind = .boolLit b) : e = .bool b := by
  cases e <;> cases h
  rfl

end Expr

/-! ### Meaning -/

section Meaning

variable {R W : Type} [DecidableEq R] {cx : Context} {world : World R W} {σ : Store R}

theorem eval_ints (s : Setting R W) (σ : Store R) (op : BinaryOp) (a b : Int32) :
    eval s σ (.binary op (.int a) (.int b)) = .ofOption (applyBinary op (.word a) (.word b)) := by
  rw [eval, eval, eval, pure_bind, pure_bind]

theorem eval_bools (s : Setting R W) (σ : Store R) (op : BinaryOp) (a b : Bool) :
    eval s σ (.binary op (.bool a) (.bool b))
      = .ofOption (applyBinary op (.ofBool a) (.ofBool b)) := by
  rw [eval, eval, eval, pure_bind, pure_bind]

theorem evalSame_foldInts {op : BinaryOp} {a b : Int32} {e : Expr}
    (h : foldInts op a b = some e.kind) :
    EvalSame cx world σ (.binary op (.int a) (.int b)) e := by
  cases op with
  | div =>
    rw [foldInts, Option.ite_none_left_eq_some] at h
    obtain ⟨hb, hn⟩ := h
    obtain rfl := Expr.eq_int_of_kind (Option.some.inj hn).symm
    refine ⟨rfl, ?_⟩
    rw [eval_ints, applyBinary, onWords, if_neg hb, eval]
    · rfl
    all_goals rintro ⟨⟩
  | lt =>
    obtain rfl := Expr.eq_bool_of_kind (Option.some.inj h).symm
    exact ⟨rfl, (eval_ints _ _ .lt a b).symm⟩
  | add =>
    obtain rfl := Expr.eq_int_of_kind (Option.some.inj h).symm
    exact ⟨rfl, (eval_ints _ _ .add a b).symm⟩
  | sub =>
    obtain rfl := Expr.eq_int_of_kind (Option.some.inj h).symm
    exact ⟨rfl, (eval_ints _ _ .sub a b).symm⟩
  | mul =>
    obtain rfl := Expr.eq_int_of_kind (Option.some.inj h).symm
    exact ⟨rfl, (eval_ints _ _ .mul a b).symm⟩
  | _ => cases h

theorem evalSame_foldBools {op : BinaryOp} {a b : Bool} {e : Expr}
    (h : foldBools op a b = some e.kind) :
    EvalSame cx world σ (.binary op (.bool a) (.bool b)) e := by
  cases op with
  | and | or =>
    obtain rfl := Expr.eq_bool_of_kind (Option.some.inj h).symm
    refine ⟨rfl, ?_⟩
    rw [eval_bools, applyBinary, Value.isTrue_ofBool, Value.isTrue_ofBool, eval]
    rfl
  | _ => cases h

/-- **Collapsing keeps the value.** -/
theorem evalSame_collapse (inCondition : Bool) (e : Expr) :
    EvalSame cx world σ e (e.collapse inCondition) := by
  rcases e.collapse_cases inCondition with ⟨-, he⟩ | ⟨l, hl, -, hk, -⟩
  · rw [he]
    exact .refl ..
  generalize e.collapse inCondition = e' at hk
  subst hk
  rcases collapse?_cases hl with ⟨op, a, b, hk, hks, hf⟩ | ⟨op, a, b, hk, hks, hf⟩ |
    ⟨b, hk, hks, hf⟩ | ⟨hk, hks, -⟩
  all_goals
    cases e <;> cases hk
    simp only [Expr.parts, List.map_cons, List.map_nil, List.cons.injEq, and_true] at hks
  · rw [Expr.eq_int_of_kind hks.1, Expr.eq_int_of_kind hks.2]
    exact evalSame_foldInts hf
  · rw [Expr.eq_bool_of_kind hks.1, Expr.eq_bool_of_kind hks.2]
    exact evalSame_foldBools hf
  · rw [Expr.eq_bool_of_kind hks, Expr.eq_bool_of_kind hf]
    refine ⟨rfl, ?_⟩
    rw [eval, eval, eval, pure_bind, applyUnary, Value.isTrue_ofBool]
    rfl
  · next inner =>
    -- a literal is its own kind
    have hinner : inner = e' := by
      rcases collapse?_spec hl with ⟨-, -, hlit⟩
      cases e' with
      | int n => exact Expr.eq_int_of_kind hks
      | bool b => exact Expr.eq_bool_of_kind hks
      | _ => cases hlit
    rw [hinner]
    exact ⟨(importName?_paren cx e').symm, (eval_paren _ σ e').symm⟩

/-- **A simplified expression is the same.** -/
theorem evalSame_simplify (inCondition : Bool) (e : Expr) :
    EvalSame cx world σ e (e.simplify inCondition) := by
  induction e using Expr.ind_parts generalizing inCondition with
  | h e ih =>
    obtain ⟨e₁, he, hk, hp⟩ := e.simplify_eq inCondition
    have hparts : EvalSame cx world σ e e₁ := by
      refine evalSame_of_parts hk ?_
      rw [hp, List.forall₂_map_right_iff]
      exact List.forall₂_same.mpr fun a ha => ih a ha _
    rw [he]
    exact hparts.trans (evalSame_collapse inCondition e₁)

/-- **A simplified statement is the same.** -/
theorem execSame_simplify (s : Stmt) : ExecSame cx world s s.simplify := by
  have heval : ∀ (inCondition : Bool) (e : Expr) (σ : Store R),
      eval (Setting.plain cx world) σ (e.simplify inCondition)
        = eval (Setting.plain cx world) σ e :=
    fun inCondition e _ => (evalSame_simplify inCondition e).2
  induction s using Stmt.ind with
  | assign x e => intro n σ w; rw [Stmt.simplify, exec, exec, heval]
  | arrayAssign x i e => intro n σ w; rw [Stmt.simplify, exec, exec, heval, heval]
  | ret e =>
    intro n σ w
    cases e with
    | none => rfl
    | some e => rw [Stmt.simplify, Option.map_some, exec, exec, heval]
  | expr e => intro n σ w; rw [Stmt.simplify, exec, exec, heval]
  | ifThen c b ih =>
    intro n σ w
    rw [Stmt.simplify, exec, exec, heval]
    simp only [ih n]
  | ifElse c b o ihb iho =>
    intro n σ w
    rw [Stmt.simplify, exec, exec, heval]
    simp only [ihb n, iho n]
  | whileDo c b ih =>
    intro n σ w
    have hbody : exec (Setting.plain cx world) n b.simplify = exec (Setting.plain cx world) n b :=
      funext fun σ => funext fun w => ih n σ w
    rw [Stmt.simplify, exec, exec, hbody]
    simp only [heval]
  | block body ih =>
    intro n σ w
    rw [Stmt.simplify, exec_block, exec_block, Stmt.simplifyAll_eq]
    refine execAll_eq_of_same ?_ n σ w
    rw [List.forall₂_map_right_iff]
    exact List.forall₂_same.mpr ih

end Meaning

end Classlet
