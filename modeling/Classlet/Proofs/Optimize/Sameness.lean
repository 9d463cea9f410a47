import Classlet.Proofs.Semantics.Source
import Classlet.Proofs.Syntax.Reading

/-!
# Expressions and statements of the same meaning

Two expressions are the same in a store if they have the same value there, and name the same import
where they are receivers.  An expression whose parts are exchanged for the same stays the same
(`evalSame_of_parts`).  Two statements are the same if every execution of one takes the course of
the other, within the same number of rounds; a sequence of statements depends on its members by
their meaning only (`execAll_eq_of_same`).

Calls are passed on as they are, so the world cannot tell receivers and arguments apart that have
the same values.
-/

namespace Classlet

open Lowering (Context)
open Semantics

/-- Everything around a method whose calls are passed on as they are. -/
def Semantics.Setting.plain {R W : Type} (cx : Context) (world : World R W) : Setting R W :=
  ⟨cx, .plain, world⟩

variable {R W : Type} [DecidableEq R] {cx : Context} {world : World R W} {σ : Store R}

/-- The expressions have the same value and name the same import. -/
def EvalSame (cx : Context) (world : World R W) (σ : Store R) (e e' : Expr) : Prop :=
  importName? cx e' = importName? cx e ∧
    eval (Setting.plain cx world) σ e' = eval (Setting.plain cx world) σ e

theorem EvalSame.refl (cx : Context) (world : World R W) (σ : Store R) (e : Expr) :
    EvalSame cx world σ e e := ⟨rfl, rfl⟩

theorem EvalSame.trans {e₁ e₂ e₃ : Expr} (h : EvalSame cx world σ e₁ e₂)
    (h' : EvalSame cx world σ e₂ e₃) : EvalSame cx world σ e₁ e₃ :=
  ⟨h'.1.trans h.1, h'.2.trans h.2⟩

theorem evalAll_eq_of_same {es es' : List Expr} (h : List.Forall₂ (EvalSame cx world σ) es es') :
    evalAll (Setting.plain cx world) σ es' = evalAll (Setting.plain cx world) σ es := by
  induction h with
  | nil => rfl
  | cons he _ ih => rw [evalAll, evalAll, he.2, ih]

theorem importName?_paren (cx : Context) (e : Expr) :
    importName? cx (.paren e) = importName? cx e := by
  unfold importName?
  rw [unparen]

/-- **An expression depends on its parts by their values and imports only.** -/
theorem evalSame_of_parts {e e' : Expr} (hk : e'.kind = e.kind)
    (hp : List.Forall₂ (EvalSame cx world σ) e.parts e'.parts) : EvalSame cx world σ e e' := by
  cases e <;> cases e' <;> cases hk <;>
    simp only [Expr.parts, List.forall₂_cons, List.forall₂_nil_left_iff, and_true] at hp
  case int | bool | var | newObject | this => exact .refl ..
  case binary => exact ⟨rfl, by rw [eval, eval, hp.1.2, hp.2.2]⟩
  case unary | field | length | newArray => exact ⟨rfl, by rw [eval, eval, hp.2]⟩
  case call =>
    refine ⟨rfl, ?_⟩
    rw [eval, eval, hp.1.2, evalAll_eq_of_same hp.2]
    simp only [Setting.plain, hp.1.1]
    rfl
  case index => exact ⟨rfl, by rw [eval, eval, hp.1.2, hp.2.2]⟩
  case arrayLit => exact ⟨rfl, by rw [eval, eval, evalAll_eq_of_same hp]⟩
  case paren =>
    exact ⟨by rw [importName?_paren, importName?_paren, hp.1],
      by rw [eval_paren, eval_paren, hp.2]⟩

/-- The statements take the same course from every store. -/
def ExecSame (cx : Context) (world : World R W) (s s' : Stmt) : Prop :=
  ∀ n σ w, exec (Setting.plain cx world) n s' σ w = exec (Setting.plain cx world) n s σ w

theorem execAll_eq_of_same {ss ss' : List Stmt} (h : List.Forall₂ (ExecSame cx world) ss ss')
    (n : Nat) (σ : Store R) (w : W) :
    execAll (Setting.plain cx world) n ss' σ w = execAll (Setting.plain cx world) n ss σ w := by
  have hfun : execAll (Setting.plain cx world) n ss' = execAll (Setting.plain cx world) n ss := by
    induction h with
    | nil => rfl
    | cons hs _ ih =>
      funext σ w
      rw [execAll, execAll, hs n σ w, ih]
  rw [hfun]

end Classlet
