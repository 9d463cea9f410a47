import Classlet.Analysis.Pass
import Classlet.Proofs.Symbols.Declarations
import Classlet.Proofs.Syntax.Inside

/-!
# Walks of a pass

What walks are made of.  Much can be said of a sequence of checks by saying it of each of them
(`Check.Stepwise`), such as that it comes to an end or that it finds nothing.  A walk visits a node
and walks its children (`walk_node`); children that are no methods are walked in the scope of the
node (`walkChildren_append`).
-/

namespace Classlet

open Subtree

/-! ### Sequences of checks -/

namespace Check

/-- The check comes to an end. -/
def Ends (c : Check Unit) : Prop := c.result = .ok ()

/-- The check comes to an end and finds nothing. -/
def Clean (c : Check Unit) : Prop := c = pure ()

/-- What holds of a sequence of checks if it holds of each of them. -/
structure Stepwise (P : Check Unit → Prop) : Prop where
  pure : P (Pure.pure ())
  bind_iff : ∀ (c : Check Unit) (d : Check Unit), P (c >>= fun _ => d) ↔ P c ∧ P d

theorem stepwise_ends : Stepwise Ends where
  pure := rfl
  bind_iff := by
    rintro ⟨found, _ | ⟨⟩⟩ d
    · simp [Ends, bind_error]
    · simp [Ends, bind_ok]

theorem stepwise_clean : Stepwise Clean where
  pure := rfl
  bind_iff := by
    rintro ⟨found, _ | ⟨⟩⟩ ⟨more, result⟩
    · simp [Clean, bind_error, Pure.pure]
    · simp [Clean, bind_ok, Pure.pure, and_assoc]

theorem lift_ok_bind {α β : Type} (a : α) (f : α → Check β) : lift (.ok a) >>= f = f a := rfl

end Check

/-- The kind of a method. -/
def Kind.isMethod : Kind → Bool
  | .methodDecl _ _ _ => true
  | _ => false

/-- A part with no method inside. -/
def Part.isFlat : Part → Bool
  | .method _ | .classDecl _ | .program _ => false
  | _ => true

theorem Part.isMethod_kind_of_isFlat {part : Part} (h : part.isFlat = true) :
    part.kind.isMethod = false := by
  cases part with
  | expr e => cases e <;> rfl
  | stmt s => cases s <;> rfl
  | method => cases h
  | _ => rfl

theorem Part.isFlat_of_mem {part inner : Part} (h : part.isFlat = true) (hi : inner ∈ part.parts) :
    inner.isFlat = true := by
  cases part with
  | expr e =>
    obtain ⟨a, -, rfl⟩ := List.mem_map.mp hi
    rfl
  | stmt s =>
    cases s with
    | block body =>
      obtain ⟨a, -, rfl⟩ := List.mem_map.mp hi
      rfl
    | ret value =>
      obtain ⟨a, -, rfl⟩ := List.mem_map.mp hi
      rfl
    | _ =>
      simp only [Part.parts, Stmt.parts, List.mem_cons, List.not_mem_nil, or_false] at hi
      rcases hi with rfl | rfl | rfl <;> rfl
  | param | varDecl =>
    cases List.mem_singleton.mp hi
    rfl
  | type | importDecl => cases hi
  | method | classDecl | program => cases h

theorem MethodDecl.isFlat_of_mem_parts {m : MethodDecl} {part : Part} (h : part ∈ m.parts) :
    part.isFlat = true := by
  simp only [MethodDecl.parts, List.mem_append, List.mem_map] at h
  rcases h with ((⟨_, -, rfl⟩ | ⟨_, -, rfl⟩) | ⟨_, -, rfl⟩) | ⟨_, -, rfl⟩ <;> rfl

namespace Pass

variable {pass : Pass} {t : Tree} {scope : Scope}

/-! ### Steps of a walk -/

theorem walk_node (i : NodeId) (k : Kind) (p : Position) (cs : List Subtree) :
    pass.walk t scope (node i k p cs).toShape = (pass.visit t scope (node i k p cs).toShape
      >>= fun _ => pass.walkChildren t scope 0 (cs.map fun c _ => c.toShape)) := by
  rw [toShape_node, walk]

theorem walkChildren_cons {c : Subtree} (hc : c.kind.isMethod = false) (index : Nat)
    (rest : Shapes) : pass.walkChildren t scope index ((fun _ => c.toShape) :: rest)
      = (pass.walk t scope c.toShape >>= fun _ => pass.walkChildren t scope index rest) := by
  obtain ⟨i, k, p, cs⟩ := c
  rw [walkChildren, toShape_node]
  cases k with
  | methodDecl => cases hc
  | _ => exact Check.lift_ok_bind _ _

theorem walkChildren_append {cs : List Subtree} (hcs : ∀ c ∈ cs, c.kind.isMethod = false)
    (index : Nat) (rest : List Subtree) :
    pass.walkChildren t scope index ((cs ++ rest).map fun c _ => c.toShape)
      = (pass.walkChildren t scope index (cs.map fun c _ => c.toShape)
        >>= fun _ => pass.walkChildren t scope index (rest.map fun c _ => c.toShape)) := by
  induction cs with
  | nil => rfl
  | cons c cs ih =>
    rw [List.forall_mem_cons] at hcs
    rw [List.cons_append, List.map_cons, List.map_cons, walkChildren_cons hcs.1,
      walkChildren_cons hcs.1, ih hcs.2, bind_assoc]

end Pass

end Classlet
