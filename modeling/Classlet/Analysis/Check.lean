import Classlet.Report
import Classlet.Syntax.Shape

/-!
# Checks

A check looks at part of a tree, finds errors, and either comes to an end or halts.  What it found
before a halt is kept beside it, so that whoever runs the check can decide what becomes of it.
-/

namespace Classlet

/-- An error that a check found in the program. -/
structure Finding where
  position : Position
  message : String
  deriving DecidableEq, Inhabited

/-- The report of a finding. -/
def Finding.report (f : Finding) : Report := .error .semantic f.position f.message

/-- A computation that finds errors and may halt. -/
structure Check (α : Type) where
  findings : List Finding
  result : Except Halt α

namespace Check

/-- Continues with the result of `c`, keeping its findings in front. -/
def bind {α β : Type} (c : Check α) (f : α → Check β) : Check β :=
  match c.result with
  | .ok a =>
    let d := f a
    ⟨c.findings ++ d.findings, d.result⟩
  | .error h => ⟨c.findings, .error h⟩

instance : Monad Check where
  pure a := ⟨[], .ok a⟩
  bind := bind

@[simp]
theorem findings_pure {α : Type} (a : α) : (pure a : Check α).findings = [] := rfl

@[simp]
theorem result_pure {α : Type} (a : α) : (pure a : Check α).result = .ok a := rfl

theorem bind_def {α β : Type} (c : Check α) (f : α → Check β) : c >>= f = c.bind f := rfl

/-- After a result, the findings of both parts are kept in order. -/
theorem bind_ok {α β : Type} (found : List Finding) (a : α) (f : α → Check β) :
    (⟨found, .ok a⟩ : Check α) >>= f = ⟨found ++ (f a).findings, (f a).result⟩ := rfl

theorem bind_error {α β : Type} (found : List Finding) (h : Halt) (f : α → Check β) :
    (⟨found, .error h⟩ : Check α) >>= f = ⟨found, .error h⟩ := rfl

instance : LawfulMonad Check := LawfulMonad.mk' Check
  (fun c => by
    rcases c with ⟨found, _ | a⟩
    · rfl
    · exact congrArg (Check.mk · (.ok a)) (List.append_nil found))
  (fun _ _ => rfl)
  (fun c f g => by
    rcases c with ⟨found, _ | a⟩
    · rfl
    · rcases h : f a with ⟨more, _ | b⟩ <;> simp [bind_ok, bind_error, h])

/-- A computation that finds nothing. -/
def lift {α : Type} (x : Except Halt α) : Check α := ⟨[], x⟩

/-- Halts. -/
def halt {α : Type} (h : Halt) : Check α := ⟨[], .error h⟩

/-- Finds one error at a position. -/
def errorAt (position : Position) (message : String) : Check Unit := ⟨[⟨position, message⟩], .ok ()⟩

/-- Finds one error at the topmost node of a shape. -/
def error (s : Shape) (message : String) : Check Unit :=
  match s with
  | .node _ _ position _ => errorAt position message
  | .broken _ fault => halt (.fault fault)

/-- Finds several errors at the topmost node of a shape. -/
def errors (s : Shape) : List String → Check Unit
  | [] => pure ()
  | message :: rest => do
    error s message
    errors s rest

end Check

end Classlet
