import Classlet.Proofs.Optimize.NormalForm
import Classlet.Proofs.Syntax.Parentheses

/-!
# Parentheses and the normal form

Parentheses delay when the optimizer sees a literal, but not what it ends with: the normal form of
the bare class is the bare normal form of the class (`ClassDecl.normalize_bare`).  What carries this
is that simplifying leaves no parentheses around a literal, so an operand of a simplified expression
is a literal exactly if it is one without parentheses.
-/

namespace Classlet

open Optimize

/-! ### Expressions -/

namespace Expr

theorem bare_of_isLiteral {e : Expr} (h : e.isLiteral = true) : e.bare = e := by
  cases e with
  | int | bool => rfl
  | _ => cases h

theorem eq_paren_of_kind {e : Expr} (h : e.kind = .paren) : ∃ inner, e = .paren inner := by
  cases e <;> cases h
  exact ⟨_, rfl⟩

theorem bare_substitute {F : Knowledge} (hF : F.Literals) (e : Expr) :
    (e.substitute F).bare = e.bare.substitute F := by
  induction e using Expr.ind_parts with
  | h e ih =>
    by_cases hvar : ∃ x, e = .var x
    · obtain ⟨x, rfl⟩ := hvar
      cases hx : F x with
      | none => simp [substitute, bare, hx]
      | some l => simp [substitute, bare, hx, bare_of_isLiteral (hF x l hx)]
    by_cases hparen : ∃ inner, e = .paren inner
    · obtain ⟨inner, rfl⟩ := hparen
      rw [substitute, bare, bare]
      exact ih inner (by simp [parts])
    have he : ∀ x, e ≠ .var x := fun x hx => hvar ⟨x, hx⟩
    have he' : ∀ inner, e ≠ .paren inner := fun inner hi => hparen ⟨inner, hi⟩
    obtain ⟨hkF, hpF⟩ := substitute_of_parts F he
    obtain ⟨hkB, hpB⟩ := bare_of_parts he'
    have hne : ∀ inner, e.substitute F ≠ .paren inner := by
      intro inner hi
      rw [hi] at hkF
      exact hparen (eq_paren_of_kind hkF.symm)
    have hne' : ∀ x, e.bare ≠ .var x := by
      intro x hx
      rw [hx] at hkB
      exact he x (eq_var_of_kind hkB.symm)
    obtain ⟨hk, hp⟩ := bare_of_parts hne
    obtain ⟨hk', hp'⟩ := substitute_of_parts F hne'
    refine ext_parts (by rw [hk, hkF, hk', hkB]) ?_
    rw [hp, hpF, hp', hpB, List.map_map, List.map_map]
    exact List.map_congr_left ih

theorem collapse_paren (e : Expr) (inCondition : Bool) :
    (paren e).collapse inCondition = if e.isLiteral then e else paren e := by
  cases e <;> rfl

/-- **Simplifying leaves no parentheses around a literal.** -/
theorem isLiteral_simplify_of_bare {e : Expr} {inCondition : Bool}
    (h : (e.simplify inCondition).bare.isLiteral = true) :
    (e.simplify inCondition).isLiteral = true := by
  induction e using Expr.ind_parts generalizing inCondition with
  | h e ih =>
    by_cases hparen : ∃ inner, e = .paren inner
    · obtain ⟨inner, rfl⟩ := hparen
      rw [simplify, collapse_paren] at h ⊢
      split
      · assumption
      · next hno =>
        rw [if_neg hno, bare] at h
        exact absurd (ih inner (by simp [parts]) h) hno
    · obtain ⟨e₁, h₁, hk₁, -⟩ := simplify_eq inCondition e
      have hne : ∀ inner, e₁ ≠ .paren inner := by
        rintro inner rfl
        exact hparen (eq_paren_of_kind hk₁.symm)
      rw [h₁] at h ⊢
      rcases collapse_cases inCondition e₁ with ⟨-, hstays⟩ | ⟨l, -, hlit, hk, -⟩
      · rw [hstays] at h ⊢
        rwa [← isLiteral_kind, (bare_of_parts hne).1, isLiteral_kind] at h
      · rw [← isLiteral_kind, hk, hlit]

/-- An operation collapses with or without the parentheses inside, if none are around a literal. -/
theorem bare_collapse {e : Expr} (he : ∀ inner, e ≠ .paren inner) (inCondition : Bool)
    (hparts : ∀ a ∈ e.parts, a.bare.isLiteral = true → a.isLiteral = true) :
    (e.collapse inCondition).bare = e.bare.collapse inCondition := by
  obtain ⟨hk, hp⟩ := bare_of_parts he
  by_cases hall : ∀ a ∈ e.parts, a.isLiteral = true
  · have hsame : e.bare = e := by
      refine ext_parts hk (hp.trans ?_)
      exact (List.map_congr_left fun a ha => bare_of_isLiteral (hall a ha)).trans (List.map_id' _)
    rw [hsame]
    rcases collapse_cases inCondition e with ⟨-, hstays⟩ | ⟨l, -, hlit, hkind, -⟩
    · rw [hstays, hsame]
    · exact bare_of_isLiteral (by rw [← isLiteral_kind, hkind, hlit])
  · -- an operand is no literal, so neither collapses
    have hstays : ∀ {e' : Expr}, (∃ a ∈ e'.parts, a.isLiteral ≠ true) →
        e'.collapse inCondition = e' := by
      rintro e' ⟨a, ha, hno⟩
      rcases collapse_cases inCondition e' with ⟨-, hstays⟩ | ⟨l, hl, -⟩
      · exact hstays
      · rw [← isLiteral_kind] at hno
        exact absurd ((collapse?_spec hl).2.1 _ (List.mem_map_of_mem ha)) hno
    push Not at hall
    obtain ⟨a, ha, hno⟩ := hall
    rw [hstays ⟨a, ha, hno⟩, hstays]
    exact ⟨a.bare, hp ▸ List.mem_map_of_mem ha, fun hlit => hno (hparts a ha hlit)⟩

/-- **Simplifying and taking away parentheses can be done in any order.** -/
theorem bare_simplify (e : Expr) (inCondition : Bool) :
    (e.simplify inCondition).bare = e.bare.simplify inCondition := by
  induction e using Expr.ind_parts generalizing inCondition with
  | h e ih =>
    by_cases hparen : ∃ inner, e = .paren inner
    · obtain ⟨inner, rfl⟩ := hparen
      have hinner := ih inner (by simp [parts]) inCondition
      rw [simplify, collapse_paren, bare, ← hinner]
      split
      · rfl
      · rw [bare]
    · have he : ∀ inner, e ≠ .paren inner := fun inner hi => hparen ⟨inner, hi⟩
      obtain ⟨hk, hp⟩ := bare_of_parts he
      obtain ⟨e₁, h₁, hk₁, hp₁⟩ := simplify_eq inCondition e
      obtain ⟨e₂, h₂, hk₂, hp₂⟩ := simplify_eq inCondition e.bare
      have hne : ∀ inner, e₁ ≠ .paren inner := by
        rintro inner rfl
        exact hparen (eq_paren_of_kind hk₁.symm)
      obtain ⟨hkB, hpB⟩ := bare_of_parts hne
      have hsame : e₂ = e₁.bare := by
        refine ext_parts (by rw [hk₂, hk, hkB, hk₁]) ?_
        rw [hp₂, hp, hpB, hp₁, hk, List.map_map, List.map_map]
        exact List.map_congr_left fun a ha => (ih a ha _).symm
      rw [h₁, h₂, hsame]
      refine bare_collapse hne inCondition fun a ha hlit => ?_
      rw [hp₁] at ha
      obtain ⟨a, -, rfl⟩ := List.mem_map.mp ha
      exact isLiteral_simplify_of_bare hlit

theorem bare_normal {F : Knowledge} (hF : F.Literals) (e : Expr) (inCondition : Bool) :
    (e.bare.substitute F).simplify inCondition = ((e.substitute F).simplify inCondition).bare := by
  rw [← bare_substitute hF, bare_simplify]

end Expr

/-! ### Statements -/

namespace Stmt

variable {P : String → Bool} {F : Knowledge}

theorem assignAlike_bare (s : Stmt) : AssignAlike s s.bare := by
  refine assignAlike_map kind_bare (fun s => ?_) s
  cases s <;> simp [bare, bareAll_eq, inner]

/-- The normal form of the bare statement is the bare normal form, and as much is known after it. -/
def NormalizesBare (P : String → Bool) (s : Stmt) : Prop :=
  ∀ ⦃F : Knowledge⦄, F.Literals →
    s.bare.normalize P F = ((s.normalize P F).1.bare, (s.normalize P F).2)

theorem normalizeAll_bare {ss : List Stmt} (hss : ∀ s ∈ ss, NormalizesBare P s) (hF : F.Literals) :
    normalizeAll P (ss.map bare) F
      = ((normalizeAll P ss F).1.map bare, (normalizeAll P ss F).2) := by
  induction ss generalizing F with
  | nil => rfl
  | cons s ss ih =>
    rw [List.forall_mem_cons] at hss
    simp only [List.map_cons, normalizeAll, hss.1 hF, ih hss.2 (literals_normalize P s hF)]

theorem normalizesBare (P : String → Bool) (s : Stmt) : NormalizesBare P s := by
  induction s using Stmt.ind with
  | assign x e =>
    intro F hF
    simp only [bare, normalize, Expr.bare_normal hF]
    -- the value is a literal with or without parentheses, and then there are none
    cases hlit : ((e.substitute F).simplify false).isLiteral with
    | true => rw [Expr.bare_of_isLiteral hlit, hlit]
    | false =>
      have hno : ((e.substitute F).simplify false).bare.isLiteral = false := by
        by_contra hyes
        rw [Bool.not_eq_false] at hyes
        rw [Expr.isLiteral_simplify_of_bare hyes] at hlit
        cases hlit
      rw [hno]
      simp
  | arrayAssign | expr =>
    intro F hF
    simp only [bare, normalize, Expr.bare_normal hF]
  | ret value =>
    intro F hF
    simp only [bare, normalize, Option.map_map, Function.comp_def, Expr.bare_normal hF]
  | ifThen c b ih | whileDo c b ih =>
    intro F hF
    simp only [bare, normalize, Expr.bare_normal hF, ih hF]
  | ifElse c b o ihb iho =>
    intro F hF
    simp only [bare, normalize, Expr.bare_normal hF, ihb hF, iho (literals_normalize P b hF)]
  | block body ih =>
    intro F hF
    simp only [bare, bareAll_eq, normalize, normalizeAll_bare ih hF]

end Stmt

/-! ### Methods and classes -/

theorem MethodDecl.normalize_bare (s : Signature) (m : MethodDecl) :
    m.bare.normalize s = (m.normalize s).bare := by
  have hnone : Knowledge.Literals fun _ => none := fun _ _ h => by cases h
  have htracking : tracking s m.bare.body = tracking s m.body :=
    tracking_congr (List.forall₂_map_right_iff.mpr (List.forall₂_same.mpr
      fun stmt _ => stmt.assignAlike_bare)) s
  have hbody := Stmt.normalizeAll_bare (P := (tracking s m.body).propagates)
    (fun stmt (_ : stmt ∈ m.body) => stmt.normalizesBare _) hnone
  rw [normalize, htracking]
  exact congrArg (fun body => { m with body }) (congrArg Prod.fst hbody)

/-- **The normal form of the bare class is the bare normal form of the class.** -/
theorem ClassDecl.normalize_bare (signatures : List Signature) (c : ClassDecl) :
    c.bare.normalize signatures = (c.normalize signatures).bare := by
  have hmethods : List.zipWith MethodDecl.normalize signatures (c.methods.map MethodDecl.bare)
      = (List.zipWith MethodDecl.normalize signatures c.methods).map MethodDecl.bare := by
    rw [List.zipWith_map_right, List.map_zipWith]
    simp only [MethodDecl.normalize_bare]
  exact congrArg (fun methods => { c with methods }) hmethods

end Classlet
