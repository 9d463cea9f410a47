import Classlet.Proofs.Optimize.Rounds
import Classlet.Proofs.Syntax.Inside

/-!
# What rounds leave of a method

Every part of an improved method is a literal or has the kind of a part that was there before.  More
is kept where the optimizer puts literals in the place of like expressions: for a property of
expressions that depends on kind and parts alone and survives collapsing (`Steady`), a part keeps
the property of the expressions of which it consists (`Left`), provided that the literals assigned
to variables have the property of the variables (`Part.AssignsAlike`).

* `left_improve_iterate`: this holds for any number of rounds.
-/

namespace Classlet

open Optimize Subtree

variable {α : Type} {τ : Expr → α}

/-! ### Parts and what is left of them -/

namespace Part

/-- The part is a literal. -/
def isLiteral : Part → Bool
  | expr e => e.isLiteral
  | _ => false

theorem isLiteral_of_kind {part part' : Part} (h : part'.kind = part.kind)
    (hl : part.isLiteral = true) : part'.isLiteral = true := by
  cases part with
  | expr e =>
    cases part' with
    | expr e' =>
      have hk : e'.kind = e.kind := h
      rw [isLiteral, ← e'.isLiteral_kind, hk, e.isLiteral_kind]
      exact hl
    | stmt s => cases e <;> cases hl <;> cases s <;> cases h
    | _ => cases e <;> cases hl <;> cases h
  | _ => cases hl

end Part

/-- What is left of a part: every part inside is a literal or has the kind of a part that was
inside, with the same values; and an expression keeps its value. -/
structure Left (τ : Expr → α) (part' part : Part) : Prop where
  inside : ∀ p' : Part, p'.Inside part' → p'.isLiteral = true ∨
    ∃ p : Part, p.Inside part ∧ p'.kind = p.kind ∧ p'.values τ = p.values τ
  value : part'.expr?.map τ = part.expr?.map τ

namespace Left

theorem refl (part : Part) : Left τ part part :=
  ⟨fun p' hp' => .inr ⟨p', hp', rfl, rfl⟩, rfl⟩

theorem trans {p₁ p₂ p₃ : Part} (h : Left τ p₃ p₂) (h' : Left τ p₂ p₁) : Left τ p₃ p₁ where
  inside := by
    intro p hp
    rcases h.inside p hp with hlit | ⟨q, hq, hk, hv⟩
    · exact .inl hlit
    · rcases h'.inside q hq with hlit | ⟨r, hr, hk', hv'⟩
      · exact .inl (Part.isLiteral_of_kind hk hlit)
      · exact .inr ⟨r, hr, hk.trans hk', hv.trans hv'⟩
  value := h.value.trans h'.value

theorem filterMap_eq {parts' parts : List Part} (h : List.Forall₂ (Left τ) parts' parts) :
    parts'.filterMap (fun inner => inner.expr?.map τ)
      = parts.filterMap fun inner => inner.expr?.map τ := by
  induction h with
  | nil => rfl
  | cons hp _ ih => rw [List.filterMap_cons, List.filterMap_cons, hp.value, ih]

theorem of_parts {part' part : Part} (hk : part'.kind = part.kind)
    (hp : List.Forall₂ (Left τ) part'.parts part.parts)
    (hv : part'.expr?.map τ = part.expr?.map τ) : Left τ part' part where
  inside := by
    intro p' hp'
    cases hp' with
    | refl => exact .inr ⟨part, .refl _, hk, filterMap_eq hp⟩
    | part hc hin =>
      obtain ⟨inner, hinner, hleft⟩ := forall₂_of_mem_left hp hc
      rcases hleft.inside p' hin with hlit | ⟨p, hpin, hk', hv'⟩
      · exact .inl hlit
      · exact .inr ⟨p, .part hinner hpin, hk', hv'⟩
  value := hv

/-- A literal is all that is left of an expression of its value. -/
theorem of_literal {e' e : Expr} (hl : e'.isLiteral = true) (hv : τ e' = τ e) :
    Left τ (.expr e') (.expr e) where
  inside := by
    intro p' hp'
    cases hp' with
    | refl => exact .inl hl
    | part hc =>
      rw [Part.parts, Expr.parts_of_isLiteral hl] at hc
      cases hc
  value := congrArg some hv

end Left

/-! ### Expressions -/

/-- A property of expressions that depends on kind and parts alone, and survives collapsing. -/
structure Steady (τ : Expr → α) : Prop where
  of_parts : ∀ {e e' : Expr}, e'.kind = e.kind → e'.parts.map τ = e.parts.map τ → τ e' = τ e
  collapse : ∀ (inCondition : Bool) (e : Expr), τ (e.collapse inCondition) = τ e

/-- The known literals have the values of their variables. -/
def Knowledge.Alike (τ : Expr → α) (F : Knowledge) : Prop :=
  ∀ x l, F x = some l → l.isLiteral = true ∧ τ l = τ (.var x)

section Expressions

variable (hτ : Steady τ)
include hτ

theorem left_of_parts {e' e : Expr} (hk : e'.kind = e.kind)
    (hp : List.Forall₂ (fun a' a => Left τ (.expr a') (.expr a)) e'.parts e.parts) :
    Left τ (.expr e') (.expr e) := by
  have hvalues : e'.parts.map τ = e.parts.map τ := by
    generalize e'.parts = as', e.parts = as at hp
    induction hp with
    | nil => rfl
    | cons ha _ ih => rw [List.map_cons, List.map_cons, ih, Option.some.inj ha.value]
  refine .of_parts hk ?_ (congrArg some (hτ.of_parts hk hvalues))
  rw [Part.parts, Part.parts, List.forall₂_map_left_iff, List.forall₂_map_right_iff]
  exact hp

theorem left_substitute {F : Knowledge} (hF : F.Alike τ) (e : Expr) :
    Left τ (.expr (e.substitute F)) (.expr e) := by
  induction e using Expr.ind_parts with
  | h e ih =>
    by_cases hvar : ∃ x, e = .var x
    · obtain ⟨x, rfl⟩ := hvar
      rw [Expr.substitute]
      cases hx : F x with
      | none => exact .refl _
      | some l => exact .of_literal (hF x l hx).1 (hF x l hx).2
    · obtain ⟨hk, hp⟩ := e.substitute_of_parts F fun x hx => hvar ⟨x, hx⟩
      refine left_of_parts hτ hk ?_
      rw [hp, List.forall₂_map_left_iff]
      exact List.forall₂_same.mpr ih

theorem left_collapse (inCondition : Bool) (e : Expr) :
    Left τ (.expr (e.collapse inCondition)) (.expr e) := by
  rcases e.collapse_cases inCondition with ⟨-, he⟩ | ⟨l, -, hl, hk, -⟩
  · rw [he]
    exact .refl _
  · refine .of_literal ?_ (hτ.collapse inCondition e)
    rw [← Expr.isLiteral_kind, hk, hl]

theorem left_simplify (inCondition : Bool) (e : Expr) :
    Left τ (.expr (e.simplify inCondition)) (.expr e) := by
  induction e using Expr.ind_parts generalizing inCondition with
  | h e ih =>
    obtain ⟨e₁, he, hk, hp⟩ := e.simplify_eq inCondition
    rw [he]
    refine (left_collapse hτ inCondition e₁).trans (left_of_parts hτ hk ?_)
    rw [hp, List.forall₂_map_left_iff]
    exact List.forall₂_same.mpr fun a ha => ih a ha _

end Expressions

/-! ### Statements -/

/-- A literal with the value of what is assigned to an own variable has the value of the variable.
-/
def Part.AssignsAlike (τ : Expr → α) (own : String → Prop) (part : Part) : Prop :=
  ∀ x value, (Part.stmt (.assign x value)).Inside part → own x →
    ∀ l : Expr, l.isLiteral = true → τ l = τ value → τ l = τ (.var x)

section Statements

variable {own : String → Prop}

theorem Part.AssignsAlike.inner {part whole : Part} (h : whole.AssignsAlike τ own)
    (hp : part.Inside whole) : part.AssignsAlike τ own := fun x value hin =>
  h x value (hin.trans hp)

theorem Left.assignsAlike {part' part : Part} (hleft : Left τ part' part)
    (h : part.AssignsAlike τ own) : part'.AssignsAlike τ own := by
  intro x value hin hx l hl hv
  rcases hleft.inside _ hin with hlit | ⟨p, hp, hk, hvalues⟩
  · cases hlit
  cases p with
  | stmt s =>
    cases s with
    | assign target value₀ =>
      cases hk
      have hvalue : τ value = τ value₀ := by simpa [Part.values, Part.parts, Stmt.parts, Part.expr?]
        using hvalues
      exact h x value₀ hp hx l hl (hv.trans hvalue)
    | _ => cases hk
  | expr e => cases e <;> cases hk
  | _ => cases hk

variable (hτ : Steady τ)
include hτ

theorem left_stmt_simplify (s : Stmt) : Left τ (.stmt s.simplify) (.stmt s) := by
  have hexpr : ∀ c e, Left τ (.expr (Expr.simplify c e)) (.expr e) :=
    fun c e => left_simplify hτ c e
  induction s using Stmt.ind with
  | assign x e => exact .of_parts rfl (.cons (hexpr _ e) .nil) rfl
  | arrayAssign x i e => exact .of_parts rfl (.cons (hexpr _ i) (.cons (hexpr _ e) .nil)) rfl
  | ret e =>
    cases e with
    | none => exact .refl _
    | some e => exact .of_parts rfl (.cons (hexpr _ e) .nil) rfl
  | expr e => exact .of_parts rfl (.cons (hexpr _ e) .nil) rfl
  | ifThen c b ih => exact .of_parts rfl (.cons (hexpr _ c) (.cons ih .nil)) rfl
  | ifElse c b o ihb iho =>
    exact .of_parts rfl (.cons (hexpr _ c) (.cons ihb (.cons iho .nil))) rfl
  | whileDo c b ih => exact .of_parts rfl (.cons (hexpr _ c) (.cons ih .nil)) rfl
  | block body ih =>
    refine .of_parts rfl ?_ rfl
    rw [Stmt.simplify, Stmt.simplifyAll_eq, Part.parts, Part.parts, Stmt.parts, Stmt.parts,
      List.map_map, List.forall₂_map_left_iff, List.forall₂_map_right_iff]
    exact List.forall₂_same.mpr ih

/-- Propagation leaves a statement, and what is known then is alike, too. -/
def LeftByPropagation (τ : Expr → α) (P : String → Bool) (s : Stmt) : Prop :=
  ∀ F : Knowledge, F.Alike τ →
    Left τ (.stmt (s.propagate P F).1) (.stmt s) ∧ (s.propagate P F).2.Alike τ

omit hτ in
theorem left_propagateAll {P : String → Bool} {ss : List Stmt}
    (h : ∀ s ∈ ss, LeftByPropagation τ P s) {F : Knowledge} (hF : F.Alike τ) :
    List.Forall₂ (fun s' s => Left τ (.stmt s') (.stmt s)) (Stmt.propagateAll P ss F).1 ss ∧
      (Stmt.propagateAll P ss F).2.Alike τ := by
  induction ss generalizing F with
  | nil => exact ⟨.nil, hF⟩
  | cons s ss ih =>
    rw [List.forall_mem_cons] at h
    obtain ⟨hs, hF₁⟩ := h.1 F hF
    obtain ⟨hss, hF₂⟩ := ih h.2 hF₁
    exact ⟨.cons hs hss, hF₂⟩

theorem left_propagate {P : String → Bool} (hP : ∀ x, P x = true → own x) {s : Stmt}
    (h : (Part.stmt s).AssignsAlike τ own) : LeftByPropagation τ P s := by
  have hexpr : ∀ {F : Knowledge}, F.Alike τ →
      ∀ e : Expr, Left τ (.expr (e.substitute F)) (.expr e) :=
    fun hF e => left_substitute hτ hF e
  induction s using Stmt.ind with
  | assign x e =>
    intro F hF
    refine ⟨.of_parts rfl (.cons (hexpr hF e) .nil) rfl, fun y l hy => ?_⟩
    simp only [Stmt.propagate, Knowledge.set] at hy
    split at hy
    · next heq =>
      subst heq
      split at hy
      · next hknown =>
        cases hy
        rw [Bool.and_eq_true] at hknown
        refine ⟨hknown.2, h y e (.refl _) (hP y hknown.1) _ hknown.2 ?_⟩
        exact Option.some.inj (hexpr hF e).value
      · cases hy
    · exact hF y l hy
  | arrayAssign x i e =>
    exact fun F hF => ⟨.of_parts rfl (.cons (hexpr hF i) (.cons (hexpr hF e) .nil)) rfl, hF⟩
  | ret e =>
    intro F hF
    cases e with
    | none => exact ⟨.refl _, hF⟩
    | some e => exact ⟨.of_parts rfl (.cons (hexpr hF e) .nil) rfl, hF⟩
  | expr e => exact fun F hF => ⟨.of_parts rfl (.cons (hexpr hF e) .nil) rfl, hF⟩
  | ifThen c b ih =>
    intro F hF
    obtain ⟨hb, hF'⟩ := ih (h.inner (.of_mem (by simp [Part.parts, Stmt.parts]))) F hF
    exact ⟨.of_parts rfl (.cons (hexpr hF c) (.cons hb .nil)) rfl, hF'⟩
  | ifElse c b o ihb iho =>
    intro F hF
    obtain ⟨hb, hF₁⟩ := ihb (h.inner (.of_mem (by simp [Part.parts, Stmt.parts]))) F hF
    obtain ⟨ho, hF₂⟩ := iho (h.inner (.of_mem (by simp [Part.parts, Stmt.parts]))) _ hF₁
    exact ⟨.of_parts rfl (.cons (hexpr hF c) (.cons hb (.cons ho .nil))) rfl, hF₂⟩
  | whileDo c b ih =>
    intro F hF
    obtain ⟨hb, hF'⟩ := ih (h.inner (.of_mem (by simp [Part.parts, Stmt.parts]))) F hF
    exact ⟨.of_parts rfl (.cons (hexpr hF c) (.cons hb .nil)) rfl, hF'⟩
  | block body ih =>
    intro F hF
    have hinner : ∀ s ∈ body, LeftByPropagation τ P s := fun s hs =>
      ih s hs (h.inner (.of_mem (List.mem_map_of_mem hs)))
    obtain ⟨hbody, hF'⟩ := left_propagateAll hinner hF
    refine ⟨.of_parts rfl ?_ rfl, hF'⟩
    rw [Part.parts, Part.parts, Stmt.propagate, Stmt.parts, Stmt.parts, List.forall₂_map_left_iff,
      List.forall₂_map_right_iff]
    exact hbody

/-! ### Methods -/

omit hτ in
theorem left_method {m : MethodDecl} {body : List Stmt}
    (h : List.Forall₂ (fun s' s => Left τ (.stmt s') (.stmt s)) body m.body) :
    Left τ (.method { m with body }) (.method m) := by
  refine .of_parts rfl ?_ rfl
  rw [Part.parts, Part.parts, MethodDecl.parts, MethodDecl.parts]
  refine List.rel_append (List.forall₂_same.mpr fun _ _ => .refl _) ?_
  rw [List.forall₂_map_left_iff, List.forall₂_map_right_iff]
  exact h

/-- The variables of a method that rounds may replace by literals. -/
def Signature.Owns (s : Signature) (x : String) : Prop := x ∈ (s.params ++ s.locals).map (·.name)

theorem left_improve {s : Signature} {m : MethodDecl}
    (h : (Part.method m).AssignsAlike τ s.Owns) : Left τ (.method (m.improve s)) (.method m) := by
  have hown : ∀ x, (tracking s m.body).propagates x = true → s.Owns x := by
    intro x hx
    rw [tracking, Tracking.propagates_ofNames, Bool.and_eq_true, List.contains_iff_mem] at hx
    exact hx.1
  have hbody : ∀ stmt ∈ m.body,
      LeftByPropagation τ (tracking s m.body).propagates stmt := fun stmt hs =>
    left_propagate hτ hown (h.inner (.of_mem (by simp [Part.parts, MethodDecl.parts, hs])))
  have hprop : Left τ (.method (m.propagate s)) (.method m) :=
    left_method (left_propagateAll hbody fun _ _ hx => by cases hx).1
  refine Left.trans (left_method ?_) hprop
  rw [List.forall₂_map_left_iff]
  exact List.forall₂_same.mpr fun stmt _ => left_stmt_simplify hτ stmt

/-- **What rounds leave of a method.** -/
theorem left_improve_iterate {s : Signature} {m : MethodDecl}
    (h : (Part.method m).AssignsAlike τ s.Owns) (r : Nat) :
    Left τ (.method ((MethodDecl.improve s)^[r] m)) (.method m) := by
  induction r generalizing m with
  | zero => exact .refl _
  | succ r ih =>
    have hround := left_improve hτ h
    exact (ih (hround.assignsAlike h)).trans hround

end Statements

end Classlet
