import Classlet.Proofs.Optimize.Sameness

/-!
# Propagation of known literals

Constant propagation on statements: what is known about the variables is threaded through the
statements in order, and reads of known variables become literals.

A variable that is assigned inside a conditional or a loop is never known, so a conditional or loop
leaves what is known as it is, whichever way it takes and however many rounds (`frozen_propagate`).
Hence what is known holds of every store that is reached, and every statement does after propagation
what it did before (`exec_propagate`), within the same number of rounds.
-/

namespace Classlet

open Lowering (Context)
open Semantics

/-- The literals that variables are known to hold. -/
abbrev Knowledge := String → Option Expr

/-- What is known after an assignment to a name. -/
def Knowledge.set (F : Knowledge) (name : String) (e : Option Expr) : Knowledge := fun other =>
  if other = name then e else F other

/-- Integers and truth values. -/
def Expr.isLiteral : Expr → Bool
  | .int _ | .bool _ => true
  | _ => false

mutual

/-- The expression with literals in the place of known variables. -/
def Expr.substitute (F : Knowledge) : Expr → Expr
  | .int n => .int n
  | .bool b => .bool b
  | .var name => (F name).getD (.var name)
  | .binary op lhs rhs => .binary op (lhs.substitute F) (rhs.substitute F)
  | .unary op operand => .unary op (operand.substitute F)
  | .call receiver method args => .call (receiver.substitute F) method (substituteAll F args)
  | .field object name => .field (object.substitute F) name
  | .index array position => .index (array.substitute F) (position.substitute F)
  | .length array => .length (array.substitute F)
  | .newArray size => .newArray (size.substitute F)
  | .arrayLit elements => .arrayLit (substituteAll F elements)
  | .newObject className => .newObject className
  | .this => .this
  | .paren inner => .paren (inner.substitute F)

/-- The expressions with literals in the place of known variables. -/
def Expr.substituteAll (F : Knowledge) : List Expr → List Expr
  | [] => []
  | e :: rest => e.substitute F :: substituteAll F rest

end

theorem Expr.substituteAll_eq (F : Knowledge) (es : List Expr) :
    substituteAll F es = es.map (substitute F) := by
  induction es with
  | nil => rfl
  | cons e es ih => rw [substituteAll, ih, List.map_cons]

/-- Every expression but a variable is made of what its parts become. -/
theorem Expr.substitute_of_parts (F : Knowledge) {e : Expr} (he : ∀ x, e ≠ .var x) :
    (e.substitute F).kind = e.kind ∧ (e.substitute F).parts = e.parts.map (substitute F) := by
  cases e with
  | var x => exact absurd rfl (he x)
  | _ => simp [substitute, kind, parts, substituteAll_eq]

mutual

/-- The statement with literals in the place of variables known before it, and what is known after
it.  Only names in `P` become known. -/
def Stmt.propagate (P : String → Bool) : Stmt → Knowledge → Stmt × Knowledge
  | .assign target value, F =>
    let value := value.substitute F
    (.assign target value, F.set target (if P target && value.isLiteral then some value else none))
  | .arrayAssign target index value, F =>
    (.arrayAssign target (index.substitute F) (value.substitute F), F)
  | .ret value, F => (.ret (value.map (Expr.substitute F)), F)
  | .ifThen cond body, F =>
    let (body, F') := body.propagate P F
    (.ifThen (cond.substitute F) body, F')
  | .ifElse cond body otherwise, F =>
    let (body, F₁) := body.propagate P F
    let (otherwise, F₂) := otherwise.propagate P F₁
    (.ifElse (cond.substitute F) body otherwise, F₂)
  | .whileDo cond body, F =>
    let (body, F') := body.propagate P F
    (.whileDo (cond.substitute F) body, F')
  | .block body, F =>
    let (body, F') := propagateAll P body F
    (.block body, F')
  | .expr value, F => (.expr (value.substitute F), F)

/-- The statements with literals in the place of known variables, and what is known in the end. -/
def Stmt.propagateAll (P : String → Bool) : List Stmt → Knowledge → List Stmt × Knowledge
  | [], F => ([], F)
  | s :: rest, F =>
    let (s, F₁) := s.propagate P F
    let (rest, F₂) := propagateAll P rest F₁
    (s :: rest, F₂)

end

mutual

/-- The variables assigned in a statement. -/
def Stmt.assigned : Stmt → List String
  | .assign target _ => [target]
  | .ifThen _ body | .whileDo _ body => body.assigned
  | .ifElse _ body otherwise => body.assigned ++ otherwise.assigned
  | .block body => assignedInAll body
  | .arrayAssign _ _ _ | .ret _ | .expr _ => []

/-- The variables assigned in some statements. -/
def Stmt.assignedInAll : List Stmt → List String
  | [] => []
  | s :: rest => s.assigned ++ assignedInAll rest

end

mutual

/-- The variables assigned in a conditional or a loop of a statement. -/
def Stmt.branchAssigned : Stmt → List String
  | .ifThen _ body | .whileDo _ body => body.assigned
  | .ifElse _ body otherwise => body.assigned ++ otherwise.assigned
  | .block body => branchAssignedInAll body
  | .assign _ _ | .arrayAssign _ _ _ | .ret _ | .expr _ => []

/-- The variables assigned in a conditional or a loop of some statements. -/
def Stmt.branchAssignedInAll : List Stmt → List String
  | [] => []
  | s :: rest => s.branchAssigned ++ branchAssignedInAll rest

end

theorem Stmt.mem_assignedInAll {x : String} {ss : List Stmt} :
    x ∈ assignedInAll ss ↔ ∃ s ∈ ss, x ∈ s.assigned := by
  induction ss with
  | nil => simp [assignedInAll]
  | cons s ss ih => simp [assignedInAll, ih]

theorem Stmt.mem_branchAssignedInAll {x : String} {ss : List Stmt} :
    x ∈ branchAssignedInAll ss ↔ ∃ s ∈ ss, x ∈ s.branchAssigned := by
  induction ss with
  | nil => simp [branchAssignedInAll]
  | cons s ss ih => simp [branchAssignedInAll, ih]

theorem Stmt.branchAssigned_subset (s : Stmt) : s.branchAssigned ⊆ s.assigned := by
  induction s using Stmt.ind with
  | assign | arrayAssign | ret | expr => exact List.nil_subset _
  | ifThen | ifElse | whileDo =>
    simp only [branchAssigned, assigned]
    exact fun _ hx => hx
  | block body ih =>
    intro x hx
    rw [branchAssigned, mem_branchAssignedInAll] at hx
    rw [assigned, mem_assignedInAll]
    obtain ⟨s, hs, hx⟩ := hx
    exact ⟨s, hs, ih s hs hx⟩

/-! ### What stays known -/

/-- Only names in `P` are known. -/
def Knowledge.Within (F : Knowledge) (P : String → Bool) : Prop :=
  ∀ x e, F x = some e → P x = true

theorem Knowledge.Within.eq_none {F : Knowledge} {P : String → Bool} (h : F.Within P) {x : String}
    (hx : P x = false) : F x = none := by
  cases hF : F x with
  | none => rfl
  | some e => rw [h x e hF] at hx; cases hx

theorem Knowledge.set_none_eq {F : Knowledge} {x : String} (h : F x = none) : F.set x none = F := by
  funext y
  unfold set
  split
  · next hy => rw [hy, h]
  · rfl

/-- **A statement that assigns no name in `P` leaves what is known as it is.** -/
theorem Stmt.frozen_propagate {P : String → Bool} {s : Stmt} {F : Knowledge} (hF : F.Within P)
    (hs : ∀ x ∈ s.assigned, P x = false) : (s.propagate P F).2 = F := by
  induction s using Stmt.ind with
  | assign x e =>
    have hx : P x = false := hs x (by simp [assigned])
    simp only [propagate, hx, Bool.false_and, Bool.false_eq_true, if_false]
    exact Knowledge.set_none_eq (hF.eq_none hx)
  | arrayAssign | ret | expr => simp [propagate]
  | ifThen c b ih => rw [propagate, ih hs]
  | whileDo c b ih => rw [propagate, ih hs]
  | ifElse c b o ihb iho =>
    simp only [assigned, List.mem_append] at hs
    simp only [propagate]
    rw [ihb fun x hx => hs x (.inl hx), iho fun x hx => hs x (.inr hx)]
  | block body ih =>
    simp only [assigned, mem_assignedInAll] at hs
    have hall : ∀ ss ⊆ body, (propagateAll P ss F).2 = F := by
      intro ss hss
      induction ss with
      | nil => rfl
      | cons s ss ihs =>
        have hmem : s ∈ body := hss List.mem_cons_self
        simp only [propagateAll]
        rw [ih s hmem fun x hx => hs x ⟨s, hmem, hx⟩,
          ihs fun x hx => hss (List.mem_cons_of_mem _ hx)]
    exact hall body fun _ h => h

/-! ### Invariants of an execution -/

section Progress

variable {R W : Type}

namespace Semantics

/-- If execution goes on, it does so from a store with the property. -/
def Progress.Leaves (p : Progress R W) (I : Store R → Prop) : Prop := ∀ σ w, p = .done σ w → I σ

variable {I J : Store R → Prop}

theorem Progress.leaves_done {σ : Store R} (w : W) (h : I σ) : (done σ w).Leaves I := by
  intro σ' w' hd
  cases hd
  exact h

theorem Progress.leaves_stopped (o : Outcome R) (w : W) : (stopped o w).Leaves I := nofun

theorem Progress.leaves_after {α : Type} {x : Eval W α} {w : W} {next : α → W → Progress R W}
    (h : ∀ a w', x w = (some a, w') → (next a w').Leaves I) : (after x w next).Leaves I := by
  intro σ w' hd
  unfold after at hd
  split at hd
  · exact h _ _ ‹_› _ _ hd
  · cases hd

theorem Progress.leaves_andThen {p : Progress R W} {next : Store R → W → Progress R W}
    (h : p.Leaves I) (hnext : ∀ σ w, I σ → (next σ w).Leaves J) : (p.andThen next).Leaves J := by
  intro σ w hd
  cases p with
  | done σ' w' => exact hnext σ' w' (h σ' w' rfl) σ w hd
  | stopped | unfinished => cases hd

theorem Progress.andThen_congr {p : Progress R W} {f g : Store R → W → Progress R W}
    (h : p.Leaves I) (hfg : ∀ σ w, I σ → f σ w = g σ w) : p.andThen f = p.andThen g := by
  cases p with
  | done σ w => exact hfg σ w (h σ w rfl)
  | stopped | unfinished => rfl

/-- **A loop with an invariant**: where it holds, the conditions and the bodies agree, and the body
leaves it. -/
theorem repeatWhile_congr {cond cond' : Store R → Eval W (Value R)}
    {body body' : Store R → W → Progress R W} (hcond : ∀ σ, I σ → cond' σ = cond σ)
    (hbody : ∀ σ w, I σ → body' σ w = body σ w ∧ (body σ w).Leaves I) (n : Nat) {σ : Store R}
    (w : W) (hσ : I σ) : repeatWhile cond' body' n σ w = repeatWhile cond body n σ w ∧
      (repeatWhile cond body n σ w).Leaves I := by
  induction n generalizing σ w with
  | zero => exact ⟨rfl, nofun⟩
  | succ n ih =>
    rw [repeatWhile, repeatWhile, hcond σ hσ]
    constructor
    · congr 1
      funext v w
      split
      · rw [(hbody σ w hσ).1]
        exact Progress.andThen_congr (hbody σ w hσ).2 fun σ w h => (ih w h).1
      · rfl
    · refine Progress.leaves_after fun v w' _ => ?_
      split
      · exact Progress.leaves_andThen (hbody σ w' hσ).2 fun σ w h => (ih w h).2
      · exact Progress.leaves_done w' hσ

end Semantics

end Progress

/-! ### What is known holds -/

section Execution

variable {R W : Type} {cx : Context} {world : World R W} {P : String → Bool} {F : Knowledge}
  {σ : Store R}

/-- The value of a literal. -/
def Expr.literal? : Expr → Option (Value R)
  | .int n => some (.word n)
  | .bool b => some (.ofBool b)
  | _ => none

theorem Expr.literal?_isSome {e : Expr} (h : e.isLiteral = true) :
    ∃ v : Value R, e.literal? = some v := by
  cases e with
  | int n => exact ⟨_, rfl⟩
  | bool b => exact ⟨_, rfl⟩
  | _ => cases h

theorem importName?_literal {e : Expr} {v : Value R} (h : e.literal? = some v) (cx : Context) :
    importName? cx e = none := by
  cases e <;> cases h <;> rfl

/-- The names in `P` are those of parameters and local variables. -/
def OwnNames (cx : Context) (P : String → Bool) : Prop :=
  ∀ x, P x = true → ∃ origin s, cx.resolve x = some (origin, s) ∧ origin ≠ .field

theorem evalName_own {x : String} {origin : Origin} {s : Symbol}
    (h : cx.resolve x = some (origin, s)) (ho : origin ≠ .field) :
    evalName (Setting.plain cx world) σ x = pure (σ x) := by
  unfold evalName
  simp only [Setting.plain, h]
  cases origin with
  | field => exact absurd rfl ho
  | param | localVar => rfl

/-- The known names are in `P`, and the store has for each of them the value of its literal. -/
def Knowledge.Holds (F : Knowledge) (P : String → Bool) (σ : Store R) : Prop :=
  ∀ x e, F x = some e → P x = true ∧ e.literal? = some (σ x)

theorem Knowledge.Holds.within (h : F.Holds P σ) : F.Within P := fun x e he => (h x e he).1

theorem Knowledge.Holds.set (h : F.Holds P σ) {x : String} {v : Value R} {e : Option Expr}
    (he : ∀ e', e = some e' → P x = true ∧ e'.literal? = some v) :
    (F.set x e).Holds P (σ.set x v) := by
  intro y e' hy
  rw [Store.set_apply]
  unfold Knowledge.set at hy
  split at hy
  · next hxy =>
    rw [hxy, if_pos rfl]
    exact he e' hy
  · next hxy =>
    rw [if_neg hxy]
    exact h y e' hy

variable [DecidableEq R]

theorem eval_literal {e : Expr} {v : Value R} (h : e.literal? = some v) (s : Setting R W)
    (σ : Store R) : eval s σ e = pure v := by
  cases e <;> cases h <;> rw [eval]

theorem evalSame_known (hP : OwnNames cx P) (hF : F.Holds P σ) {x : String} {e : Expr}
    (h : F x = some e) : EvalSame cx world σ (.var x) e := by
  obtain ⟨hx, he⟩ := hF x e h
  obtain ⟨origin, s, hres, ho⟩ := hP x hx
  refine ⟨?_, ?_⟩
  · rw [importName?_literal he, importName?]
    simp [unparen, hres]
  · rw [eval_literal he, eval, evalName_own hres ho]

/-- **An expression is the same with literals in the place of known variables.** -/
theorem evalSame_substitute (hP : OwnNames cx P) (hF : F.Holds P σ) (e : Expr) :
    EvalSame cx world σ e (e.substitute F) := by
  induction e using Expr.ind_parts with
  | h e ih =>
    by_cases hvar : ∃ x, e = .var x
    · obtain ⟨x, rfl⟩ := hvar
      rw [Expr.substitute]
      cases h : F x with
      | none => exact .refl ..
      | some e => exact evalSame_known hP hF h
    · obtain ⟨hkind, hparts⟩ := e.substitute_of_parts F fun x hx => hvar ⟨x, hx⟩
      refine evalSame_of_parts hkind ?_
      rw [hparts, List.forall₂_map_right_iff]
      exact List.forall₂_same.mpr ih

/-- What is known after an assignment holds of the store it leaves. -/
theorem assignName_leaves (hP : OwnNames cx P) (hF : F.Holds P σ) {x : String} {e : Expr}
    {v : Value R} {w w' : W} (hv : eval (Setting.plain cx world) σ e w = (some v, w')) :
    (assignName (Setting.plain cx world) σ x v w').Leaves
      ((F.set x (if P x && e.isLiteral then some e else none)).Holds P) := by
  have hknown : ∀ e', (if P x && e.isLiteral then some e else none) = some e' →
      P x = true ∧ e'.literal? = some v := by
    intro e' he
    split at he
    · next h =>
      rw [Bool.and_eq_true] at h
      cases he
      obtain ⟨u, hu⟩ := e.literal?_isSome (R := R) h.2
      rw [eval_literal hu] at hv
      cases hv
      exact ⟨h.1, hu⟩
    · cases he
  unfold assignName
  split
  · next s hres =>
    -- a field is not a name in `P`
    have hx : P x = false := by
      rw [Bool.eq_false_iff]
      intro hx
      obtain ⟨origin, s', hres', ho⟩ := hP x hx
      rw [show (Setting.plain cx world).context = cx from rfl, hres'] at hres
      cases hres
      exact ho rfl
    refine Progress.leaves_after fun _ w _ => Progress.leaves_done w ?_
    rw [hx, Bool.false_and, if_neg Bool.false_ne_true, Knowledge.set_none_eq (hF.within.eq_none hx)]
    exact hF
  · exact Progress.leaves_done w' (hF.set hknown)
  · exact Progress.leaves_stopped _ _

/-- From every store of which `F` holds, the statement after propagation does what it did before,
and what is known after it holds of the store it leaves. -/
def Stmt.Propagates (cx : Context) (world : World R W) (P : String → Bool) (n : Nat) (s : Stmt) :
    Prop :=
  ∀ (F : Knowledge) (σ : Store R) (w : W), F.Holds P σ →
    exec (Setting.plain cx world) n (s.propagate P F).1 σ w
      = exec (Setting.plain cx world) n s σ w ∧
      (exec (Setting.plain cx world) n s σ w).Leaves ((s.propagate P F).2.Holds P)

theorem execAll_propagateAll {n : Nat} {ss : List Stmt}
    (h : ∀ s ∈ ss, s.Propagates cx world P n) (hF : F.Holds P σ) (w : W) :
    execAll (Setting.plain cx world) n (Stmt.propagateAll P ss F).1 σ w
        = execAll (Setting.plain cx world) n ss σ w ∧
      (execAll (Setting.plain cx world) n ss σ w).Leaves
        ((Stmt.propagateAll P ss F).2.Holds P) := by
  induction ss generalizing F σ w with
  | nil => exact ⟨rfl, Progress.leaves_done w hF⟩
  | cons s ss ih =>
    obtain ⟨hs, hl⟩ := h s List.mem_cons_self F σ w hF
    have hrest : ∀ σ w, (s.propagate P F).2.Holds P σ → _ := fun σ w hσ =>
      ih (fun s hs => h s (List.mem_cons_of_mem _ hs)) hσ w
    simp only [Stmt.propagateAll, execAll]
    rw [hs]
    exact ⟨Progress.andThen_congr hl fun σ w hσ => (hrest σ w hσ).1,
      Progress.leaves_andThen hl fun σ w hσ => (hrest σ w hσ).2⟩

/-- **Propagation keeps what a statement does.** -/
theorem exec_propagate (hP : OwnNames cx P) (n : Nat) {s : Stmt}
    (hs : ∀ x ∈ s.branchAssigned, P x = false) : s.Propagates cx world P n := by
  induction s using Stmt.ind with
  | assign x e =>
    intro F σ w hF
    have he : EvalSame cx world σ e (e.substitute F) := evalSame_substitute hP hF e
    simp only [Stmt.propagate, exec]
    refine ⟨by rw [he.2], Progress.leaves_after fun v w' hv => ?_⟩
    rw [← he.2] at hv
    exact assignName_leaves hP hF hv
  | arrayAssign x i e =>
    intro F σ w hF
    have hi : EvalSame cx world σ i (i.substitute F) := evalSame_substitute hP hF i
    have he : EvalSame cx world σ e (e.substitute F) := evalSame_substitute hP hF e
    simp only [Stmt.propagate, exec]
    refine ⟨by rw [hi.2, he.2], Progress.leaves_after fun v w' hv => ?_⟩
    exact Progress.leaves_done w' hF
  | ret e =>
    intro F σ w hF
    cases e with
    | none => exact ⟨rfl, Progress.leaves_stopped _ _⟩
    | some e =>
      have he : EvalSame cx world σ e (e.substitute F) := evalSame_substitute hP hF e
      simp only [Stmt.propagate, Option.map_some, exec]
      exact ⟨by rw [he.2], Progress.leaves_after fun v w' hv => Progress.leaves_stopped _ _⟩
  | expr e =>
    intro F σ w hF
    have he : EvalSame cx world σ e (e.substitute F) := evalSame_substitute hP hF e
    simp only [Stmt.propagate, exec]
    exact ⟨by rw [he.2], Progress.leaves_after fun v w' hv => Progress.leaves_done w' hF⟩
  | ifThen c b ih =>
    intro F σ w hF
    have hc : EvalSame cx world σ c (c.substitute F) := evalSame_substitute hP hF c
    have hb := fun w => ih (fun x hx => hs x (b.branchAssigned_subset hx)) F σ w hF
    have hfrozen : (b.propagate P F).2 = F := Stmt.frozen_propagate hF.within hs
    rw [hfrozen] at hb
    simp only [Stmt.propagate, exec, hfrozen]
    refine ⟨?_, Progress.leaves_after fun v w' hv => ?_⟩
    · rw [hc.2]
      simp only [(hb _).1]
    · split
      · exact (hb w').2
      · exact Progress.leaves_done w' hF
  | ifElse c b o ihb iho =>
    intro F σ w hF
    simp only [Stmt.branchAssigned, List.mem_append] at hs
    have hc : EvalSame cx world σ c (c.substitute F) := evalSame_substitute hP hF c
    have hsb : ∀ x ∈ b.assigned, P x = false := fun x hx => hs x (.inl hx)
    have hso : ∀ x ∈ o.assigned, P x = false := fun x hx => hs x (.inr hx)
    have hfb : (b.propagate P F).2 = F := Stmt.frozen_propagate hF.within hsb
    have hfo : (o.propagate P F).2 = F := Stmt.frozen_propagate hF.within hso
    have hb := fun w => ihb (fun x hx => hsb x (b.branchAssigned_subset hx)) F σ w hF
    have ho := fun w => iho (fun x hx => hso x (o.branchAssigned_subset hx)) F σ w hF
    rw [hfb] at hb
    rw [hfo] at ho
    simp only [Stmt.propagate, exec, hfb, hfo]
    refine ⟨?_, Progress.leaves_after fun v w' hv => ?_⟩
    · rw [hc.2]
      simp only [(hb _).1, (ho _).1]
    · split
      · exact (hb w').2
      · exact (ho w').2
  | whileDo c b ih =>
    intro F σ w hF
    have hb : ∀ σ w, F.Holds P σ → _ := fun σ w hσ =>
      ih (fun x hx => hs x (b.branchAssigned_subset hx)) F σ w hσ
    have hfrozen : (b.propagate P F).2 = F := Stmt.frozen_propagate hF.within hs
    rw [hfrozen] at hb
    simp only [Stmt.propagate, exec, hfrozen]
    exact repeatWhile_congr (fun σ hσ => (evalSame_substitute hP hσ c).2) hb n w hF
  | block body ih =>
    intro F σ w hF
    simp only [Stmt.branchAssigned, Stmt.mem_branchAssignedInAll] at hs
    rw [Stmt.propagate, exec_block, exec_block]
    exact execAll_propagateAll (fun s hmem => ih s hmem fun x hx => hs x ⟨s, hmem, hx⟩) hF w

end Execution

end Classlet
