import Classlet.Proofs.Optimize.Fixpoint

/-!
# The normal form of the optimizer

In how many rounds the optimizer ends depends on how a program is written, what it ends with does
not.  The normal form of a statement is worked out in one go: known variables are replaced and the
expressions simplified before anything is learned from an assignment.  A round changes no normal
form, since what propagation knows at a place, the normal form knows there too, and a program that a
round leaves as it is, is its own normal form.

* `optimize_normalizes`: the optimizer ends with the normal form of the first class.
-/

namespace Classlet

open Optimize Subtree

/-! ### Expressions -/

/-- What is known are literals. -/
def Knowledge.Literals (F : Knowledge) : Prop := ∀ x e, F x = some e → e.isLiteral = true

/-- Whatever is known in the one is known in the other, and only literals are. -/
structure Knowledge.Below (F G : Knowledge) : Prop where
  subset : ∀ x e, F x = some e → G x = some e
  literals : G.Literals

namespace Expr

variable {F G : Knowledge}

theorem simplify_of_isLiteral {e : Expr} (h : e.isLiteral = true) (inCondition : Bool) :
    e.simplify inCondition = e := by
  cases e with
  | int | bool => rfl
  | _ => cases h

theorem substitute_ne_var {e : Expr} (he : ∀ x, e ≠ .var x) (F : Knowledge) (x : String) :
    e.substitute F ≠ .var x := by
  intro h
  have hk := (substitute_of_parts F he).1
  rw [h] at hk
  exact he x (eq_var_of_kind hk.symm)

/-- Replacing what is known already changes nothing about replacing all that is known. -/
theorem substitute_substitute (h : F.Below G) (e : Expr) :
    (e.substitute F).substitute G = e.substitute G := by
  induction e using Expr.ind_parts with
  | h e ih =>
    by_cases hvar : ∃ x, e = .var x
    · obtain ⟨x, rfl⟩ := hvar
      cases hx : F x with
      | none => simp [substitute, hx]
      | some l =>
        have hl := h.literals x l (h.subset x l hx)
        simp [substitute, hx, h.subset x l hx, substitute_of_isLiteral hl]
    · have he : ∀ x, e ≠ .var x := fun x hx => hvar ⟨x, hx⟩
      obtain ⟨hkF, hpF⟩ := substitute_of_parts F he
      obtain ⟨hkG, hpG⟩ := substitute_of_parts G he
      obtain ⟨hk, hp⟩ := substitute_of_parts G (substitute_ne_var he F)
      refine ext_parts (by rw [hk, hkF, hkG]) ?_
      rw [hp, hpF, hpG, List.map_map]
      exact List.map_congr_left ih

/-- **Simplifying before known variables are replaced changes nothing about simplifying after.** -/
theorem simplify_substitute_simplify (G : Knowledge) (inCondition : Bool) (e : Expr) :
    ((e.simplify inCondition).substitute G).simplify inCondition
      = (e.substitute G).simplify inCondition := by
  induction e using Expr.ind_parts generalizing inCondition with
  | h e ih =>
    by_cases hvar : ∃ x, e = .var x
    · obtain ⟨x, rfl⟩ := hvar
      rfl
    have he : ∀ x, e ≠ .var x := fun x hx => hvar ⟨x, hx⟩
    obtain ⟨e₁, h₁, hk₁, hp₁⟩ := simplify_eq inCondition e
    have he₁ : ∀ x, e₁ ≠ .var x := by
      rintro x rfl
      exact he x (eq_var_of_kind hk₁.symm)
    obtain ⟨hkG, hpG⟩ := substitute_of_parts G he
    obtain ⟨hkG₁, hpG₁⟩ := substitute_of_parts G he₁
    obtain ⟨e₂, h₂, hk₂, hp₂⟩ := simplify_eq inCondition (e.substitute G)
    obtain ⟨e₃, h₃, hk₃, hp₃⟩ := simplify_eq inCondition (e₁.substitute G)
    rw [hkG₁, hk₁] at hk₃ hp₃
    rw [hkG] at hk₂ hp₂
    have hsame : e₃ = e₂ := by
      refine ext_parts (by rw [hk₃, hk₂]) ?_
      rw [hp₃, hp₂, hpG₁, hpG, hp₁, List.map_map, List.map_map, List.map_map]
      exact List.map_congr_left fun a ha => ih a ha _
    rcases collapse_cases inCondition e₁ with ⟨-, hstays⟩ | ⟨l, hl, hlit, hk, -⟩
    · rw [h₁, hstays, h₃, h₂, hsame]
    · -- an operation on literals, which neither replacing nor simplifying changes
      have hparts : ∀ a ∈ e₁.parts, a.isLiteral = true := by
        intro a ha
        rw [← isLiteral_kind]
        exact (collapse?_spec hl).2.1 _ (List.mem_map_of_mem ha)
      have hfixed : e₃ = e₁ := by
        refine ext_parts (by rw [hk₃, hk₁]) ?_
        rw [hp₃, hpG₁, List.map_map]
        refine (List.map_congr_left fun a ha => ?_).trans (List.map_id' _)
        rw [Function.comp_apply, substitute_of_isLiteral (hparts a ha),
          simplify_of_isLiteral (hparts a ha)]
      have hlast : (e₁.collapse inCondition).isLiteral = true := by
        rw [← isLiteral_kind, hk, hlit]
      rw [h₁, substitute_of_isLiteral hlast, simplify_of_isLiteral hlast, h₂, ← hsame, hfixed]

end Expr

/-! ### Statements -/

mutual

/-- The normal form of a statement before which `F` is known, and what is known after it.  Only
names in `P` become known. -/
def Stmt.normalize (P : String → Bool) : Stmt → Knowledge → Stmt × Knowledge
  | .assign target value, F =>
    let value := (value.substitute F).simplify false
    (.assign target value, F.set target (if P target && value.isLiteral then some value else none))
  | .arrayAssign target index value, F =>
    (.arrayAssign target ((index.substitute F).simplify false)
      ((value.substitute F).simplify false), F)
  | .ret value, F => (.ret (value.map fun e => (e.substitute F).simplify false), F)
  | .ifThen cond body, F =>
    let (body, F') := body.normalize P F
    (.ifThen ((cond.substitute F).simplify false) body, F')
  | .ifElse cond body otherwise, F =>
    let (body, F₁) := body.normalize P F
    let (otherwise, F₂) := otherwise.normalize P F₁
    (.ifElse ((cond.substitute F).simplify false) body otherwise, F₂)
  | .whileDo cond body, F =>
    let (body, F') := body.normalize P F
    (.whileDo ((cond.substitute F).simplify true) body, F')
  | .block body, F =>
    let (body, F') := normalizeAll P body F
    (.block body, F')
  | .expr value, F => (.expr ((value.substitute F).simplify false), F)

/-- The normal forms of statements, and what is known in the end. -/
def Stmt.normalizeAll (P : String → Bool) : List Stmt → Knowledge → List Stmt × Knowledge
  | [], F => ([], F)
  | s :: rest, F =>
    let (s, F₁) := s.normalize P F
    let (rest, F₂) := normalizeAll P rest F₁
    (s :: rest, F₂)

end

namespace Knowledge.Below

variable {F G : Knowledge}

theorem set (h : F.Below G) (x : String) {e e' : Option Expr} (hsub : ∀ l, e = some l → e' = some l)
    (hlit : ∀ l, e' = some l → l.isLiteral = true) : (F.set x e).Below (G.set x e') := by
  constructor
  · intro y l hy
    unfold Knowledge.set at hy ⊢
    split at hy
    · next hxy => rw [if_pos hxy, hsub l hy]
    · next hxy => rw [if_neg hxy, h.subset y l hy]
  · intro y l hy
    unfold Knowledge.set at hy
    split at hy
    · exact hlit l hy
    · exact h.literals y l hy

theorem learn (h : F.Below G) (P : String → Bool) (x : String) {e e' : Expr}
    (he : e.isLiteral = true → e' = e) :
    (F.set x (if P x && e.isLiteral then some e else none)).Below
      (G.set x (if P x && e'.isLiteral then some e' else none)) := by
  refine h.set x (fun l hl => ?_) fun l hl => ?_
  · split at hl
    · next hc =>
      cases hl
      rw [he (Bool.and_eq_true_iff.mp hc).2, if_pos hc]
    · cases hl
  · split at hl
    · next hc =>
      cases hl
      exact (Bool.and_eq_true_iff.mp hc).2
    · cases hl

end Knowledge.Below

namespace Stmt

variable {P : String → Bool} {F G : Knowledge}

/-- Propagation changes no normal form of the statement, and knows no more than that. -/
def KeepsForm (P : String → Bool) (s : Stmt) : Prop :=
  ∀ ⦃F G : Knowledge⦄, F.Below G → (s.propagate P F).1.normalize P G = s.normalize P G ∧
    (s.propagate P F).2.Below (s.normalize P G).2

theorem normalizeAll_propagateAll {ss : List Stmt} (hss : ∀ s ∈ ss, KeepsForm P s)
    (h : F.Below G) : normalizeAll P (propagateAll P ss F).1 G = normalizeAll P ss G ∧
      (propagateAll P ss F).2.Below (normalizeAll P ss G).2 := by
  induction ss generalizing F G with
  | nil => exact ⟨rfl, h⟩
  | cons s ss ih =>
    rw [List.forall_mem_cons] at hss
    obtain ⟨hs, hbelow⟩ := hss.1 h
    obtain ⟨hrest, hbelow'⟩ := ih hss.2 hbelow
    simp only [propagateAll, normalizeAll, hs, hrest]
    exact ⟨trivial, hbelow'⟩

/-- **Propagation changes no normal form.** -/
theorem keepsForm (P : String → Bool) (s : Stmt) : KeepsForm P s := by
  induction s using Stmt.ind with
  | assign x e =>
    intro F G h
    simp only [propagate, normalize, Expr.substitute_substitute h]
    refine ⟨trivial, h.learn P x fun hl => ?_⟩
    rw [← Expr.substitute_substitute h, Expr.substitute_of_isLiteral hl,
      Expr.simplify_of_isLiteral hl]
  | arrayAssign | expr =>
    intro F G h
    simp only [propagate, normalize, Expr.substitute_substitute h]
    exact ⟨trivial, h⟩
  | ret value =>
    intro F G h
    simp only [propagate, normalize, Option.map_map, Function.comp_def,
      Expr.substitute_substitute h]
    exact ⟨trivial, h⟩
  | ifThen c b ih | whileDo c b ih =>
    intro F G h
    obtain ⟨hb, hbelow⟩ := ih h
    simp only [propagate, normalize, Expr.substitute_substitute h, hb]
    exact ⟨trivial, hbelow⟩
  | ifElse c b o ihb iho =>
    intro F G h
    obtain ⟨hb, hbelow⟩ := ihb h
    obtain ⟨ho, hbelow'⟩ := iho hbelow
    simp only [propagate, normalize, Expr.substitute_substitute h, hb, ho]
    exact ⟨trivial, hbelow'⟩
  | block body ih =>
    intro F G h
    obtain ⟨hbody, hbelow⟩ := normalizeAll_propagateAll ih h
    simp only [propagate, normalize, hbody]
    exact ⟨trivial, hbelow⟩

theorem literals_normalize (P : String → Bool) (s : Stmt) (h : F.Literals) :
    (s.normalize P F).2.Literals :=
  (s.keepsForm P ⟨fun _ _ hx => hx, h⟩).2.literals

theorem normalizeAll_map_simplify {ss : List Stmt}
    (hss : ∀ s ∈ ss, ∀ G, s.simplify.normalize P G = s.normalize P G) (G : Knowledge) :
    normalizeAll P (ss.map simplify) G = normalizeAll P ss G := by
  induction ss generalizing G with
  | nil => rfl
  | cons s ss ih =>
    rw [List.forall_mem_cons] at hss
    simp only [List.map_cons, normalizeAll, hss.1, ih hss.2]

/-- **Simplifying changes no normal form.** -/
theorem normalize_simplify (P : String → Bool) (s : Stmt) (G : Knowledge) :
    s.simplify.normalize P G = s.normalize P G := by
  induction s using Stmt.ind generalizing G with
  | assign | arrayAssign | expr =>
    simp only [simplify, normalize, Expr.simplify_substitute_simplify]
  | ret value =>
    simp only [simplify, normalize, Option.map_map, Function.comp_def,
      Expr.simplify_substitute_simplify]
  | ifThen c b ih | whileDo c b ih =>
    simp only [simplify, normalize, Expr.simplify_substitute_simplify, ih]
  | ifElse c b o ihb iho =>
    simp only [simplify, normalize, Expr.simplify_substitute_simplify, ihb, iho]
  | block body ih =>
    simp only [simplify, simplifyAll_eq, normalize, normalizeAll_map_simplify ih]

/-- A statement that neither propagation nor simplifying changes is its own normal form. -/
def Stable (P : String → Bool) (s : Stmt) : Prop :=
  ∀ ⦃F : Knowledge⦄, (s.propagate P F).1 = s → s.simplify = s → s.normalize P F = s.propagate P F

theorem normalizeAll_of_settled {ss : List Stmt} (hss : ∀ s ∈ ss, Stable P s)
    (hprop : (propagateAll P ss F).1 = ss) (hsimp : ss.map simplify = ss) :
    normalizeAll P ss F = propagateAll P ss F := by
  induction ss generalizing F with
  | nil => rfl
  | cons s ss ih =>
    rw [List.forall_mem_cons] at hss
    simp only [propagateAll, List.map_cons, List.cons.injEq] at hprop hsimp
    have hs := hss.1 hprop.1 hsimp.1
    simp only [normalizeAll, propagateAll, hs, ih hss.2 hprop.2 hsimp.2]

theorem stable (P : String → Bool) (s : Stmt) : Stable P s := by
  induction s using Stmt.ind with
  | assign x e =>
    intro F hprop hsimp
    simp only [propagate, simplify, assign.injEq, true_and] at hprop hsimp
    simp only [normalize, propagate, hprop, hsimp]
  | arrayAssign x i e =>
    intro F hprop hsimp
    simp only [propagate, simplify, arrayAssign.injEq, true_and] at hprop hsimp
    simp only [normalize, propagate, hprop, hsimp]
  | expr e =>
    intro F hprop hsimp
    simp only [propagate, simplify, expr.injEq] at hprop hsimp
    simp only [normalize, propagate, hprop, hsimp]
  | ret value =>
    intro F hprop hsimp
    cases value with
    | none => rfl
    | some e =>
      simp only [propagate, simplify, ret.injEq, Option.map_some, Option.some.injEq] at hprop hsimp
      simp only [normalize, propagate, Option.map_some, hprop, hsimp]
  | ifThen c b ih =>
    intro F hprop hsimp
    simp only [propagate, simplify, ifThen.injEq] at hprop hsimp
    simp only [normalize, propagate, hprop.1, hsimp.1, ih hprop.2 hsimp.2]
  | whileDo c b ih =>
    intro F hprop hsimp
    simp only [propagate, simplify, whileDo.injEq] at hprop hsimp
    simp only [normalize, propagate, hprop.1, hsimp.1, ih hprop.2 hsimp.2]
  | ifElse c b o ihb iho =>
    intro F hprop hsimp
    simp only [propagate, simplify, ifElse.injEq] at hprop hsimp
    have hb := ihb hprop.2.1 hsimp.2.1
    have ho := iho hprop.2.2 hsimp.2.2
    simp only [normalize, propagate, hprop.1, hsimp.1, hb, ho]
  | block body ih =>
    intro F hprop hsimp
    simp only [propagate, simplify, block.injEq, simplifyAll_eq] at hprop hsimp
    simp only [normalize, propagate, normalizeAll_of_settled ih hprop hsimp]

/-! ### Assigned variables -/

/-- The statements assign the same variables, in conditionals and loops too. -/
def AssignAlike (s s' : Stmt) : Prop :=
  s'.assigned = s.assigned ∧ s'.branchAssigned = s.branchAssigned

theorem assignAlike_all {ss ss' : List Stmt} (h : List.Forall₂ AssignAlike ss ss') :
    assignedInAll ss' = assignedInAll ss ∧ branchAssignedInAll ss' = branchAssignedInAll ss := by
  induction h with
  | nil => exact ⟨rfl, rfl⟩
  | cons hs _ ih =>
    simp only [assignedInAll, branchAssignedInAll, hs.1, hs.2, ih.1, ih.2]
    exact ⟨trivial, trivial⟩

theorem assignAlike_block {ss ss' : List Stmt} (h : List.Forall₂ AssignAlike ss ss') :
    AssignAlike (.block ss) (.block ss') := by
  simp only [AssignAlike, assigned, branchAssigned]
  exact assignAlike_all h

theorem assignAlike_propagateAll {ss : List Stmt}
    (hss : ∀ s ∈ ss, ∀ F, AssignAlike s (s.propagate P F).1) (F : Knowledge) :
    List.Forall₂ AssignAlike ss (propagateAll P ss F).1 := by
  induction ss generalizing F with
  | nil => exact .nil
  | cons s ss ih =>
    rw [List.forall_mem_cons] at hss
    exact .cons (hss.1 F) (ih hss.2 _)

theorem assignAlike_propagate (s : Stmt) (F : Knowledge) : AssignAlike s (s.propagate P F).1 := by
  induction s using Stmt.ind generalizing F with
  | assign | arrayAssign | ret | expr => exact ⟨rfl, rfl⟩
  | ifThen c b ih | whileDo c b ih =>
    simp only [AssignAlike, propagate, assigned, branchAssigned]
    exact ⟨(ih F).1, (ih F).1⟩
  | ifElse c b o ihb iho =>
    simp only [AssignAlike, propagate, assigned, branchAssigned, (ihb F).1, (iho _).1]
    exact ⟨trivial, trivial⟩
  | block body ih => exact assignAlike_block (assignAlike_propagateAll ih F)

/-- The statements directly inside a statement. -/
def inner : Stmt → List Stmt
  | .ifThen _ body | .whileDo _ body => [body]
  | .ifElse _ body otherwise => [body, otherwise]
  | .block body => body
  | .assign _ _ | .arrayAssign _ _ _ | .ret _ | .expr _ => []

/-- A statement assigns its own target and what the statements inside it assign. -/
theorem AssignAlike.of_inner {s s' : Stmt} (hkind : s'.kind = s.kind)
    (h : List.Forall₂ AssignAlike s.inner s'.inner) : AssignAlike s s' := by
  obtain ⟨hassigned, hbranch⟩ := assignAlike_all h
  have hparts : ∀ s : Stmt, s.parts.flatMap Part.assigned = assignedInAll s.inner ∧
      s.parts.flatMap Part.branchAssigned = branchAssignedInAll s.inner := fun s => by
    rw [assignedInAll_eq, branchAssignedInAll_eq]
    cases s <;> simp [parts, inner, Part.assigned, Part.branchAssigned, List.flatMap_map]
  have hs := Part.assigned_eq (.stmt s)
  have hs' := Part.assigned_eq (.stmt s')
  have hb := Part.branchAssigned_eq (.stmt s)
  have hb' := Part.branchAssigned_eq (.stmt s')
  simp only [Part.parts, Part.kind, (hparts _).1, (hparts _).2, hkind, hassigned, hbranch]
    at hs hs' hb hb'
  exact ⟨hs'.trans hs.symm, hb'.trans hb.symm⟩

/-- A map that keeps kinds and is applied to the statements inside changes no assignment. -/
theorem assignAlike_map {f : Stmt → Stmt} (hkind : ∀ s, (f s).kind = s.kind)
    (hinner : ∀ s, (f s).inner = s.inner.map f) (s : Stmt) : AssignAlike s (f s) := by
  have hone (s : Stmt) (h : List.Forall₂ AssignAlike s.inner (s.inner.map f)) :
      AssignAlike s (f s) := .of_inner (hkind s) (by rwa [hinner])
  induction s using Stmt.ind with
  | assign | arrayAssign | ret | expr => exact hone _ .nil
  | ifThen c b ih | whileDo c b ih => exact hone _ (.cons ih .nil)
  | ifElse c b o ihb iho => exact hone _ (.cons ihb (.cons iho .nil))
  | block body ih => exact hone _ (List.forall₂_map_right_iff.mpr (List.forall₂_same.mpr ih))

theorem assignAlike_simplify (s : Stmt) : AssignAlike s s.simplify := by
  refine assignAlike_map (fun s => ?_) (fun s => ?_) s
  · cases s <;> simp [simplify, kind]
  · cases s <;> simp [simplify, simplifyAll_eq, inner]

end Stmt

theorem Optimize.tracking_congr {body body' : List Stmt}
    (h : List.Forall₂ Stmt.AssignAlike body body') (s : Signature) :
    tracking s body' = tracking s body := by
  rw [tracking, tracking, (Stmt.assignAlike_all h).2]

/-! ### Methods and classes -/

/-- The normal form of a method with the signature. -/
def MethodDecl.normalize (s : Signature) (m : MethodDecl) : MethodDecl :=
  { m with body := (Stmt.normalizeAll (tracking s m.body).propagates m.body fun _ => none).1 }

/-- The normal form of a class whose methods have the signatures. -/
def ClassDecl.normalize (signatures : List Signature) (c : ClassDecl) : ClassDecl :=
  { c with methods := List.zipWith MethodDecl.normalize signatures c.methods }

/-- A round changes no normal form. -/
theorem MethodDecl.normalize_improve (s : Signature) (m : MethodDecl) :
    (m.improve s).normalize s = m.normalize s := by
  have hnone : Knowledge.Below (fun _ => none) (fun _ => none) :=
    ⟨fun _ _ h => h, fun _ _ h => by cases h⟩
  have hprop := Stmt.assignAlike_propagateAll (P := (tracking s m.body).propagates)
    (fun stmt (_ : stmt ∈ m.body) F => stmt.assignAlike_propagate F) fun _ => none
  have hsimp : List.Forall₂ Stmt.AssignAlike (m.propagate s).body (m.improve s).body :=
    List.forall₂_map_right_iff.mpr (List.forall₂_same.mpr fun stmt _ => stmt.assignAlike_simplify)
  have htracking : tracking s (m.improve s).body = tracking s m.body :=
    (tracking_congr hsimp s).trans (tracking_congr hprop s)
  have hbody : Stmt.normalizeAll (tracking s m.body).propagates (m.improve s).body (fun _ => none)
      = Stmt.normalizeAll (tracking s m.body).propagates m.body fun _ => none :=
    (Stmt.normalizeAll_map_simplify (fun stmt _ => stmt.normalize_simplify _) _).trans
      (Stmt.normalizeAll_propagateAll (fun stmt _ => stmt.keepsForm _) hnone).1
  rw [normalize, normalize, htracking, hbody]
  rfl

theorem MethodDecl.normalize_of_settled {s : Signature} {m : MethodDecl} (hprop : m.propagate s = m)
    (hsimp : m.simplify = m) : m.normalize s = m := by
  have hbody := Stmt.normalizeAll_of_settled (fun stmt _ => stmt.stable _)
    (congrArg MethodDecl.body hprop) (congrArg MethodDecl.body hsimp)
  rw [normalize, hbody]
  exact hprop

theorem NamedAlike.normalize {signatures : List Signature} {c : ClassDecl}
    (h : NamedAlike signatures c.methods) :
    NamedAlike signatures (c.normalize signatures).methods := by
  rw [ClassDecl.normalize]
  generalize c.methods = methods at h ⊢
  induction h with
  | nil => exact .nil
  | cons hname _ ih => exact .cons hname ih

theorem ClassDecl.normalize_improve (signatures : List Signature) (c : ClassDecl) :
    (c.improve signatures).normalize signatures = c.normalize signatures := by
  have hmethods : List.zipWith MethodDecl.normalize signatures (c.improve signatures).methods
      = List.zipWith MethodDecl.normalize signatures c.methods := by
    rw [methods_improve, List.zipWith_zipWith_right, List.zipWith3_same_left]
    simp only [MethodDecl.normalize_improve]
  rw [normalize, normalize, hmethods]
  rfl

theorem ClassDecl.normalize_improve_iterate (signatures : List Signature) (c : ClassDecl)
    (r : Nat) :
    ((improve signatures)^[r] c).normalize signatures = c.normalize signatures := by
  induction r generalizing c with
  | zero => rfl
  | succ r ih => rw [Function.iterate_succ_apply, ih, normalize_improve]

theorem ClassDecl.normalize_of_settled {signatures : List Signature} {c : ClassDecl}
    (hprop : c.propagate signatures = c) (hsimp : c.simplify = c) : c.normalize signatures = c := by
  have hmethods : ∀ {signatures : List Signature} {methods : List MethodDecl},
      List.zipWith MethodDecl.propagate signatures methods = methods →
      methods.map MethodDecl.simplify = methods →
      List.zipWith MethodDecl.normalize signatures methods = methods := by
    intro signatures methods
    induction methods generalizing signatures with
    | nil => simp
    | cons m methods ih =>
      cases signatures with
      | nil => simp
      | cons s signatures =>
        simp only [List.zipWith_cons_cons, List.map_cons, List.cons.injEq, and_imp]
        exact fun hp hps hs hss => ⟨m.normalize_of_settled hp hs, ih hps hss⟩
  rw [normalize, hmethods (congrArg methods hprop) (congrArg methods hsimp)]

/-! ### The optimizer -/

theorem Optimize.Settled.normalize_eq {t : Tree} {table : SymbolTable} {imports : List String}
    {c : ClassDecl} {rest : List ClassDecl} {b : Subtree} (hsettled : Settled table t)
    (h : t.Pictures ⟨imports, c :: rest⟩ b) (hnames : NamedAlike table.signatures c.methods) :
    c.normalize table.signatures = c := by
  obtain ⟨_, _, _, hrun₁, h₁, -⟩ := propagateConstants_ok countsReads_isRead h hnames
  obtain ⟨_, _, _, hrun₂, h₂, -⟩ := foldConstants_ok countsFolds_isCompound h
  obtain ⟨-, rfl⟩ := Prod.mk.inj (hsettled.1.symm.trans hrun₁)
  obtain ⟨-, rfl⟩ := Prod.mk.inj (hsettled.2.symm.trans hrun₂)
  have hprop := Option.some.inj (h₁.program?_eq.symm.trans h.program?_eq)
  have hsimp := Option.some.inj (h₂.program?_eq.symm.trans h.program?_eq)
  simp only [Program.simplify, Program.mk.injEq, List.map_cons, List.cons.injEq] at hprop hsimp
  exact ClassDecl.normalize_of_settled hprop.2.1 hsimp.2.1

/-- **The optimizer ends with the normal form**, in however many rounds. -/
theorem optimize_normalizes {t : Tree} {table : SymbolTable} {imports : List String}
    {c : ClassDecl} {rest : List ClassDecl} {b : Subtree} (h : t.Pictures ⟨imports, c :: rest⟩ b)
    (hnames : NamedAlike table.signatures c.methods) :
    ∃ stats t' b' rest', optimize table t = (.ok stats, t') ∧
      t'.Pictures ⟨imports, c.normalize table.signatures :: rest'⟩ b' := by
  obtain ⟨stats, t', b', hrun, h', -⟩ := optimize_ends h hnames
  have hsettled := settled_of_optimizeWithin (optimize_eq _ _ ▸ hrun)
  have hnormal := hsettled.normalize_eq h' (hnames.improve_iterate _)
  rw [ClassDecl.normalize_improve_iterate] at hnormal
  rw [← hnormal] at h'
  exact ⟨stats, t', b', _, hrun, h'⟩

theorem optimize_normalizes_single {t : Tree} {table : SymbolTable} {imports : List String}
    {c : ClassDecl} {b : Subtree} (h : t.Pictures ⟨imports, [c]⟩ b)
    (hnames : NamedAlike table.signatures c.methods) :
    ∃ stats t' b', optimize table t = (.ok stats, t') ∧
      t'.Pictures ⟨imports, [c.normalize table.signatures]⟩ b' := by
  obtain ⟨stats, t', b', rest', hrun, h'⟩ := optimize_normalizes h hnames
  obtain ⟨_, _, _, hrun₁, h₁⟩ := optimize_ok h hnames
  obtain ⟨-, rfl⟩ := Prod.mk.inj (hrun.symm.trans hrun₁)
  have hsame := Option.some.inj (h'.program?_eq.symm.trans h₁.program?_eq)
  obtain rfl : rest' = [] := (List.cons.inj (congrArg Program.classes hsame)).2
  exact ⟨stats, t', b', hrun, h'⟩

end Classlet
