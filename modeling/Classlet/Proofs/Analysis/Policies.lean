import Classlet.Proofs.Analysis.FailFast

/-!
# Two policies

The types of expressions do not depend on the policy for what imports define; only the judgements on
types that are defined outside the unit do.  So the runs of a pass under two policies meet the same
nodes and halt in the same way, and one finds part of what the other finds, if it is the more lenient
one or if nothing in the unit is defined outside.  This is said of a check (`Check.Milder`), of every
visit of the nine passes (`Pass.Milder`) and then of their runs (`milder_run`).

Main statement: `lenient_sublist_strict`.
-/

namespace Classlet

/-! ### Two runs of a check -/

namespace Check

variable {α β : Type}

/-- The first check finds part of what the second finds, in the same order, and comes to the same
end. -/
structure Milder (c d : Check α) : Prop where
  findings : c.findings.Sublist d.findings
  result : c.result = d.result

namespace Milder

theorem refl (c : Check α) : Milder c c := ⟨.refl _, rfl⟩

theorem bind {c d : Check α} {f g : α → Check β} (h : Milder c d) (hf : ∀ a, Milder (f a) (g a)) :
    Milder (c >>= f) (d >>= g) := by
  obtain ⟨found, result⟩ := c
  obtain ⟨found', result'⟩ := d
  obtain ⟨hfound, hresult⟩ := h
  dsimp only at hfound hresult
  subst hresult
  rcases result with h | a
  · exact ⟨hfound, rfl⟩
  · exact ⟨hfound.append (hf a).findings, (hf a).result⟩

theorem after {x : Except Halt α} {f g : α → Check β} (hf : ∀ a, x = .ok a → Milder (f a) (g a)) :
    Milder (lift x >>= f) (lift x >>= g) := by
  rcases x with h | a
  · exact .refl _
  · exact hf a rfl

end Milder

theorem errors_of_node (id : NodeId) (kind : Kind) (p : Position) (children : Shapes)
    (messages : List String) : errors (.node id kind p children) messages
      = ⟨messages.map (Finding.mk p), .ok ()⟩ := by
  induction messages with
  | nil => rfl
  | cons message rest ih =>
    rw [errors, ih]
    rfl

theorem Milder.errors {s : Shape} {kind : Kind} (hs : s.kind = .ok kind) {few many : List String}
    (h : few.Sublist many) : Milder (errors s few) (errors s many) := by
  cases s with
  | broken id fault => cases hs
  | node id kind p children =>
    rw [errors_of_node, errors_of_node]
    exact ⟨h.map _, rfl⟩

end Check

/-! ### Types under two policies -/

/-- The scope under another policy. -/
abbrev Scope.under (scope : Scope) (policy : ExternalPolicy) : Scope := { scope with policy }

/-- Nothing in the unit is defined outside. -/
def SymbolTable.IsClosed (table : SymbolTable) : Prop := table.imports = [] ∧ table.superclass = none

/-- One policy leaves unchecked what the other leaves unchecked, unless there is no such thing. -/
def ExternalPolicy.Relaxes (table : SymbolTable) (p q : ExternalPolicy) : Prop :=
  ¬table.IsClosed → q.isLenient = true → p.isLenient = true

theorem SymbolTable.not_closed_of_isImported {table : SymbolTable} {name : String}
    (h : table.isImported name = true) : ¬table.IsClosed := by
  rintro ⟨himports, -⟩
  simp [isImported, himports] at h

theorem SymbolTable.not_closed_of_superclass {table : SymbolTable} {name : String}
    (h : table.superclass = some name) : ¬table.IsClosed := by
  rintro ⟨-, hsuper⟩
  rw [hsuper] at h
  cases h

theorem SymbolTable.not_closed_of_superclassIsImported {table : SymbolTable}
    (h : table.superclassIsImported = true) : ¬table.IsClosed := by
  rintro ⟨-, hsuper⟩
  simp [superclassIsImported, hsuper] at h

theorem Values.not_closed_of_isExternalPair {scope : Scope} {actual declared : Ty}
    (h : isExternalPair scope actual declared = true) : ¬scope.table.IsClosed := by
  simp only [isExternalPair, Bool.or_eq_true, Bool.and_eq_true] at h
  rcases h with (h | h) | ⟨-, h⟩
  · exact SymbolTable.not_closed_of_isImported h
  · exact SymbolTable.not_closed_of_isImported h
  · exact SymbolTable.not_closed_of_superclassIsImported h

theorem Owner.not_closed_of_external {scope : Scope} {ty : ExprType}
    (hty : ty = .external → ¬scope.table.IsClosed) (h : Owner.of scope ty = .external) :
    ¬scope.table.IsClosed := by
  cases ty with
  | external => exact hty rfl
  | unknown reason => cases h
  | known ty =>
    simp only [Owner.of] at h
    split at h
    · cases h
    · split at h
      · next himport =>
        rw [Bool.and_eq_true] at himport
        exact SymbolTable.not_closed_of_isImported himport.2
      · split at h
        · next hsuper =>
          rw [Bool.and_eq_true, beq_iff_eq] at hsuper
          exact SymbolTable.not_closed_of_superclass hsuper.2
        · cases h

namespace Scope

variable {scope : Scope}

theorem typeOfName_ne_external (name : String) : scope.typeOfName name ≠ .external := by
  unfold typeOfName
  split <;> simp

theorem element_ne_external (ty : ExprType) : ty.element ≠ .external := by
  cases ty with
  | known ty =>
    simp only [ExprType.element]
    split <;> simp
  | _ => simp [ExprType.element]

theorem not_closed_of_typeOfCall {method : String} {receiver : ExprType}
    (hty : receiver = .external → ¬scope.table.IsClosed)
    (h : scope.typeOfCall method receiver = .external) : ¬scope.table.IsClosed := by
  unfold typeOfCall at h
  split at h
  · split at h
    · cases h
    · split at h
      · next hsuper => exact SymbolTable.not_closed_of_superclassIsImported hsuper
      · cases h
  · next howner => exact Owner.not_closed_of_external hty howner
  · cases h
  · cases h

theorem not_closed_of_typeOfField {field : String} {object : ExprType}
    (hty : object = .external → ¬scope.table.IsClosed)
    (h : scope.typeOfField field object = .external) : ¬scope.table.IsClosed := by
  unfold typeOfField at h
  split at h
  · split at h
    · cases h
    · split at h
      · next hsuper => exact SymbolTable.not_closed_of_superclassIsImported hsuper
      · cases h
  · next howner => exact Owner.not_closed_of_external hty howner
  · cases h
  · cases h

end Scope

namespace Shape

variable {scope : Scope}

/-- **Types do not depend on the policy.** -/
theorem typeOf_under (policy : ExternalPolicy) (s : Shape) :
    s.typeOf (scope.under policy) = s.typeOf scope := by
  induction s using Shape.ind with
  | broken id fault => rfl
  | node id kind position children ih =>
    cases kind with
    | paren | methodCall | fieldAccess | arrayAccess =>
      cases children with
      | nil => rfl
      | cons c rest =>
        rw [Shape.typeOf, Shape.typeOf, ih c List.mem_cons_self]
        try rfl
    | _ => rfl

theorem typeOfChild_under (policy : ExternalPolicy) (s : Shape) (index : Nat) :
    s.typeOfChild (scope.under policy) index = s.typeOfChild scope index := by
  simp only [typeOfChild, typeOf_under]

theorem typesOf_under (policy : ExternalPolicy) (es : Shapes) :
    Values.typesOf (scope.under policy) es = Values.typesOf scope es := by
  induction es with
  | nil => rfl
  | cons e rest ih => simp only [Values.typesOf, typeOf_under, ih]

/-- **No type is defined outside a closed unit.** -/
theorem not_closed_of_typeOf {s : Shape} {ty : ExprType} (hs : s.typeOf scope = .ok ty) :
    ty = .external → ¬scope.table.IsClosed := by
  induction s using Shape.ind generalizing ty with
  | broken id fault => cases hs
  | node id kind position children ih =>
    cases kind with
    | paren =>
      cases children with
      | nil => cases hs
      | cons c rest => exact ih c List.mem_cons_self hs
    | methodCall method =>
      cases children with
      | nil => cases hs
      | cons c rest =>
        obtain ⟨receiver, hreceiver, hty⟩ := Halt.bind_ok hs
        cases hty
        exact Scope.not_closed_of_typeOfCall (ih c List.mem_cons_self hreceiver)
    | fieldAccess field =>
      cases children with
      | nil => cases hs
      | cons c rest =>
        obtain ⟨object, hobject, hty⟩ := Halt.bind_ok hs
        cases hty
        exact Scope.not_closed_of_typeOfField (ih c List.mem_cons_self hobject)
    | arrayAccess =>
      cases children with
      | nil => cases hs
      | cons c rest =>
        obtain ⟨array, -, hty⟩ := Halt.bind_ok hs
        cases hty
        exact fun h => absurd h (Scope.element_ne_external array)
    | varRef name =>
      cases hs
      exact fun h => absurd h (scope.typeOfName_ne_external name)
    | _ =>
      cases hs
      simp

theorem not_closed_of_typeOfChild {s : Shape} {index : Nat} {ty : ExprType}
    (hs : s.typeOfChild scope index = .ok ty) : ty = .external → ¬scope.table.IsClosed := by
  obtain ⟨c, -, hc⟩ := Halt.bind_ok hs
  exact not_closed_of_typeOf hc

theorem not_closed_of_typesOf {es : Shapes} {tys : List ExprType}
    (hs : Values.typesOf scope es = .ok tys) :
    ∀ ty ∈ tys, ty = .external → ¬scope.table.IsClosed := by
  induction es generalizing tys with
  | nil =>
    cases hs
    simp
  | cons e rest ih =>
    obtain ⟨ty, hty, hs⟩ := Halt.bind_ok hs
    obtain ⟨more, hmore, hs⟩ := Halt.bind_ok hs
    cases hs
    exact List.forall_mem_cons.mpr ⟨not_closed_of_typeOf hty, ih hmore⟩

end Shape

/-! ### Judgements under two policies -/

/-- The verdicts agree, or the first accepts what the second rejects. -/
def Verdict.Milder (v w : Verdict) : Prop := v = w ∨ v = .accepted ∧ w = .rejected

section Judgements

variable {scope : Scope} {p q : ExternalPolicy} {ty : ExprType}

theorem Verdict.milder_of (scope : Scope) (accepts : Ty → Bool)
    (h : ty = .external → q.isLenient = true → p.isLenient = true) :
    Verdict.Milder (.of (scope.under p) accepts ty) (.of (scope.under q) accepts ty) := by
  cases ty with
  | known | unknown => exact .inl rfl
  | external =>
    simp only [Verdict.of]
    by_cases hq : q.isLenient = true
    · rw [if_pos hq, if_pos (h rfl hq)]
      exact .inl rfl
    · rw [if_neg hq]
      split
      · exact .inr ⟨rfl, rfl⟩
      · exact .inl rfl

theorem unchecked_sublist (h : q.isLenient = true → p.isLenient = true) (message : String) :
    (if (scope.under p).policy.isLenient then none else some message).toList.Sublist
      (if (scope.under q).policy.isLenient then none else some message).toList := by
  by_cases hq : q.isLenient = true
  · rw [if_pos hq, if_pos (h hq)]
  · rw [if_neg hq]
    split
    · exact List.nil_sublist _
    · exact .refl _

namespace Operands

theorem unaryError?_sublist (op : UnaryOp)
    (h : ty = .external → q.isLenient = true → p.isLenient = true) :
    (unaryError? (scope.under p) op ty).toList.Sublist
      (unaryError? (scope.under q) op ty).toList := by
  unfold unaryError?
  rcases Verdict.milder_of scope (· = op.resultTy) h with hv | ⟨hv, -⟩ <;> rw [hv]
  exact List.nil_sublist _

theorem conditionError?_sublist (keyword : String)
    (h : ty = .external → q.isLenient = true → p.isLenient = true) :
    (conditionError? (scope.under p) keyword ty).toList.Sublist
      (conditionError? (scope.under q) keyword ty).toList := by
  unfold conditionError?
  rcases Verdict.milder_of scope Ty.isBoolean h with hv | ⟨hv, -⟩ <;> rw [hv]
  exact List.nil_sublist _

theorem ArrayRole.error?_sublist (role : ArrayRole)
    (h : ty = .external → q.isLenient = true → p.isLenient = true) :
    (role.error? (scope.under p) ty).toList.Sublist (role.error? (scope.under q) ty).toList := by
  unfold ArrayRole.error?
  rcases Verdict.milder_of scope role.accepts h with hv | ⟨hv, -⟩ <;> rw [hv]
  exact List.nil_sublist _

/-- Milder verdicts are unresolved for the same reason, and rejected together. -/
theorem reason_and_rejected {vs ws : List Verdict} (h : List.Forall₂ Verdict.Milder vs ws) :
    vs.findSome? reason? = ws.findSome? reason? ∧
      (vs.contains .rejected = true → ws.contains .rejected = true) := by
  induction h with
  | nil => exact ⟨rfl, id⟩
  | @cons v w vs ws hv _ ih =>
    obtain ⟨hreason, hrejected⟩ := ih
    rcases hv with rfl | ⟨rfl, rfl⟩
    · simp only [List.findSome?_cons, hreason, List.contains_cons, Bool.or_eq_true, true_and]
      exact Or.imp_right hrejected
    · exact ⟨hreason, fun _ => by simp⟩

theorem milder_verdicts (scope : Scope) (op : BinaryOp) {lhs rhs : ExprType}
    (hl : lhs = .external → q.isLenient = true → p.isLenient = true)
    (hr : rhs = .external → q.isLenient = true → p.isLenient = true) :
    List.Forall₂ Verdict.Milder (verdicts (scope.under p) op lhs rhs)
      (verdicts (scope.under q) op lhs rhs) := by
  unfold verdicts
  split
  · exact .cons (Verdict.milder_of scope _ hl) (.cons (Verdict.milder_of scope _ hr) (.cons (.inl rfl) .nil))
  · exact .cons (Verdict.milder_of scope _ hl) (.cons (Verdict.milder_of scope _ hr) .nil)

theorem binaryError?_sublist (op : BinaryOp) {lhs rhs : ExprType}
    (hl : lhs = .external → q.isLenient = true → p.isLenient = true)
    (hr : rhs = .external → q.isLenient = true → p.isLenient = true) :
    (binaryError? (scope.under p) op lhs rhs).toList.Sublist
      (binaryError? (scope.under q) op lhs rhs).toList := by
  obtain ⟨hreason, hrejected⟩ := reason_and_rejected (milder_verdicts scope op hl hr)
  unfold binaryError?
  simp only [hreason]
  split
  · exact .refl _
  · by_cases hv : (verdicts (scope.under p) op lhs rhs).contains .rejected = true
    · rw [if_pos hv, if_pos (hrejected hv)]
    · rw [if_neg hv]
      exact List.nil_sublist _

end Operands

namespace Values

theorem returnError?_sublist (m : Signature)
    (h : ty = .external → q.isLenient = true → p.isLenient = true) :
    (returnError? (scope.under p) m ty).toList.Sublist
      (returnError? (scope.under q) m ty).toList := by
  cases ty with
  | known actual => exact .refl _
  | unknown reason => exact .refl _
  | external => exact unchecked_sublist (h rfl) _

theorem assignError?_sublist (h : ExternalPolicy.Relaxes scope.table p q) (target : String)
    (declared : Ty) (hty : ty = .external → ¬scope.table.IsClosed) :
    (assignError? (scope.under p) target declared ty).toList.Sublist
      (assignError? (scope.under q) target declared ty).toList := by
  cases ty with
  | known actual =>
    simp only [assignError?]
    by_cases hfits : (scope.under p).isAssignable actual declared = true
    · rw [if_pos hfits]
      exact List.nil_sublist _
    · by_cases hpair : isExternalPair scope actual declared = true
      · have hfits' : ¬(scope.under q).isAssignable actual declared = true := hfits
        have hp : isExternalPair (scope.under p) actual declared = true := hpair
        have hq : isExternalPair (scope.under q) actual declared = true := hpair
        rw [if_neg hfits, if_neg hfits', if_pos hp, if_pos hq]
        exact unchecked_sublist (h (not_closed_of_isExternalPair hpair)) _
      · have hp : ¬isExternalPair (scope.under p) actual declared = true := hpair
        have hq : ¬isExternalPair (scope.under q) actual declared = true := hpair
        rw [if_neg hp, if_neg hq]
        exact .refl _
  | unknown reason => exact .refl _
  | external => exact unchecked_sublist (h (hty rfl)) _

theorem argumentFits_of_argumentFits (declared : Ty)
    (h : ty = .external → q.isLenient = true → p.isLenient = true)
    (hfits : argumentFits (scope.under q) declared ty = true) :
    argumentFits (scope.under p) declared ty = true := by
  cases ty with
  | external => exact h rfl hfits
  | _ => exact hfits

theorem mismatches_sublist (method : String) {tys : List ExprType}
    (h : ∀ ty ∈ tys, ty = .external → q.isLenient = true → p.isLenient = true) (number : Nat)
    (declared : List Ty) : (mismatches (scope.under p) method number tys declared).Sublist
      (mismatches (scope.under q) method number tys declared) := by
  induction tys generalizing number declared with
  | nil => exact .refl _
  | cons ty tys ih =>
    rw [List.forall_mem_cons] at h
    cases declared with
    | nil => exact .refl _
    | cons d rest =>
      have hrest := ih h.2 (number + 1) rest
      simp only [mismatches]
      by_cases hq : argumentFits (scope.under q) d ty = true
      · rw [if_pos hq, if_pos (argumentFits_of_argumentFits d h.1 hq)]
        exact hrest
      · rw [if_neg hq]
        split
        · exact hrest.cons _
        · exact hrest.cons_cons _

theorem argumentErrors_sublist (m : Signature) {tys : List ExprType}
    (h : ∀ ty ∈ tys, ty = .external → q.isLenient = true → p.isLenient = true) :
    (argumentErrors (scope.under p) m tys).Sublist (argumentErrors (scope.under q) m tys) := by
  simp only [argumentErrors]
  split
  · split
    · exact .refl _
    · refine (mismatches_sublist _ h _ _).append ?_
      split
      · exact .refl _
      · exact mismatches_sublist _ (fun ty hty => h ty (List.mem_of_mem_drop hty)) _ _
  · split
    · exact mismatches_sublist _ h _ _
    · exact .refl _

end Values

end Judgements

/-! ### Visits under two policies -/

/-- Under a more lenient policy the pass finds part of what it finds otherwise. -/
structure Pass.Milder (pass : Pass) : Prop where
  visit : ∀ (t : Tree) (scope : Scope) (p q : ExternalPolicy) (s : Shape),
    ExternalPolicy.Relaxes scope.table p q →
      (pass.visit t (scope.under p) s).Milder (pass.visit t (scope.under q) s)
  finish : ∀ (scope : Scope) (p q : ExternalPolicy),
    pass.finish (scope.under p) = pass.finish (scope.under q)

open Check

theorem Pass.Milder.of_eq {pass : Pass} (hv : ∀ t scope p s,
      pass.visit t (Scope.under scope p) s = pass.visit t scope s)
    (hf : ∀ scope p, pass.finish (Scope.under scope p) = pass.finish scope) : pass.Milder where
  visit t scope p q s _ := by
    rw [hv t scope p, hv t scope q]
    exact .refl _
  finish scope p q := by rw [hf scope p, hf scope q]

namespace Operands

theorem milder_operationPass : operationPass.Milder where
  finish _ _ _ := rfl
  visit t scope p q s h := by
    refine Check.Milder.after fun kind hk => ?_
    cases kind with
    | binary op =>
      simp only [Shape.typeOfChild_under]
      refine .after fun lhs hl => .after fun rhs hr => .errors hk ?_
      exact binaryError?_sublist op (fun he => h (Shape.not_closed_of_typeOfChild hl he))
        fun he => h (Shape.not_closed_of_typeOfChild hr he)
    | unary op =>
      simp only [Shape.typeOfChild_under]
      refine .after fun operand ho => .errors hk ?_
      exact unaryError?_sublist op fun he => h (Shape.not_closed_of_typeOfChild ho he)
    | _ => exact .refl _

theorem milder_conditionPass : conditionPass.Milder where
  finish _ _ _ := rfl
  visit t scope p q s h := by
    refine Check.Milder.after fun kind hk => ?_
    cases kind with
    | ifStmt | whileStmt =>
      simp only [Shape.typeOfChild_under]
      refine .after fun cond hc => .errors hk ?_
      exact conditionError?_sublist _ fun he => h (Shape.not_closed_of_typeOfChild hc he)
    | _ => exact .refl _

section Arrays

variable {scope : Scope} {p q : ExternalPolicy} {s : Shape} {kind : Kind}
  (h : ExternalPolicy.Relaxes scope.table p q) (hk : s.kind = .ok kind)
include h hk

theorem ArrayRole.milder_check (role : ArrayRole) {operand : Except Halt ExprType}
    (ho : ∀ ty, operand = .ok ty → ty = .external → ¬scope.table.IsClosed) :
    (role.check (scope.under p) s operand).Milder (role.check (scope.under q) s operand) :=
  .after fun ty hty => .errors hk (role.error?_sublist fun he => h (ho ty hty he))

theorem ArrayRole.milder_check_child (role : ArrayRole) (index : Nat) :
    (role.check (scope.under p) s (s.typeOfChild (scope.under p) index)).Milder
      (role.check (scope.under q) s (s.typeOfChild (scope.under q) index)) := by
  rw [Shape.typeOfChild_under p, Shape.typeOfChild_under q]
  exact role.milder_check h hk fun ty hty => Shape.not_closed_of_typeOfChild hty

theorem milder_checkElements (es : Shapes) :
    (checkElements (scope.under p) s es).Milder (checkElements (scope.under q) s es) := by
  induction es with
  | nil => exact .refl _
  | cons e rest ih =>
    simp only [checkElements, Shape.typeOf_under]
    exact (ArrayRole.element.milder_check h hk fun ty hty => Shape.not_closed_of_typeOf hty).bind
      fun _ => ih

end Arrays

theorem milder_arrayPass : arrayPass.Milder where
  finish _ _ _ := rfl
  visit t scope p q s h := by
    refine Check.Milder.after fun kind hk => ?_
    cases kind with
    | arrayAccess =>
      exact (ArrayRole.milder_check_child h hk ..).bind fun _ => ArrayRole.milder_check_child h hk ..
    | arrayLength | newArray => exact ArrayRole.milder_check_child h hk ..
    | arrayLit => exact .after fun es _ => milder_checkElements h hk es
    | arrayAssign target =>
      refine (Check.Milder.refl _).bind fun _ => ?_
      exact (ArrayRole.milder_check_child h hk ..).bind fun _ => ArrayRole.milder_check_child h hk ..
    | _ => exact .refl _

end Operands

namespace Values

theorem milder_returnPass : returnPass.Milder where
  finish _ _ _ := rfl
  visit t scope p q s h := by
    refine Check.Milder.after fun kind hk => ?_
    cases kind with
    | returnStmt =>
      obtain ⟨table, _ | m, policy⟩ := scope
      · exact .refl _
      · refine Check.Milder.after fun children hc => ?_
        cases children with
        | nil => exact .refl _
        | cons value rest =>
          dsimp only
          split
          · exact .refl _
          · simp only [Shape.typeOf_under]
            refine .after fun actual ha => .errors hk ?_
            exact returnError?_sublist m fun he => h (Shape.not_closed_of_typeOf ha he)
    | _ => exact .refl _

theorem milder_assignmentPass : assignmentPass.Milder where
  finish _ _ _ := rfl
  visit t scope p q s h := by
    refine Check.Milder.after fun kind hk => ?_
    cases kind with
    | assign target =>
      have htarget : ∀ policy, targetTy? (scope.under policy) target = targetTy? scope target :=
        fun _ => rfl
      simp only [htarget, Shape.typeOfChild_under]
      rcases targetTy? scope target with _ | declared
      · exact .refl _
      · refine .after fun actual ha => .errors hk ?_
        exact assignError?_sublist h target declared (Shape.not_closed_of_typeOfChild ha)
    | _ => exact .refl _

theorem milder_checkExternal {scope : Scope} {p q : ExternalPolicy} {s : Shape} {kind : Kind}
    (hpq : q.isLenient = true → p.isLenient = true) (hk : s.kind = .ok kind) (method : String) :
    (checkExternal (scope.under p) s method).Milder (checkExternal (scope.under q) s method) := by
  simp only [checkExternal]
  by_cases hq : q.isLenient = true
  · rw [if_pos hq, if_pos (hpq hq)]
    exact .refl _
  · rw [if_neg hq]
    split
    · cases s with
      | broken id fault => cases hk
      | node id kind p children => exact ⟨List.nil_sublist _, rfl⟩
    · exact .refl _

theorem milder_argumentPass : argumentPass.Milder where
  finish _ _ _ := rfl
  visit t scope p q s h := by
    refine Check.Milder.after fun kind hk => ?_
    cases kind with
    | methodCall method =>
      have howner : ∀ policy ty, Owner.of (scope.under policy) ty = Owner.of scope ty := by
        intro policy ty
        cases ty <;> rfl
      simp only [Shape.typeOfChild_under, howner]
      refine .after fun receiver hr => ?_
      cases ho : Owner.of scope receiver with
      | thisClass =>
        dsimp only
        rcases scope.table.signature? method with _ | m
        · dsimp only
          split
          · next hsuper =>
            have hopen := SymbolTable.not_closed_of_superclassIsImported hsuper
            exact milder_checkExternal (h hopen) hk method
          · exact .refl _
        · refine .after fun children _ => ?_
          simp only [Shape.typesOf_under]
          refine .after fun tys htys => .errors hk (argumentErrors_sublist m fun ty hty he => ?_)
          exact h (Shape.not_closed_of_typesOf htys ty hty he)
      | external =>
        have hopen := Owner.not_closed_of_external (Shape.not_closed_of_typeOfChild hr) ho
        exact milder_checkExternal (h hopen) hk method
      | _ => exact .refl _
    | _ => exact .refl _

end Values

/-- **The standard passes are milder under a more lenient policy.** -/
theorem Pass.milder_standard : ∀ pass ∈ Pass.standard, pass.Milder := by
  simp only [Pass.standard, List.forall_mem_cons, List.not_mem_nil, false_imp_iff, implies_true,
    and_true]
  exact ⟨.of_eq (fun _ _ _ _ => rfl) fun _ _ => rfl, Operands.milder_operationPass,
    Operands.milder_conditionPass, Operands.milder_arrayPass, Values.milder_returnPass,
    Values.milder_assignmentPass, Values.milder_argumentPass,
    .of_eq (fun _ _ _ _ => rfl) fun _ _ => rfl, .of_eq (fun _ _ _ _ => rfl) fun _ _ => rfl⟩

/-! ### Runs under two policies -/

namespace Pass

variable {pass : Pass} {t : Tree} {scope : Scope} {p q : ExternalPolicy}

theorem enter_under (scope : Scope) (policy : ExternalPolicy) (index : Nat) (name : String) :
    (scope.under policy).enter index name = (scope.enter index name).map (·.under policy) := by
  simp only [Scope.enter]
  rcases scope.table.declared index name with h | s <;> rfl

theorem table_of_enter {inner : Scope} {index : Nat} {name : String}
    (h : scope.enter index name = .ok inner) : inner.table = scope.table := by
  obtain ⟨s, -, hs⟩ := Halt.bind_ok h
  cases hs
  rfl

theorem milder_walkChildren {children : Shapes}
    (ih : ∀ c ∈ children, ∀ scope : Scope, ExternalPolicy.Relaxes scope.table p q →
      (pass.walk t (scope.under p) (c ())).Milder (pass.walk t (scope.under q) (c ())))
    (h : ExternalPolicy.Relaxes scope.table p q) (index : Nat) :
    (pass.walkChildren t (scope.under p) index children).Milder
      (pass.walkChildren t (scope.under q) index children) := by
  induction children generalizing index with
  | nil => exact .refl _
  | cons c rest ihrest =>
    rw [List.forall_mem_cons] at ih
    rw [Pass.walkChildren, Pass.walkChildren]
    refine .after fun kind _ => ?_
    cases kind with
    | methodDecl name isPublic isStatic =>
      simp only [enter_under]
      rcases hs : scope.enter index name with halt | inner
      · exact .refl _
      · refine (ih.1 inner ?_).bind fun _ => ihrest ih.2 _
        rw [table_of_enter hs]
        exact h
    | _ => exact (ih.1 scope h).bind fun _ => ihrest ih.2 _

theorem Milder.walk (hpass : pass.Milder) (s : Shape) : ∀ scope : Scope,
    ExternalPolicy.Relaxes scope.table p q →
      (pass.walk t (scope.under p) s).Milder (pass.walk t (scope.under q) s) := by
  induction s using Shape.ind with
  | node id kind position children ih =>
    intro scope h
    rw [Pass.walk, Pass.walk]
    exact (hpass.visit t scope p q _ h).bind fun _ => milder_walkChildren ih h 0
  | broken id fault =>
    intro scope h
    rw [Pass.walk, Pass.walk]
    exact (hpass.visit t scope p q _ h).bind fun _ => .refl _

theorem Milder.run (hpass : pass.Milder) (h : ExternalPolicy.Relaxes scope.table p q) :
    (pass.run t (scope.under p)).Milder (pass.run t (scope.under q)) := by
  refine (hpass.walk (t.shape t.root) scope h).bind fun _ => ?_
  rw [hpass.finish scope p q]
  exact .refl _

theorem reportsOf_sublist (name : String) {c d : Check Unit} (h : c.Milder d) :
    (reportsOf name c).Sublist (reportsOf name d) := by
  obtain ⟨found, result⟩ := c
  obtain ⟨found', result'⟩ := d
  obtain ⟨hfound, hresult⟩ := h
  dsimp only at hfound hresult
  subst hresult
  rcases result with (e | f) | ⟨⟩
  · exact (hfound.map _).append (.refl _)
  · exact .refl _
  · exact hfound.map _

theorem Milder.reports (hpass : pass.Milder) (t : Tree) (scope : Scope)
    (h : ExternalPolicy.Relaxes scope.table p q) :
    (pass.reports t (scope.under p)).Sublist (pass.reports t (scope.under q)) :=
  reportsOf_sublist _ (hpass.run h)

end Pass

theorem analyzeWith_congr {t : Tree} {scope scope' : Scope} {passes : List Pass}
    (h : ∀ pass ∈ passes, pass.reports t scope = pass.reports t scope') :
    analyzeWith t scope passes = analyzeWith t scope' passes := by
  induction passes with
  | nil => rfl
  | cons pass passes ih =>
    rw [List.forall_mem_cons] at h
    rw [analyzeWith_cons_eq, analyzeWith_cons_eq, h.1, ih h.2]

/-- **The strict policy only adds rejections.**  What one of the standard passes reports under the
lenient policy is part of what it reports under the strict one, in the same order; so a tree that is
accepted under the strict policy is accepted under the lenient one.  If the unit has no imports and
the class no superclass, both policies report the same. -/
theorem lenient_sublist_strict (t : Tree) (table : SymbolTable) :
    (∀ pass ∈ Pass.standard, (analyzeWith t (.ofTable table .assumeCompatible) [pass]).Sublist
      (analyzeWith t (.ofTable table .strict) [pass])) ∧
    (analyze .strict t table = [] → analyze .assumeCompatible t table = []) ∧
    (table.imports = [] → table.superclass = none →
      analyze .assumeCompatible t table = analyze .strict t table) := by
  have hsub : ∀ pass ∈ Pass.standard, (analyzeWith t (.ofTable table .assumeCompatible) [pass]).Sublist
      (analyzeWith t (.ofTable table .strict) [pass]) := by
    intro pass hpass
    rw [analyzeWith_singleton, analyzeWith_singleton]
    exact (Pass.milder_standard pass hpass).reports t (.ofTable table .strict) fun _ _ => rfl
  refine ⟨hsub, fun hstrict => ?_, fun himports hsuper => ?_⟩
  · rw [analyze, analyzeWith_eq_nil_iff_each] at hstrict ⊢
    intro pass hpass
    have hnil := hsub pass hpass
    rw [hstrict pass hpass] at hnil
    exact List.sublist_nil.mp hnil
  · refine analyzeWith_congr fun pass hpass => List.Sublist.antisymm ?_ ?_
    · exact (Pass.milder_standard pass hpass).reports t (.ofTable table .strict)
        fun hopen => absurd ⟨himports, hsuper⟩ hopen
    · exact (Pass.milder_standard pass hpass).reports t (.ofTable table .strict)
        fun hopen => absurd ⟨himports, hsuper⟩ hopen

/-- A program of one class, whose method `run` calls a method of the receiver. -/
def callingUnit (imports : List String) (receiver : Expr) (method : String) : Program where
  imports
  classes := [{
    name := "Caller"
    superclass := none
    fields := []
    methods := [⟨"run", true, false, some ⟨"void", false, false⟩, [], [],
      [.expr (.call receiver method [])]⟩] }]

/-- A call on an imported class is reported by the strict policy only, a call of the method itself by
none, and a call of a missing method by both. -/
theorem lenient_sublist_strict_calls :
    (∃ t table, (analyzeWith t (.ofTable table .assumeCompatible) [Values.argumentPass]).Sublist
        (analyzeWith t (.ofTable table .strict) [Values.argumentPass]) ∧
      analyzeWith t (.ofTable table .assumeCompatible) [Values.argumentPass] = [] ∧
      analyzeWith t (.ofTable table .strict) [Values.argumentPass] ≠ []) ∧
    (∃ t table, analyze .strict t table = [] ∧ analyze .assumeCompatible t table = []) ∧
    ∃ t table, table.imports = [] ∧ table.superclass = none ∧ analyze .strict t table ≠ [] ∧
      analyze .assumeCompatible t table = analyze .strict t table := by
  let abroad := callingUnit ["lib.Console"] (.var "Console") "print"
  let home := callingUnit [] .this "run"
  let missing := callingUnit [] .this "walk"
  refine ⟨⟨abroad.build, .ofDecls ["lib.Console"] abroad.classes[0],
      (lenient_sublist_strict _ _).1 Values.argumentPass ?_, by decide +kernel, by decide +kernel⟩,
    ⟨home.build, .ofDecls [] home.classes[0], by decide +kernel,
      (lenient_sublist_strict _ _).2.1 (by decide +kernel)⟩,
    missing.build, .ofDecls [] missing.classes[0], rfl, rfl, by decide +kernel,
    (lenient_sublist_strict _ _).2.2 rfl rfl⟩
  simp [Pass.standard]

end Classlet
