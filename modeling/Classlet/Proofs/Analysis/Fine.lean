import Classlet.Proofs.Analysis.Acceptance

/-!
# What accepted parts satisfy

A part with which no judgement finds anything wrong (`Part.Fine`) has operands that fit it.  For
every form of expression and statement that is judged, what fits is read off here once: a name is
bound, an operand has a verdict that accepts it, and the arguments of a call fit the parameters of
the method that is called (`Part.Fine.call`).
-/

namespace Classlet

open Operands Values

variable {scope : Scope}

/-! ### Verdicts -/

theorem Verdict.of_eq_accepted {accepts : Ty → Bool} {e : ExprType}
    (h : Verdict.of scope accepts e = .accepted) :
    (∃ ty, e = .known ty ∧ accepts ty = true) ∨ e = .external ∧ scope.policy.isLenient = true := by
  cases e with
  | known ty =>
    refine .inl ⟨ty, rfl, ?_⟩
    by_contra hno
    simp [Verdict.of, hno] at h
  | external =>
    refine .inr ⟨rfl, ?_⟩
    by_contra hno
    simp [Verdict.of, hno] at h
  | unknown reason => cases h

namespace Operands

theorem unaryError?_eq_none {op : UnaryOp} {operand : ExprType}
    (h : unaryError? scope op operand = none) :
    Verdict.of scope (· = op.resultTy) operand = .accepted := by
  unfold unaryError? at h
  split at h
  · assumption
  · cases h
  · cases h

theorem conditionError?_eq_none {keyword : String} {cond : ExprType}
    (h : conditionError? scope keyword cond = none) :
    Verdict.of scope Ty.isBoolean cond = .accepted := by
  unfold conditionError? at h
  split at h
  · assumption
  · cases h
  · cases h

theorem ArrayRole.error?_eq_none {role : ArrayRole} {operand : ExprType}
    (h : role.error? scope operand = none) : Verdict.of scope role.accepts operand = .accepted := by
  unfold error? at h
  split at h
  · assumption
  · cases h
  · cases h

/-- The types an operator accepts on either side; `==` and `!=` accept all. -/
def operandAccepts (op : BinaryOp) : Ty → Bool :=
  if op.isEquality then fun _ => true else accepts op

theorem binaryError?_eq_none {op : BinaryOp} {lhs rhs : ExprType}
    (h : binaryError? scope op lhs rhs = none) :
    Verdict.of scope (operandAccepts op) lhs = .accepted ∧
      Verdict.of scope (operandAccepts op) rhs = .accepted := by
  have hverdict : ∀ v ∈ verdicts scope op lhs rhs, v = .accepted := by
    unfold binaryError? at h
    simp only at h
    split at h
    · cases h
    · next hnone =>
      split at h
      · cases h
      · next hrejected =>
        intro v hv
        cases v with
        | accepted => rfl
        | rejected => exact absurd (List.contains_iff_mem.mpr hv) hrejected
        | unresolved reason => cases List.findSome?_eq_none_iff.mp hnone _ hv
  unfold verdicts at hverdict
  unfold operandAccepts
  split at hverdict
  · next heq =>
    rw [if_pos heq]
    exact ⟨hverdict _ (by simp), hverdict _ (by simp)⟩
  · next hne =>
    rw [if_neg hne]
    exact ⟨hverdict _ (by simp), hverdict _ (by simp)⟩

end Operands

/-! ### Arguments -/

namespace Values

theorem mismatches_eq_nil {method : String} {number : Nat} {args : List ExprType} {types : List Ty}
    (h : mismatches scope method number args types = []) :
    ∀ p ∈ args.zip types, argumentFits scope p.2 p.1 = true := by
  induction args generalizing number types with
  | nil => simp
  | cons arg args ih =>
    cases types with
    | nil => simp
    | cons declared types =>
      rw [mismatches] at h
      split at h
      · next hfits =>
        rw [List.zip_cons_cons, List.forall_mem_cons]
        exact ⟨hfits, ih h⟩
      · cases h

/-- The arguments fit the parameters of the signature, one each; those for a variadic parameter are
integers or one array of them. -/
structure ArgumentsFit (scope : Scope) (m : Signature) (args : List ExprType) : Prop where
  count : if m.hasVarargs then m.fixedCount ≤ args.length else args.length = m.fixedCount
  fixed : ∀ p ∈ args.zip ((m.params.take m.fixedCount).map (·.ty)),
    argumentFits scope p.2 p.1 = true
  variadic : m.hasVarargs = true → isOneArray (args.drop m.fixedCount) = true ∨
    ∀ arg ∈ args.drop m.fixedCount, argumentFits scope .int arg = true

theorem argumentErrors_eq_nil {m : Signature} {args : List ExprType}
    (h : argumentErrors scope m args = []) : ArgumentsFit scope m args := by
  unfold argumentErrors at h
  simp only at h
  split at h
  · next hvar =>
    split at h
    · cases h
    · next hcount =>
      obtain ⟨hfixed, hrest⟩ := List.append_eq_nil_iff.mp h
      refine ⟨by rw [if_pos hvar]; omega, mismatches_eq_nil hfixed, fun _ => ?_⟩
      split at hrest
      · next hone => exact .inl hone
      · refine .inr fun arg harg => ?_
        have hzip := mismatches_eq_nil hrest
        generalize args.drop m.fixedCount = rest at harg hzip
        obtain ⟨i, hi⟩ := List.mem_iff_getElem?.mp harg
        exact hzip (arg, .int) (List.mem_iff_getElem?.mpr
          ⟨i, List.getElem?_zip_eq_some.mpr ⟨hi, by rw [List.getElem?_map, hi]; rfl⟩⟩)
  · next hvar =>
    split at h
    · next hcount =>
      refine ⟨by rw [if_neg hvar]; exact hcount, ?_, fun hvar' => absurd hvar' hvar⟩
      have hall : m.params.take m.fixedCount = m.params := by
        rw [Signature.fixedCount, if_neg hvar, List.take_length]
      rw [hall]
      exact mismatches_eq_nil h
    · cases h

/-- What the receiver of a call that is not reported is, and where its method is declared. -/
inductive CallChecked (scope : Scope) (method : String) (receiver : ExprType)
    (args : List ExprType) : Prop
  /-- The class declares the method. -/
  | declared {m : Signature} (howner : Owner.of scope receiver = .thisClass)
      (hm : scope.table.signature? method = some m) (hargs : ArgumentsFit scope m args)
  /-- The method is defined outside the unit, and the policy accepts that. -/
  | external (hlenient : scope.policy.isLenient = true)
      (hty : scope.typeOfCall method receiver = .external)

theorem externalMessages_eq_nil {method : String} (h : externalMessages scope method = []) :
    scope.policy.isLenient = true := by
  unfold externalMessages at h
  split at h
  · assumption
  · cases h

theorem argumentMessages_eq_nil {method : String} {receiver : ExprType} {args : List ExprType}
    (h : argumentMessages scope (.methodCall method) (receiver :: args) = []) :
    CallChecked scope method receiver args := by
  unfold argumentMessages at h
  cases howner : Owner.of scope receiver with
  | thisClass =>
    simp only [howner] at h
    cases hm : scope.table.signature? method with
    | some m =>
      simp only [hm] at h
      exact .declared howner hm (argumentErrors_eq_nil h)
    | none =>
      simp only [hm] at h
      split at h
      · next hsuper =>
        refine .external (externalMessages_eq_nil h) ?_
        simp only [Scope.typeOfCall, howner, hm, hsuper, if_true]
      · cases h
  | external =>
    simp only [howner] at h
    refine .external (externalMessages_eq_nil h) ?_
    simp only [Scope.typeOfCall, howner]
  | invalid ty | unresolved reason =>
    simp only [howner] at h
    cases h

end Values

/-! ### Parts -/

namespace Part.Fine

theorem messages_eq_nil {part : Part} (h : part.Fine scope) :
    Names.messages scope part.kind (part.types scope) = [] ∧
      operationMessages scope part.kind (part.types scope) = [] ∧
      conditionMessages scope part.kind (part.types scope) = [] ∧
      arrayMessages scope part.kind (part.types scope) = [] ∧
      returnMessages scope part.kind (part.types scope) = [] ∧
      assignmentMessages scope part.kind (part.types scope) = [] ∧
      argumentMessages scope part.kind (part.types scope) = [] := by
  simpa only [Part.Fine, judgements, List.forall_mem_cons, List.not_mem_nil, false_imp_iff,
    implies_true, and_true] using h

/-- A name that is read stands for something. -/
theorem name {x : String} (h : (Part.expr (.var x)).Fine scope) :
    Names.readError? scope x = none :=
  Option.toList_eq_nil_iff.mp h.messages_eq_nil.1

theorem binary {op : BinaryOp} {lhs rhs : Expr} (h : (Part.expr (.binary op lhs rhs)).Fine scope) :
    Verdict.of scope (operandAccepts op) (lhs.typeOf scope) = .accepted ∧
      Verdict.of scope (operandAccepts op) (rhs.typeOf scope) = .accepted :=
  binaryError?_eq_none (Option.toList_eq_nil_iff.mp h.messages_eq_nil.2.1)

theorem unary {op : UnaryOp} {operand : Expr} (h : (Part.expr (.unary op operand)).Fine scope) :
    Verdict.of scope (· = op.resultTy) (operand.typeOf scope) = .accepted :=
  unaryError?_eq_none (Option.toList_eq_nil_iff.mp h.messages_eq_nil.2.1)

theorem call {receiver : Expr} {method : String} {args : List Expr}
    (h : (Part.expr (.call receiver method args)).Fine scope) :
    CallChecked scope method (receiver.typeOf scope) (args.map (Expr.typeOf scope)) := by
  have harguments := h.messages_eq_nil.2.2.2.2.2.2
  rw [Part.types_expr] at harguments
  exact argumentMessages_eq_nil harguments

theorem index {array position : Expr} (h : (Part.expr (.index array position)).Fine scope) :
    Verdict.of scope Ty.isArray (array.typeOf scope) = .accepted ∧
      Verdict.of scope Ty.isInt (position.typeOf scope) = .accepted := by
  obtain ⟨harray, hposition⟩ := List.append_eq_nil_iff.mp h.messages_eq_nil.2.2.2.1
  exact ⟨ArrayRole.error?_eq_none (Option.toList_eq_nil_iff.mp harray),
    ArrayRole.error?_eq_none (Option.toList_eq_nil_iff.mp hposition)⟩

theorem length {array : Expr} (h : (Part.expr (.length array)).Fine scope) :
    Verdict.of scope Ty.isArray (array.typeOf scope) = .accepted :=
  ArrayRole.error?_eq_none (Option.toList_eq_nil_iff.mp h.messages_eq_nil.2.2.2.1)

theorem newArray {size : Expr} (h : (Part.expr (.newArray size)).Fine scope) :
    Verdict.of scope Ty.isInt (size.typeOf scope) = .accepted :=
  ArrayRole.error?_eq_none (Option.toList_eq_nil_iff.mp h.messages_eq_nil.2.2.2.1)

theorem arrayLit {elements : List Expr} (h : (Part.expr (.arrayLit elements)).Fine scope) :
    ∀ e ∈ elements, Verdict.of scope Ty.isInt (e.typeOf scope) = .accepted := by
  have helements := h.messages_eq_nil.2.2.2.1
  rw [Part.types_expr] at helements
  intro e he
  have hmessage := List.flatMap_eq_nil_iff.mp helements _ (List.mem_map_of_mem he)
  exact ArrayRole.error?_eq_none (Option.toList_eq_nil_iff.mp hmessage)

theorem condition {s : Stmt} {cond : Expr} (h : (Part.stmt s).Fine scope)
    (hk : s.kind = .ifStmt ∨ s.kind = .whileStmt)
    (ht : (Part.stmt s).types scope = [cond.typeOf scope]) :
    Verdict.of scope Ty.isBoolean (cond.typeOf scope) = .accepted := by
  have hcond := h.messages_eq_nil.2.2.1
  rw [ht] at hcond
  have hkind : (Part.stmt s).kind = s.kind := rfl
  rcases hk with hk | hk <;> rw [hkind, hk] at hcond <;>
    exact conditionError?_eq_none (Option.toList_eq_nil_iff.mp hcond)

theorem arrayAssign {target : String} {index value : Expr}
    (h : (Part.stmt (.arrayAssign target index value)).Fine scope) :
    elementTargetError? scope target = none ∧
      Verdict.of scope Ty.isInt (index.typeOf scope) = .accepted ∧
      Verdict.of scope Ty.isInt (value.typeOf scope) = .accepted := by
  obtain ⟨htarget, hoperands⟩ := List.append_eq_nil_iff.mp h.messages_eq_nil.2.2.2.1
  obtain ⟨hindex, hvalue⟩ := List.append_eq_nil_iff.mp hoperands
  exact ⟨Option.toList_eq_nil_iff.mp htarget,
    ArrayRole.error?_eq_none (Option.toList_eq_nil_iff.mp hindex),
    ArrayRole.error?_eq_none (Option.toList_eq_nil_iff.mp hvalue)⟩

theorem assign {target : String} {value : Expr}
    (h : (Part.stmt (.assign target value)).Fine scope) :
    Names.assignError? scope target = none ∧
      ∃ declared, targetTy? scope target = some declared ∧
        Values.assignError? scope target declared (value.typeOf scope) = none := by
  refine ⟨Option.toList_eq_nil_iff.mp h.messages_eq_nil.1, ?_⟩
  have hassign : assignmentMessages scope (.assign target) [value.typeOf scope] = [] :=
    h.messages_eq_nil.2.2.2.2.2.1
  rw [assignmentMessages] at hassign
  split at hassign
  · cases hassign
  · next declared htarget => exact ⟨declared, htarget, Option.toList_eq_nil_iff.mp hassign⟩

theorem ret {m : Signature} (hm : scope.method = some m) {value : Expr}
    (h : (Part.stmt (.ret (some value))).Fine scope) :
    m.returnType.isVoid = false ∧ returnError? scope m (value.typeOf scope) = none := by
  have hreturn : returnMessages scope .returnStmt [value.typeOf scope] = [] :=
    h.messages_eq_nil.2.2.2.2.1
  simp only [returnMessages, hm] at hreturn
  split at hreturn
  · cases hreturn
  · next hvoid => exact ⟨Bool.eq_false_iff.mpr hvoid, Option.toList_eq_nil_iff.mp hreturn⟩

end Part.Fine

end Classlet
