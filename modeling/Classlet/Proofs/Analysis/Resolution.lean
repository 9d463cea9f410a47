import Classlet.Proofs.Analysis.Fine
import Classlet.Proofs.Semantics.Source
import Classlet.Proofs.Symbols.Places

/-!
# Expressions without a type

Analysis has no type for an expression that goes back to something nobody declares.  In an accepted
class such an expression is a field read (`exists_field_of_unknown`), and it stands only where no
pass asks for its type: as a statement, as the object of another field read, or as an argument of a
call that is defined outside the unit (`unjudged_of_unknown`).

There it is not reported: `missing_field_accepted`.
-/

namespace Classlet

open Operands Semantics Values

variable {scope : Scope} {e : Expr} {reason : String}

/-- The places of an expression where analysis does not ask for its type. -/
inductive Unjudged (scope : Scope) (e : Expr) : Part → Prop
  | statement : Unjudged scope e (.stmt (.expr e))
  | paren : Unjudged scope e (.expr (.paren e))
  | object (name : String) : Unjudged scope e (.expr (.field e name))
  | argument {receiver : Expr} {method : String} {args : List Expr} (he : e ∈ args)
      (hexternal : scope.typeOfCall method (receiver.typeOf scope) = .external) :
      Unjudged scope e (.expr (.call receiver method args))

theorem Verdict.of_unknown_ne {accepts : Ty → Bool} (hu : e.typeOf scope = .unknown reason) :
    Verdict.of scope accepts (e.typeOf scope) ≠ .accepted := by
  rw [hu]
  exact nofun

theorem Values.ArgumentsFit.ne_unknown {m : Signature} {args : List ExprType}
    (h : ArgumentsFit scope m args) : ∀ arg ∈ args, arg ≠ .unknown reason := by
  have hfits : ∀ {declared : Ty} {arg : ExprType}, argumentFits scope declared arg = true →
      arg ≠ .unknown reason := by
    rintro declared _ hfit rfl
    cases hfit
  intro arg harg
  rw [← List.take_append_drop m.fixedCount args, List.mem_append] at harg
  rcases harg with harg | harg
  · -- one of the parameters that take one argument each
    obtain ⟨i, hi⟩ := List.mem_iff_getElem?.mp harg
    have hlt : i < m.fixedCount := by
      rw [List.getElem?_take] at hi
      by_contra hge
      rw [if_neg hge] at hi
      cases hi
    have hparams : m.fixedCount ≤ m.params.length := by
      unfold Signature.fixedCount
      split <;> omega
    rw [List.getElem?_take_of_lt hlt] at hi
    have hdeclared : ((m.params.take m.fixedCount).map (·.ty))[i]? = some m.params[i].ty := by
      rw [List.getElem?_map, List.getElem?_take_of_lt hlt, List.getElem?_eq_getElem]
      rfl
    exact hfits (h.fixed (arg, _) (List.mem_iff_getElem?.mpr
      ⟨i, List.getElem?_zip_eq_some.mpr ⟨hi, hdeclared⟩⟩))
  · have hvar : m.hasVarargs = true := by
      by_contra hno
      have hcount := h.count
      rw [if_neg hno] at hcount
      rw [← hcount, List.drop_length] at harg
      cases harg
    rcases h.variadic hvar with hone | hall
    · generalize args.drop m.fixedCount = rest at harg hone
      rintro rfl
      match rest, hone with
      | [.known ty], _ => simp at harg
    · exact hfits (hall arg harg)

theorem unjudged_expr_of_unknown {whole : Expr} (hfine : (Part.expr whole).Fine scope)
    (he : e ∈ whole.parts) (hu : e.typeOf scope = .unknown reason) :
    Unjudged scope e (.expr whole) := by
  have hne : ∀ {accepts : Ty → Bool}, Verdict.of scope accepts (e.typeOf scope) ≠ .accepted :=
    Verdict.of_unknown_ne hu
  cases whole with
  | paren inner =>
    obtain rfl := List.mem_singleton.mp he
    exact .paren
  | field object name =>
    obtain rfl := List.mem_singleton.mp he
    exact .object name
  | binary op lhs rhs =>
    simp only [Expr.parts, List.mem_cons, List.not_mem_nil, or_false] at he
    rcases he with rfl | rfl
    · exact absurd hfine.binary.1 hne
    · exact absurd hfine.binary.2 hne
  | unary op operand =>
    obtain rfl := List.mem_singleton.mp he
    exact absurd hfine.unary hne
  | index array position =>
    simp only [Expr.parts, List.mem_cons, List.not_mem_nil, or_false] at he
    rcases he with rfl | rfl
    · exact absurd hfine.index.1 hne
    · exact absurd hfine.index.2 hne
  | length array =>
    obtain rfl := List.mem_singleton.mp he
    exact absurd hfine.length hne
  | newArray size =>
    obtain rfl := List.mem_singleton.mp he
    exact absurd hfine.newArray hne
  | arrayLit elements => exact absurd (hfine.arrayLit e he) hne
  | call receiver method args =>
    rcases List.mem_cons.mp he with rfl | he
    · rcases hfine.call with ⟨howner, -, -⟩ | ⟨-, hty⟩
      · rw [hu] at howner
        cases howner
      · rw [hu] at hty
        cases hty
    · rcases hfine.call with ⟨-, -, hargs⟩ | ⟨-, hty⟩
      · exact absurd hu (hargs.ne_unknown _ (List.mem_map_of_mem he))
      · exact .argument he hty
  | _ => cases he

theorem unjudged_stmt_of_unknown {s : Stmt} {m : Signature} (hm : scope.method = some m)
    (hfine : (Part.stmt s).Fine scope) (he : .expr e ∈ s.parts)
    (hu : e.typeOf scope = .unknown reason) : Unjudged scope e (.stmt s) := by
  have hne : ∀ {accepts : Ty → Bool}, Verdict.of scope accepts (e.typeOf scope) ≠ .accepted :=
    Verdict.of_unknown_ne hu
  cases s with
  | expr value =>
    obtain ⟨⟩ := List.mem_singleton.mp he
    exact .statement
  | assign target value =>
    obtain ⟨⟩ := List.mem_singleton.mp he
    obtain ⟨-, declared, -, hassign⟩ := hfine.assign
    rw [hu] at hassign
    cases hassign
  | arrayAssign target index value =>
    simp only [Stmt.parts, List.mem_cons, Part.expr.injEq, List.not_mem_nil, or_false] at he
    rcases he with rfl | rfl
    · exact absurd hfine.arrayAssign.2.1 hne
    · exact absurd hfine.arrayAssign.2.2 hne
  | ret value =>
    obtain ⟨a, ha, ⟨⟩⟩ := List.mem_map.mp he
    obtain rfl : value = some e := Option.mem_toList.mp ha
    obtain ⟨-, hreturn⟩ := hfine.ret hm
    rw [hu] at hreturn
    cases hreturn
  | ifThen cond body | whileDo cond body | ifElse cond body otherwise =>
    simp only [Stmt.parts, List.mem_cons, Part.expr.injEq, reduceCtorEq, List.not_mem_nil,
      or_false] at he
    subst he
    exact absurd (hfine.condition (by simp [Stmt.kind]) rfl) hne
  | block body => obtain ⟨_, -, ⟨⟩⟩ := List.mem_map.mp he

/-- **Where an expression without a type stands** in a part with which nothing is wrong. -/
theorem unjudged_of_unknown {part : Part} {m : Signature} (hm : scope.method = some m)
    (hfine : part.Fine scope) (he : .expr e ∈ part.parts) (hu : e.typeOf scope = .unknown reason) :
    Unjudged scope e part := by
  cases part with
  | expr whole =>
    obtain ⟨a, ha, ⟨⟩⟩ := List.mem_map.mp he
    exact unjudged_expr_of_unknown hfine ha hu
  | stmt s => exact unjudged_stmt_of_unknown hm hfine he hu
  | _ => simp [Part.parts, MethodDecl.parts, ClassDecl.parts, Program.parts] at he

/-- **What an expression without a type is**, where nothing is wrong with the parts of it. -/
theorem exists_field_of_unknown
    (hfine : ∀ part : Part, part.Inside (.expr e) → part.Fine scope)
    (hu : e.typeOf scope = .unknown reason) : ∃ object name, unparen e = .field object name := by
  induction e with
  | paren inner ih =>
    exact ih (fun part hpart => hfine part (hpart.trans (.of_mem (List.mem_singleton_self _)))) hu
  | field object name => exact ⟨object, name, rfl⟩
  | var x =>
    have hname := (hfine _ (.refl _)).name
    rw [Expr.typeOf, Scope.typeOfName] at hu
    unfold Names.readError? at hname
    split at hu <;> simp_all
  | call receiver method args =>
    rw [Expr.typeOf] at hu
    rcases (hfine _ (.refl _)).call with ⟨howner, hm, -⟩ | ⟨-, hty⟩
    · rw [Scope.typeOfCall, howner] at hu
      simp only [hm] at hu
      cases hu
    · rw [hty] at hu
      cases hu
  | index array position =>
    have helement : ∀ ty : ExprType, ty.element ≠ .unknown reason := by
      intro ty
      cases ty with
      | known ty => rw [ExprType.element]; split <;> simp
      | _ => simp [ExprType.element]
    exact absurd hu (helement _)
  | _ => cases hu

/-- **In an accepted class only field reads whose type is not asked for have none.**  Names, calls
and everything else have a known type or one that is defined outside the unit; so does every field
read that is an operand, a condition, an index, a receiver, an assigned or returned value, or an
argument for a declared method. -/
theorem unknown_of_accepted {imports : List String} {c : ClassDecl} {policy : ExternalPolicy}
    {table : SymbolTable} {reports : List Report}
    (htable : (Program.mk imports [c]).build.symbolTable = .ok (table, reports))
    (haccepted : analyze policy (Program.mk imports [c]).build table = []) {m : MethodDecl}
    (hm : m ∈ c.methods) (hin : (Part.expr e).Inside (.method m))
    (hu : e.typeOf ⟨table, some (.ofDecl m), policy⟩ = .unknown reason) :
    (∃ object name, unparen e = .field object name) ∧
      ∀ part : Part, part.Inside (.method m) → .expr e ∈ part.parts →
        Unjudged ⟨table, some (.ofDecl m), policy⟩ e part := by
  obtain ⟨b, hb⟩ := (Program.mk imports [c]).pictures_build
  obtain ⟨_, hofDecls⟩ := hb.symbolTable_ok
  rw [hofDecls] at htable
  cases htable
  have haccepts := (analyze_eq_nil_iff hb (namedAlike_ofDecl c.methods)).mp haccepted
  have hfine := haccepts.bodies (.ofDecl m, m) (mem_zip_ofDecl.mpr ⟨hm, rfl⟩)
  exact ⟨exists_field_of_unknown (fun part hpart => hfine part (hpart.trans hin)) hu,
    fun part hpart he => unjudged_of_unknown rfl (hfine part hpart) he hu⟩

/-- A statement that reads a field which nobody declares. -/
def missingField : Program := ⟨[], [{
  name := "Missing"
  superclass := none
  fields := []
  methods := [
    { name := "run"
      isPublic := true
      isStatic := false
      returnType := some ⟨"void", false, false⟩
      params := []
      locals := []
      body := [.expr (.field .this "missing")] }] }]⟩

/-- The read in `missingField` stands as a statement. -/
theorem unknown_of_accepted_missingField :
    ∃ table, missingField.build.symbolTable = .ok (table, []) ∧
      analyze .strict missingField.build table = [] ∧
      (∃ object name, unparen (.field .this "missing") = .field object name) ∧
      ∀ part : Part, part.Inside (.method missingField.classes[0].methods[0]) →
        .expr (.field .this "missing") ∈ part.parts →
        Unjudged ⟨table, some (.ofDecl missingField.classes[0].methods[0]), .strict⟩
          (.field .this "missing") part := by
  let table : SymbolTable := .ofDecls [] missingField.classes[0]
  have htable : missingField.build.symbolTable = .ok (table, []) := by decide +kernel
  have haccepted : analyze .strict missingField.build table = [] := by decide +kernel
  have hin : (Part.expr (.field .this "missing")).Inside
      (.method missingField.classes[0].methods[0]) :=
    .part (List.mem_cons_of_mem _ List.mem_cons_self) (.of_mem List.mem_cons_self)
  exact ⟨table, htable, haccepted,
    unknown_of_accepted htable haccepted List.mem_cons_self hin rfl⟩

/-- **A read of a field that nobody declares may be accepted**, under either policy: it has no type.
-/
theorem missing_field_accepted :
    ∃ table s id, missingField.build.symbolTable = .ok (table, []) ∧
      table.superclass = none ∧ table.signatures[0]? = some s ∧
      ∀ policy, analyze policy missingField.build table = [] ∧
        missingField.build.kind id = .ok (.fieldAccess "missing") ∧
        (missingField.build.shape id).typeOf ⟨table, some s, policy⟩
          = .ok (.unknown "field `missing` not found in class `Missing`") := by
  refine ⟨.ofDecls [] missingField.classes[0], .ofDecl missingField.classes[0].methods[0], 5, ?_⟩
  refine ⟨by decide +kernel, rfl, rfl, fun policy => ?_⟩
  refine ⟨?_, rfl, ?_⟩
  · cases policy <;> decide +kernel
  · cases policy <;> decide +kernel

end Classlet
