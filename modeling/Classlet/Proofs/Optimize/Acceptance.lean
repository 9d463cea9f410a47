import Classlet.Proofs.Analysis.Acceptance
import Classlet.Proofs.Optimize.Remains

/-!
# Acceptance after optimization

Folding keeps the types that analysis finds, and so does putting a literal in the place of a
variable that is declared with the type of the literal.  What analysis finds at a part depends on
its kind and the types of the expressions in it, so an accepted class is accepted again after
optimization (`optimize_preserves_acceptance`), if its methods assign integers and truth values to
their own variables only where these are declared so.

Acceptance alone does not give this.  The type that an assignment has to have is that of a field, if
there is one of the name, also where a local variable hides the field
(`hidden_field_breaks_acceptance`).
-/

namespace Classlet

open Optimize Subtree

/-! ### Types -/

/-- The type of an expression of a kind, where its parts have the given types. -/
def ExprType.ofKind (scope : Scope) : Kind → List ExprType → ExprType
  | .intLit _, _ | .arrayLength, _ => .known .int
  | .boolLit _, _ => .known .boolean
  | .varRef name, _ => scope.typeOfName name
  | .binary op, _ => .known op.resultTy
  | .unary op, _ => .known op.resultTy
  | .methodCall method, receiver :: _ => scope.typeOfCall method receiver
  | .fieldAccess name, object :: _ => scope.typeOfField name object
  | .arrayAccess, array :: _ => array.element
  | .newArray, _ | .arrayLit, _ => .known .intArray
  | .newObject className, _ => .known (.object className)
  | .this, _ => .known scope.classTy
  | .paren, inner :: _ => inner
  | _, _ => .unknown ""

theorem Expr.typeOf_eq_ofKind (scope : Scope) (e : Expr) :
    e.typeOf scope = .ofKind scope e.kind (e.parts.map (typeOf scope)) := by
  cases e <;> rfl

theorem Expr.typeOf_of_isLiteral {e : Expr} (h : e.isLiteral = true) (scope : Scope) :
    e.typeOf scope = .known .int ∨ e.typeOf scope = .known .boolean := by
  cases e with
  | int n => exact .inl rfl
  | bool b => exact .inr rfl
  | _ => cases h

namespace Optimize

theorem ofKind_foldInts {op : BinaryOp} {a b : Int32} {l : Kind} (h : foldInts op a b = some l)
    (scope : Scope) : ExprType.ofKind scope l [] = .known op.resultTy := by
  rcases foldInts_cases h with ⟨hop, n, rfl⟩ | ⟨hop, c, rfl⟩ <;>
    simp [ExprType.ofKind, BinaryOp.resultTy, hop]

theorem ofKind_foldBools {op : BinaryOp} {a b : Bool} {l : Kind} (h : foldBools op a b = some l)
    (scope : Scope) : ExprType.ofKind scope l [] = .known op.resultTy := by
  obtain ⟨hop, c, rfl⟩ := foldBools_cases h
  simp [ExprType.ofKind, BinaryOp.resultTy, hop]

theorem typeOf_collapse (scope : Scope) (inCondition : Bool) (e : Expr) :
    (e.collapse inCondition).typeOf scope = e.typeOf scope := by
  rcases e.collapse_cases inCondition with ⟨-, he⟩ | ⟨l, hl, -, hk, hp⟩
  · rw [he]
  rw [(e.collapse inCondition).typeOf_eq_ofKind, hk, hp, List.map_nil]
  rcases collapse?_cases hl with ⟨op, a, b, hop, -, hf⟩ | ⟨op, a, b, hop, -, hf⟩ |
    ⟨b, hop, -, rfl⟩ | ⟨hop, hks, hlit⟩
  all_goals rw [e.typeOf_eq_ofKind, hop]
  · exact ofKind_foldInts hf scope
  · exact ofKind_foldBools hf scope
  · rfl
  · obtain ⟨inner, hinner, rfl⟩ := List.map_eq_singleton_iff.mp hks
    rw [hinner, List.map_singleton, ExprType.ofKind, inner.typeOf_eq_ofKind]
    cases inner with
    | int | bool => rfl
    | _ => cases hlit

theorem steady_typeOf (scope : Scope) : Steady (Expr.typeOf scope) where
  of_parts hk hp := by rw [Expr.typeOf_eq_ofKind, Expr.typeOf_eq_ofKind scope, hk, hp]
  collapse := typeOf_collapse scope

end Optimize

/-! ### Acceptance -/

theorem Part.fine_of_isLiteral {part : Part} (h : part.isLiteral = true) (scope : Scope) :
    part.Fine scope := by
  cases part with
  | expr e =>
    simp only [Part.Fine, judgements, List.forall_mem_cons, List.not_mem_nil, false_imp_iff,
      implies_true, and_true]
    cases e with
    | int | bool => exact ⟨rfl, rfl, rfl, rfl, rfl, rfl, rfl⟩
    | _ => cases h
  | _ => cases h

theorem mem_zip_zipWith {f : Signature → MethodDecl → MethodDecl} {signatures : List Signature}
    {methods : List MethodDecl} {q : Signature × MethodDecl}
    (h : q ∈ signatures.zip (List.zipWith f signatures methods)) :
    ∃ m, (q.1, m) ∈ signatures.zip methods ∧ q.2 = f q.1 m := by
  induction signatures generalizing methods with
  | nil => simp at h
  | cons s signatures ih =>
    cases methods with
    | nil => simp at h
    | cons m methods =>
      rw [List.zipWith_cons_cons, List.zip_cons_cons, List.mem_cons] at h
      rcases h with rfl | h
      · exact ⟨m, List.mem_cons_self, rfl⟩
      · obtain ⟨m', hm', heq⟩ := ih h
        exact ⟨m', List.mem_cons_of_mem _ hm', heq⟩

mutual

/-- The assignments in a statement. -/
def Stmt.assignments : Stmt → List (String × Expr)
  | .assign x value => [(x, value)]
  | .ifThen _ body | .whileDo _ body => body.assignments
  | .ifElse _ body otherwise => body.assignments ++ otherwise.assignments
  | .block body => assignmentsInAll body
  | .arrayAssign .. | .ret _ | .expr _ => []

/-- The assignments in some statements. -/
def Stmt.assignmentsInAll : List Stmt → List (String × Expr)
  | [] => []
  | s :: rest => s.assignments ++ assignmentsInAll rest

end

theorem Stmt.mem_assignmentsInAll {a : String × Expr} {ss : List Stmt} :
    a ∈ assignmentsInAll ss ↔ ∃ s ∈ ss, a ∈ s.assignments := by
  induction ss with
  | nil => simp [assignmentsInAll]
  | cons s ss ih => simp [assignmentsInAll, ih]

theorem Stmt.mem_assignments_of_part {a : String × Expr} {s inner : Stmt}
    (hs : .stmt inner ∈ s.parts) (ha : a ∈ inner.assignments) : a ∈ s.assignments := by
  cases s with
  | block body =>
    obtain ⟨s, hs, ⟨⟩⟩ := List.mem_map.mp hs
    exact mem_assignmentsInAll.mpr ⟨inner, hs, ha⟩
  | ifThen | whileDo => simp_all [parts, assignments]
  | ifElse =>
    simp only [parts, List.mem_cons, reduceCtorEq, Part.stmt.injEq, false_or, List.not_mem_nil,
      or_false] at hs
    rcases hs with rfl | rfl <;> simp [assignments, ha]
  | _ => simp [parts] at hs

theorem Stmt.mem_assignments {x : String} {value : Expr} {s : Stmt}
    (h : (Part.stmt (.assign x value)).Inside (.stmt s)) : (x, value) ∈ s.assignments := by
  generalize hw : Part.stmt s = whole at h
  induction h generalizing s with
  | refl =>
    cases hw
    exact List.mem_singleton_self _
  | @part whole inner hc h ih =>
    subst hw
    cases inner with
    | stmt inner => exact mem_assignments_of_part hc (ih rfl)
    | expr e => obtain ⟨_, ⟨⟩⟩ := h.expr
    | _ => cases s <;> simp [Part.parts, parts] at hc

theorem MethodDecl.mem_assignments {x : String} {value : Expr} {m : MethodDecl}
    (h : (Part.stmt (.assign x value)).Inside (.method m)) :
    (x, value) ∈ Stmt.assignmentsInAll m.body := by
  have hdecl : ∀ ty : TypeExpr, ¬ (Part.stmt (.assign x value)).Inside (.type ty) := by
    intro ty hty
    obtain heq | ⟨_, ⟨⟩, -⟩ := Part.inside_iff.mp hty
    cases heq
  obtain heq | ⟨inner, hinner, hin⟩ := Part.inside_iff.mp h
  · cases heq
  simp only [Part.parts, parts, List.mem_append, List.mem_map, or_assoc] at hinner
  obtain ⟨ty, -, rfl⟩ | ⟨decl, -, rfl⟩ | ⟨decl, -, rfl⟩ | ⟨s, hs, rfl⟩ := hinner
  · exact absurd hin (hdecl ty)
  · obtain heq | ⟨_, hty, hin⟩ := Part.inside_iff.mp hin
    · cases heq
    obtain rfl := List.mem_singleton.mp hty
    exact absurd hin (hdecl decl.2)
  · obtain heq | ⟨_, hty, hin⟩ := Part.inside_iff.mp hin
    · cases heq
    obtain rfl := List.mem_singleton.mp hty
    exact absurd hin (hdecl decl.2)
  · exact Stmt.mem_assignmentsInAll.mpr ⟨s, hs, Stmt.mem_assignments hin⟩

/-- Where the method assigns an integer or a truth value to a variable of its own, the variable is
declared with this type. -/
def MethodDecl.AssignsAsDeclared (scope : Scope) (s : Signature) (m : MethodDecl) : Prop :=
  ∀ x value, (Part.stmt (.assign x value)).Inside (.method m) → s.Owns x →
    ∀ ty, value.typeOf scope = .known ty → ty = .int ∨ ty = .boolean →
      (Expr.var x).typeOf scope = .known ty

theorem MethodDecl.AssignsAsDeclared.assignsAlike {scope : Scope} {s : Signature} {m : MethodDecl}
    (h : m.AssignsAsDeclared scope s) :
    (Part.method m).AssignsAlike (Expr.typeOf scope) s.Owns := by
  intro x value hin hx l hl hv
  rcases Expr.typeOf_of_isLiteral hl scope with hty | hty
  all_goals rw [hty, h x value hin hx _ (hv ▸ hty) (by simp)]

variable {policy : ExternalPolicy} {table : SymbolTable} {c : ClassDecl}

/-- **Rounds keep acceptance.** -/
theorem Accepts.improve_iterate (h : Accepts policy table c)
    (hlen : table.signatures.length = c.methods.length)
    (hassigns : ∀ q ∈ table.signatures.zip c.methods,
      q.2.AssignsAsDeclared ⟨table, some q.1, policy⟩ q.1) (r : Nat) :
    Accepts policy table ((ClassDecl.improve table.signatures)^[r] c) := by
  rw [c.improve_iterate hlen]
  refine ⟨fun q hq part hpart => ?_, h.imports, h.fieldTypes, fun q hq slot ty hw => ?_⟩
  · obtain ⟨m, hm, heq⟩ := mem_zip_zipWith hq
    have hleft := left_improve_iterate (steady_typeOf ⟨table, some q.1, policy⟩)
      (hassigns _ hm).assignsAlike r
    rw [heq] at hpart
    rcases hleft.inside part hpart with hlit | ⟨p, hp, hk, hv⟩
    · exact Part.fine_of_isLiteral hlit _
    · intro messages hmessages
      have htypes : part.types ⟨table, some q.1, policy⟩ = p.types ⟨table, some q.1, policy⟩ := hv
      rw [hk, htypes]
      exact h.bodies _ hm p hp messages hmessages
  · obtain ⟨m, hm, heq⟩ := mem_zip_zipWith hq
    refine h.types _ hm slot ty ?_
    obtain ⟨body, hbody⟩ := m.improve_iterate q.1 r
    rw [heq, hbody] at hw
    -- the types are those of the declarations, which rounds leave alone
    cases hw with
    | returned hty => exact .returned hty
    | param hdecl => exact .param hdecl
    | localVar hdecl => exact .localVar hdecl

/-- **Optimization preserves acceptance**, where no method assigns an integer or a truth value to a
variable of its own that is declared otherwise.  The optimizer comes to an end; the tree it leaves
has the same symbol table, and analysis with this table again reports nothing. -/
theorem optimize_preserves_acceptance {imports : List String} {reports : List Report}
    (htable : (Program.mk imports [c]).build.symbolTable = .ok (table, reports))
    (haccepted : analyze policy (Program.mk imports [c]).build table = [])
    (hassigns : ∀ m ∈ c.methods,
      m.AssignsAsDeclared ⟨table, some (.ofDecl m), policy⟩ (.ofDecl m)) :
    ∃ stats t' reports', optimize table (Program.mk imports [c]).build = (.ok stats, t') ∧
      t'.symbolTable = .ok (table, reports') ∧ analyze policy t' table = [] := by
  obtain ⟨b, hb⟩ := (Program.mk imports [c]).pictures_build
  obtain ⟨_, hofDecls⟩ := hb.symbolTable_ok
  generalize (Program.mk imports [c]).build = t at *
  rw [hofDecls] at htable
  cases htable
  have hnames : NamedAlike (SymbolTable.ofDecls imports c).signatures c.methods :=
    namedAlike_ofDecl c.methods
  have hlen : (SymbolTable.ofDecls imports c).signatures.length = c.methods.length :=
    List.length_map _
  obtain ⟨stats, t', b', hrun, hb'⟩ := optimize_ok hb hnames
  obtain ⟨reports', htable'⟩ := hb'.symbolTable_ok
  rw [SymbolTable.ofDecls_improve_iterate imports c hlen] at htable'
  have haccepts := (analyze_eq_nil_iff hb hnames).mp haccepted
  have hassigned : ∀ q ∈ (SymbolTable.ofDecls imports c).signatures.zip c.methods,
      q.2.AssignsAsDeclared ⟨.ofDecls imports c, some q.1, policy⟩ q.1 := by
    intro q hq
    obtain ⟨hm, hs⟩ := mem_zip_ofDecl.mp hq
    rw [hs]
    exact hassigns q.2 hm
  refine ⟨stats, t', reports', hrun, htable', ?_⟩
  rw [analyze_eq_nil_iff hb' (hnames.improve_iterate stats.rounds)]
  exact haccepts.improve_iterate hlen hassigned stats.rounds

/-- In `steppingClass` only integer variables are assigned, among them a field. -/
theorem optimize_preserves_acceptance_stepping :
    ∃ table, (Program.mk [] [steppingClass]).build.symbolTable = .ok (table, []) ∧
      analyze .strict (Program.mk [] [steppingClass]).build table = [] ∧
      (∀ m ∈ steppingClass.methods,
        m.AssignsAsDeclared ⟨table, some (.ofDecl m), .strict⟩ (.ofDecl m)) ∧
      ∃ stats t' reports',
        optimize table (Program.mk [] [steppingClass]).build = (.ok stats, t') ∧
        t'.symbolTable = .ok (table, reports') ∧ analyze .strict t' table = [] := by
  let table : SymbolTable := .ofDecls [] steppingClass
  have htable : (Program.mk [] [steppingClass]).build.symbolTable = .ok (table, []) := by
    decide +kernel
  have haccepted : analyze .strict (Program.mk [] [steppingClass]).build table = [] := by
    decide +kernel
  have hassigns : ∀ m ∈ steppingClass.methods,
      m.AssignsAsDeclared ⟨table, some (.ofDecl m), .strict⟩ (.ofDecl m) := by
    intro m hm x value hin _ ty hty _
    obtain rfl := List.mem_singleton.mp hm
    have hints : (Stmt.assignmentsInAll steppingRun.body).all (fun a =>
        decide (a.2.typeOf ⟨table, some (.ofDecl steppingRun), .strict⟩ = .known .int) &&
        decide ((Expr.var a.1).typeOf ⟨table, some (.ofDecl steppingRun), .strict⟩ = .known .int))
        = true := by decide +kernel
    have hint := List.all_eq_true.mp hints _ (MethodDecl.mem_assignments hin)
    simp only [Bool.and_eq_true, decide_eq_true_eq] at hint
    rw [hint.2, ← hint.1, hty]
  exact ⟨table, htable, haccepted, hassigns,
    optimize_preserves_acceptance htable haccepted hassigns⟩

/-- A local variable that hides a field of another type and is assigned a value of that type. -/
def hiddenField : Program := ⟨[], [{
  name := "Hidden"
  superclass := none
  fields := [("level", ⟨"int", false, false⟩)]
  methods := [
    { name := "run"
      isPublic := true
      isStatic := false
      returnType := some ⟨"void", false, false⟩
      params := []
      locals := [("level", ⟨"boolean", false, false⟩)]
      body := [.assign "level" (.int 5), .ifThen (.var "level") (.block [])] }] }]⟩

/-- **Optimization may break acceptance**: the integer takes the place of a variable that is
declared as a truth value, as the condition of a statement. -/
theorem hidden_field_breaks_acceptance :
    ∃ table stats t', hiddenField.build.symbolTable = .ok (table, []) ∧
      analyze .strict hiddenField.build table = [] ∧
      optimize table hiddenField.build = (.ok stats, t') ∧ t'.symbolTable = .ok (table, []) ∧
      analyze .strict t' table ≠ [] := by
  let table : SymbolTable := .ofDecls [] hiddenField.classes[0]
  have hrun : ((optimize table hiddenField.build).1.isOk &&
      decide ((optimize table hiddenField.build).2.symbolTable = .ok (table, [])) &&
      !(analyze .strict (optimize table hiddenField.build).2 table).isEmpty) = true := by
    decide +kernel
  rcases hoptimize : optimize table hiddenField.build with ⟨e | stats, t'⟩ <;>
    rw [hoptimize] at hrun
  · cases hrun
  · simp only [Bool.and_eq_true, decide_eq_true_eq] at hrun
    refine ⟨table, stats, t', by decide +kernel, by decide +kernel, hoptimize, hrun.1.2, ?_⟩
    intro hnone
    rw [hnone] at hrun
    cases hrun.2

end Classlet
