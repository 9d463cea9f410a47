import Classlet.Proofs.Analysis.Fine
import Classlet.Proofs.Lowering.Agreement
import Classlet.Proofs.Lowering.Bodies
import Classlet.Proofs.Optimize.Acceptance

/-!
# Lowering accepted classes

Analysis and lowering look a name up in the same places, but not all that analysis accepts has a
value. An accepted class is lowered, also after any number of rounds of the optimizer, unless the
name of an import is read as a value or a call that returns nothing stands where a value is needed
(`lower_of_accepted`).  Both happen: `import_read_accepted`, `void_operand_accepted`.

The check of the variables of a lowered method fails only where the receiver's own name is imported.
-/

namespace Classlet

open Ir Lowering Optimize Subtree

/-! ### Names of accepted methods -/

section Names

variable {cx : Context} {policy : ExternalPolicy} {k : Kind}

theorem Names.messages_eq (scope : Scope) (k : Kind) (types : List ExprType) :
    messages scope k types = messages scope k [] := by
  cases k <;> rfl

theorem Scope.resolve_scopeUnder (cx : Context) (policy : ExternalPolicy) (name : String) :
    (cx.scopeUnder policy).resolve name = match cx.resolve name with
      | some (origin, symbol) => some (.bound origin symbol)
      | none =>
        if cx.table.isImported name then some .imported
        else if name == thisName then some .this
        else none := rfl

theorem isImported_of_read {name : String}
    (h : Names.messages (cx.scopeUnder policy) (.varRef name) [] = [])
    (hname : cx.isReadable name = false) :
    cx.table.isImported name = true ∧ cx.resolve name = none := by
  rw [Context.isReadable, Bool.or_eq_false_iff, Option.isSome_eq_false_iff,
    Option.isNone_iff_eq_none] at hname
  have hread : Names.readError? (cx.scopeUnder policy) name = none := Option.toList_eq_nil_iff.mp h
  rw [Names.readError?, Scope.resolve_scopeUnder, hname.1] at hread
  refine ⟨?_, hname.1⟩
  by_contra himport
  simp only [himport, hname.2, Bool.false_eq_true, if_false] at hread
  cases hread

theorem resolve_ne_none_of_assignError? {target : String}
    (h : Names.assignError? (cx.scopeUnder policy) target = none) : cx.resolve target ≠ none := by
  intro hnone
  rw [Names.assignError?, Scope.resolve_scopeUnder, hnone] at h
  cases himport : cx.table.isImported target <;> cases hthis : target == thisName <;>
    simp only [himport, hthis, Bool.false_eq_true, if_false, if_true, reduceCtorEq] at h

theorem resolve_ne_none_of_assigned {target : String}
    (h : Names.messages (cx.scopeUnder policy) k [] = [])
    (hk : k = .assign target ∨ k = .arrayAssign target) : cx.resolve target ≠ none := by
  rcases hk with rfl | rfl <;>
    exact resolve_ne_none_of_assignError? (Option.toList_eq_nil_iff.mp h)

/-- In a static method that declares no variable of that name, the receiver is used as an import. -/
theorem isImported_this_of_uses (h : Names.messages (cx.scopeUnder policy) k [] = [])
    (hstatic : cx.signature.isStatic = true) (hnot : ¬ cx.Declared thisName)
    (huses : cx.uses k thisName) :
    cx.table.isImported thisName = true ∧ cx.resolve thisName = none := by
  have hin : (cx.scopeUnder policy).inStatic = true := hstatic
  cases k with
  | this =>
    rw [Names.messages, if_pos hin] at h
    cases h
  | varRef name =>
    have hread : Names.readError? (cx.scopeUnder policy) name = none :=
      Option.toList_eq_nil_iff.mp h
    rw [Names.readError?, Scope.resolve_scopeUnder] at hread
    simp only [Context.uses] at huses
    split at huses
    · next field hr =>
      simp only [hr, hin, if_true] at hread
      cases hread
    · next found hne hr =>
      obtain ⟨origin, symbol⟩ := found
      subst huses
      exact absurd (Context.declared_of_resolve hr fun ho => hne symbol (by rw [ho])) hnot
    · next hr =>
      obtain ⟨rfl, -⟩ := huses
      refine ⟨?_, hr⟩
      by_contra himport
      simp only [hr, himport, hin, if_false, beq_self_eq_true, if_true] at hread
      cases hread
  | assign target | arrayAssign target =>
    have hassign : Names.assignError? (cx.scopeUnder policy) target = none :=
      Option.toList_eq_nil_iff.mp h
    have hbound := resolve_ne_none_of_assignError? hassign
    rw [Names.assignError?, Scope.resolve_scopeUnder] at hassign
    simp only [Context.uses] at huses
    split at huses
    · next field hr =>
      simp only [hr, hin, if_true] at hassign
      cases hassign
    · next found hne hr =>
      obtain ⟨origin, symbol⟩ := found
      subst huses
      exact absurd (Context.declared_of_resolve hr fun ho => hne symbol (by rw [ho])) hnot
    · next hr => exact absurd hr hbound
  | _ => exact absurd huses id

end Names

/-! ### Accepted classes -/

section Accepted

variable {policy : ExternalPolicy} {table : SymbolTable} {c : ClassDecl}

theorem Accepts.names_improve_iterate (h : Accepts policy table c)
    (hlen : table.signatures.length = c.methods.length) (r : Nat) :
    ∀ q ∈ table.signatures.zip ((ClassDecl.improve table.signatures)^[r] c).methods,
      ∃ m, (q.1, m) ∈ table.signatures.zip c.methods ∧
        ∀ part : Part, part.Inside (.method q.2) →
          Names.messages (Context.scopeUnder ⟨table, q.1⟩ policy) part.kind [] = [] := by
  rw [c.improve_iterate hlen]
  intro q hq
  obtain ⟨m, hm, heq⟩ := mem_zip_zipWith hq
  refine ⟨m, hm, fun part hpart => ?_⟩
  -- only the kinds of parts matter here, so the property to keep of expressions is trivial
  have hsteady : Steady fun _ : Expr => () := ⟨fun _ _ => rfl, fun _ _ => rfl⟩
  have hleft := left_improve_iterate hsteady (s := q.1) (m := m) (fun _ _ _ _ _ _ _ => rfl) r
  rw [heq] at hpart
  rcases hleft.inside part hpart with hlit | ⟨p, hp, hk, -⟩
  · rw [← Names.messages_eq _ _ (part.types (Context.scopeUnder ⟨table, q.1⟩ policy))]
    exact (Part.fine_of_isLiteral hlit _).messages_eq_nil.1
  · rw [hk, ← Names.messages_eq _ _ (p.types (Context.scopeUnder ⟨table, q.1⟩ policy))]
    exact (h.bodies _ hm p hp).messages_eq_nil.1

/-- The errors that can keep an accepted class from being lowered: the name of an import is read as
a value, or a call that returns nothing stands where a value is needed. -/
inductive LacksValue (table : SymbolTable) (c : ClassDecl) : Error → Prop
  | importRead {m : MethodDecl} (hm : m ∈ c.methods) {name : String}
      (himport : table.isImported name = true)
      (hresolve : Context.resolve ⟨table, .ofDecl m⟩ name = none) :
      LacksValue table c (Context.unresolved ⟨table, .ofDecl m⟩ name)
  | voidOperand (node : NodeId) :
      LacksValue table c (.malformedTree node "void value used as an operand")

/-- What refuses a method with whose names nothing is wrong. -/
theorem Lowering.Refused.lacksValue {s : Signature} {m m' : MethodDecl} {e : Error}
    (h : Refused table s m' e) (hm : m ∈ c.methods) (hs : s = .ofDecl m)
    (hnames : ∀ part : Part, part.Inside (.method m') →
      Names.messages (Context.scopeUnder ⟨table, s⟩ policy) part.kind [] = []) :
    LacksValue table c e := by
  subst hs
  rcases h with ⟨-, hdefect⟩ | ⟨⟨hstatic, hnot, part, hpart, huses⟩, rfl⟩
  · cases hdefect with
    | read hin hname =>
      obtain ⟨himport, hresolve⟩ := isImported_of_read (hnames _ hin) hname
      exact .importRead hm himport hresolve
    | assigned hin hkind hname =>
      exact absurd hname (resolve_ne_none_of_assigned (hnames _ hin) hkind)
    | noValue node => exact .voidOperand node
  · obtain ⟨himport, hresolve⟩ := isImported_this_of_uses (hnames part hpart) hstatic hnot huses
    exact .importRead hm himport hresolve

/-- **An accepted class is lowered or lacks a value**, after any number of rounds. -/
theorem Accepts.lower_improve_iterate {imports : List String} {t : Tree} {b : Subtree} {r : Nat}
    (h : Accepts policy (.ofDecls imports c) c)
    (hb : t.Pictures ⟨imports,
      [(ClassDecl.improve (SymbolTable.ofDecls imports c).signatures)^[r] c]⟩ b) :
    (∃ code, t.lower (.ofDecls imports c) = .ok code) ∨
      ∃ e, t.lower (.ofDecls imports c) = .error (.error e) ∧
        LacksValue (.ofDecls imports c) c e := by
  have hnamed : NamedAlike (SymbolTable.ofDecls imports c).signatures c.methods :=
    namedAlike_ofDecl c.methods
  have hlen : (SymbolTable.ofDecls imports c).signatures.length = c.methods.length :=
    List.length_map _
  rcases lower_cases hb (hnamed.improve_iterate r) with ⟨code, hcode, -⟩ | ⟨q, hq, e, he, hwhy⟩
  · exact .inl ⟨code, hcode⟩
  · obtain ⟨m, hm, hnames⟩ := h.names_improve_iterate hlen r q hq
    obtain ⟨hmem, hs⟩ := mem_zip_ofDecl.mp hm
    exact .inr ⟨e, he, hwhy.lacksValue hmem hs hnames⟩

/-- **An accepted program is lowered or lacks a value**: either policy leaves no other error of
lowering. -/
theorem lower_of_accepted {imports : List String} {reports : List Report}
    (htable : (Program.mk imports [c]).build.symbolTable = .ok (table, reports))
    (haccepted : analyze policy (Program.mk imports [c]).build table = []) :
    (∃ code, (Program.mk imports [c]).build.lower table = .ok code) ∨
      ∃ e, (Program.mk imports [c]).build.lower table = .error (.error e) ∧
        LacksValue table c e := by
  obtain ⟨b, hb⟩ := (Program.mk imports [c]).pictures_build
  obtain ⟨_, hofDecls⟩ := hb.symbolTable_ok
  rw [hofDecls] at htable
  cases htable
  have haccepts := (analyze_eq_nil_iff hb (namedAlike_ofDecl c.methods)).mp haccepted
  exact haccepts.lower_improve_iterate (r := 0) hb

end Accepted

/-! ### Accepted programs that are not lowered -/

/-- A class with one method, which returns nothing and has the given body. -/
def runClass (body : List Stmt) : ClassDecl where
  name := "Runner"
  superclass := none
  fields := []
  methods := [
    { name := "run"
      isPublic := true
      isStatic := false
      returnType := some ⟨"void", false, false⟩
      params := []
      locals := []
      body }]

/-- The name of an import, read as a statement. -/
def importRead : Program := ⟨["io"], [runClass [.expr (.var "io")]]⟩

/-- A comparison of what a method that returns nothing returns. -/
def voidOperand : Program :=
  ⟨[], [runClass [.expr (.binary .eq (.call .this "run" []) (.call .this "run" []))]]⟩

theorem lower_of_accepted_importRead :
    ∃ table, importRead.build.symbolTable = .ok (table, []) ∧
      analyze .strict importRead.build table = [] ∧
      ((∃ code, importRead.build.lower table = .ok code) ∨
        ∃ e, importRead.build.lower table = .error (.error e) ∧
          LacksValue table importRead.classes[0] e) := by
  let table : SymbolTable := .ofDecls ["io"] importRead.classes[0]
  have htable : importRead.build.symbolTable = .ok (table, []) := by decide +kernel
  have haccepted : analyze .strict importRead.build table = [] := by decide +kernel
  exact ⟨table, htable, haccepted, lower_of_accepted htable haccepted⟩

theorem eq_error_of_decide {α : Type} {x : Except Halt α} {halt : Halt}
    (h : (match x with
      | .error found => decide (found = halt)
      | .ok _ => false) = true) : x = .error halt := by
  cases x with
  | error found => rw [of_decide_eq_true h]
  | ok a => cases h

/-- **Not every accepted program is lowered**: the name of an import may be read, but stands for
nothing that could be loaded. -/
theorem import_read_accepted :
    ∃ table, importRead.build.symbolTable = .ok (table, []) ∧
      ∀ policy, analyze policy importRead.build table = [] ∧
        importRead.build.lower table
          = .error (.error (.unresolvedSymbol "io (in method run)")) := by
  refine ⟨.ofDecls ["io"] importRead.classes[0], by decide +kernel, fun policy => ⟨?_, ?_⟩⟩
  · cases policy <;> decide +kernel
  · exact eq_error_of_decide (by decide +kernel)

/-- The operands of an equality may be of the type of no value. -/
theorem void_operand_accepted :
    ∃ table, voidOperand.build.symbolTable = .ok (table, []) ∧
      ∀ policy, analyze policy voidOperand.build table = [] ∧
        voidOperand.build.lower table
          = .error (.error (.malformedTree 6 "void value used as an operand")) := by
  refine ⟨.ofDecls [] voidOperand.classes[0], by decide +kernel, fun policy => ⟨?_, ?_⟩⟩
  · cases policy <;> decide +kernel
  · exact eq_error_of_decide (by decide +kernel)

end Classlet
