import Classlet.Lowering.Method
import Classlet.Proofs.Symbols.Declarations

/-!
# Where lowered methods come from

Lowering a method is lowering its body and then checking that the variables of the code are in the
table (`lowerMethod_ok`).  Whatever the tree, every method of a lowered class comes from some
members with the signature in its place (`exists_of_lower`).
-/

namespace Classlet.Lowering

open Classlet.Ir

variable {cx : Context}

/-- A lowered method whose variables are not checked yet. -/
def Context.methodCode (cx : Context) (code : List Instr) (vars : VarTable) : MethodCode where
  name := cx.signature.name
  isPublic := cx.signature.isPublic
  isStatic := cx.signature.isStatic
  params := cx.signature.params.map Variable.ofSymbol
  returnType := .ofTy cx.signature.returnType
  instructions := endWithReturn (.ofTy cx.signature.returnType) code
  vars
  registers := none

theorem lowerMethod_eq (cx : Context) (members : Shapes) :
    lowerMethod cx members = do
      let (code, final) ← (lowerBody cx members).run cx.start
      (cx.methodCode code final.vars).verifyVars
      return cx.methodCode code final.vars := rfl

theorem lowerMethod_ok {members : Shapes} {method : MethodCode}
    (h : lowerMethod cx members = .ok method) :
    ∃ code final, lowerBody cx members cx.start = .ok (code, final) ∧
      method = cx.methodCode code final.vars ∧ method.verifyVars = .ok () := by
  rw [lowerMethod_eq] at h
  rcases hb : (lowerBody cx members).run cx.start with e | ⟨code, final⟩ <;> rw [hb] at h
  · cases h
  · refine ⟨code, final, hb, ?_⟩
    dsimp only [bind, Except.bind] at h
    split at h
    · cases h
    · next hv =>
      cases h
      exact ⟨rfl, hv⟩

theorem exists_of_lowerMethods {table : SymbolTable} {index : Nat} {members : Shapes}
    {methods : List MethodCode} (h : lowerMethods table index members = .ok methods) {k : Nat}
    {m : MethodCode} (hm : methods[k]? = some m) : ∃ s inner,
      table.signatures[index + k]? = some s ∧ lowerMethod ⟨table, s⟩ inner = .ok m := by
  induction members generalizing index methods k with
  | nil =>
    cases h
    cases hm
  | cons c rest ih =>
    rw [lowerMethods] at h
    split at h
    · cases h
    · next id name isPublic isStatic p inner hc =>
      obtain ⟨s, hs, h⟩ := Halt.bind_ok h
      obtain ⟨first, hfirst, h⟩ := Halt.bind_ok h
      obtain ⟨others, hothers, h⟩ := Halt.bind_ok h
      cases h
      rcases k with _ | k
      · cases hm
        exact ⟨s, inner, (SymbolTable.of_declared_ok hs).1, hfirst⟩
      · have hnext := ih hothers (k := k) hm
        rwa [Nat.add_assoc, Nat.add_comm 1 k] at hnext
    · exact ih h hm

theorem exists_of_lower {t : Tree} {table : SymbolTable} {code : ClassCode}
    (h : t.lower table = .ok code) {k : Nat} {m : MethodCode} (hm : code.methods[k]? = some m) :
    ∃ s members, table.signatures[k]? = some s ∧ lowerMethod ⟨table, s⟩ members = .ok m := by
  unfold Tree.lower at h
  obtain ⟨children, -, h⟩ := Halt.bind_ok h
  obtain ⟨⟨name, superclass, members⟩, -, h⟩ := Halt.bind_ok h
  obtain ⟨methods, hmethods, h⟩ := Halt.bind_ok h
  cases h
  rw [← Nat.zero_add k]
  exact exists_of_lowerMethods hmethods hm

end Classlet.Lowering
