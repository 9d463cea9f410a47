import Classlet.Proofs.Symbols.Places

/-!
# What is reported about declarations

Reading the symbol table of a program reports each repeated field, method, parameter and local
variable once, in the order of the second declarations, and every method that lacks a return type
(`symbolTable_messages`).  The messages say nothing about the bodies of the methods.
-/

namespace Classlet

open Subtree

/-- What is wrong with the declarations of a method. -/
def MethodDecl.declarationMessages (m : MethodDecl) : List String :=
  (if m.returnType.isSome || (m.isStatic && m.name == entryName) then []
    else ["Method " ++ Text.quoted m.name ++ " has no return type"])
    ++ (Text.repeated [] (m.params.map (·.1))).map (Shape.repeatedIn "parameter" m.name)
    ++ (Text.repeated [] (m.locals.map (·.1))).map (Shape.repeatedIn "local variable" m.name)

/-- What is wrong with the declarations of methods.  `seen` holds the names of those before. -/
def MethodDecl.messagesOfAll : List String → List MethodDecl → List String
  | _, [] => []
  | seen, m :: rest =>
    m.declarationMessages
      ++ (if seen.count m.name = 1 then ["Duplicate method " ++ Text.quoted m.name] else [])
      ++ messagesOfAll (m.name :: seen) rest

/-- What is wrong with the declarations of a class. -/
def ClassDecl.declarationMessages (c : ClassDecl) : List String :=
  (Text.repeated [] (c.fields.map (·.1))).map (fun name => "Duplicate field " ++ Text.quoted name)
    ++ MethodDecl.messagesOfAll [] c.methods

theorem Complaint.map_message_ofRepeated (path : List Nat) (first : Nat) (kind : String → Kind)
    (message : String → String) (names : List String) :
    (ofRepeated path first kind message names).map (·.message)
      = (Text.repeated [] names).map message := by
  rw [ofRepeated, List.map_map, ← Text.map_fst_seconds, List.map_map]
  rfl

theorem MethodDecl.map_message_complaints (path : List Nat) (m : MethodDecl) :
    (m.complaints path).map (·.message) = m.declarationMessages := by
  rw [complaints, List.map_append, List.map_append, Complaint.map_message_ofRepeated,
    Complaint.map_message_ofRepeated, declarationMessages]
  split <;> rfl

theorem MethodDecl.map_message_complaintsAt (path : List Nat) (first : Nat) (seen : List String)
    (methods : List MethodDecl) :
    ((methods.zipIdx seen.length).flatMap
        (complaintsAt path first (seen ++ methods.map (·.name)))).map (·.message)
      = messagesOfAll seen.reverse methods := by
  induction methods generalizing seen with
  | nil => rfl
  | cons m methods ih =>
    have hrest := ih (seen ++ [m.name])
    rw [List.append_assoc, List.singleton_append, List.length_append, List.length_singleton,
      List.reverse_append, List.reverse_singleton, List.singleton_append] at hrest
    rw [List.zipIdx_cons, List.flatMap_cons, List.map_append, List.map_cons, hrest, complaintsAt,
      List.map_append, map_message_complaints, messagesOfAll, Text.isSecond_append,
      List.count_reverse]
    by_cases hone : seen.count m.name = 1 <;> simp [hone]

theorem ClassDecl.map_message_complaints (path : List Nat) (c : ClassDecl) :
    (c.complaints path).map (·.message) = c.declarationMessages := by
  rw [complaints, List.map_append, Complaint.map_message_ofRepeated, declarationMessages]
  exact congrArg _ (MethodDecl.map_message_complaintsAt path c.fields.length [] c.methods)

/-- **What is reported about the declarations of a program** that has a class. -/
theorem Tree.Pictures.symbolTable_messages {t : Tree} {b : Subtree} {imports : List String}
    {c : ClassDecl} {rest : List ClassDecl} (h : t.Pictures ⟨imports, c :: rest⟩ b)
    {table : SymbolTable} {reports : List Report} (hs : t.symbolTable = .ok (table, reports)) :
    reports.map (·.message) = c.declarationMessages := by
  obtain ⟨found, hfound, hsaid⟩ := h.symbolTable_reported
  cases hs.symm.trans hfound
  rw [← c.map_message_complaints [imports.length], ← List.forall₂_eq_eq_eq,
    List.forall₂_map_left_iff, List.forall₂_map_right_iff]
  exact hsaid.imp fun r q ⟨_, _, _, _, _, hr⟩ => by rw [hr]; rfl

/-! ### Units without a class -/

theorem Shape.firstClass_imports {imports : List String} {is : List Subtree}
    (h : List.Forall₂ Reads is (imports.map .importDecl)) :
    firstClass (is.map fun c _ => c.toShape) = fail .missingClass := by
  rw [List.forall₂_map_right_iff] at h
  induction h with
  | nil => rfl
  | cons hc _ ih =>
    obtain ⟨i, p, cs, rfl, -⟩ := reads_iff.mp hc
    rw [List.map_cons, firstClass, toShape_node]
    exact ih

theorem Tree.Pictures.symbolTable_error {t : Tree} {b : Subtree} {imports : List String}
    (h : t.Pictures ⟨imports, []⟩ b) : t.symbolTable = fail .missingClass := by
  obtain ⟨r, pos, units, rfl, hunits⟩ := reads_iff.mp h.reads
  rw [Part.parts, Program.parts, List.map_nil, List.append_nil] at hunits
  rw [Tree.symbolTable, h.children_eq]
  show Shape.readTable _ = _
  rw [Shape.readTable, Shape.firstClass_imports hunits]
  rfl

end Classlet
