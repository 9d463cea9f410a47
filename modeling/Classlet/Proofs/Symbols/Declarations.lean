import Classlet.Proofs.Syntax.Building
import Classlet.Symbols.Build

/-!
# What a program declares

The table of a program lists what its first class declares (`SymbolTable.ofDecls`): the fields, and
for every method a signature with the method's name, return type, parameters and local variables,
all in the order in which they are declared.

The functions that read declarations off a tree all read one declaration after the other
(`Shape.readAll`) and report repeated names on the way (`Shape.reportsOn`); so they are related to
what is declared in one place, for a reader of single declarations.
-/

namespace Classlet

open Subtree

/-! ### What a program declares -/

/-- The type that a written type denotes. -/
def TypeExpr.ty (written : TypeExpr) : Ty := ⟨written.name, written.isArray || written.isVarargs⟩

/-- The symbol that a declaration declares. -/
def Symbol.ofDecl (decl : String × TypeExpr) : Symbol := ⟨decl.1, decl.2.ty, decl.2.isVarargs⟩

/-- The signature that a method declares. -/
def Signature.ofDecl (m : MethodDecl) : Signature where
  name := m.name
  returnType := (m.returnType.map TypeExpr.ty).getD .void
  params := m.params.map Symbol.ofDecl
  locals := m.locals.map Symbol.ofDecl
  isPublic := m.isPublic
  isStatic := m.isStatic

/-- The name under which an import is known. -/
def Text.importedName (dotted : String) : String :=
  ".".intercalate ((Text.segments dotted).map Text.trimQuotes)

/-- The table of a unit with the given imports and first class. -/
def SymbolTable.ofDecls (imports : List String) (c : ClassDecl) : SymbolTable where
  imports := imports.map Text.importedName
  className := c.name
  superclass := c.superclass
  fields := c.fields.map Symbol.ofDecl
  methods := c.methods.map (·.name)
  signatures := c.methods.map Signature.ofDecl

/-- The signatures are those of the methods, by their names. -/
def NamedAlike (signatures : List Signature) (methods : List MethodDecl) : Prop :=
  List.Forall₂ (fun s m => s.name = m.name) signatures methods

theorem namedAlike_ofDecl (methods : List MethodDecl) :
    NamedAlike (methods.map Signature.ofDecl) methods := by
  rw [NamedAlike, List.forall₂_map_left_iff]
  exact List.forall₂_same.mpr fun _ _ => rfl

theorem mem_zip_ofDecl {methods : List MethodDecl} {q : Signature × MethodDecl} :
    q ∈ (methods.map Signature.ofDecl).zip methods ↔ q.2 ∈ methods ∧ q.1 = .ofDecl q.2 := by
  have hzip : (methods.map Signature.ofDecl).zip methods = methods.map fun m => (.ofDecl m, m) := by
    induction methods with
    | nil => rfl
    | cons m methods ih => rw [List.map_cons, List.zip_cons_cons, ih, List.map_cons]
  rw [hzip, List.mem_map]
  constructor
  · rintro ⟨m, hm, rfl⟩
    exact ⟨hm, rfl⟩
  · rintro ⟨hm, hs⟩
    exact ⟨q.2, hm, Prod.ext hs.symm rfl⟩

theorem SymbolTable.declared_ok {table : SymbolTable} {k : Nat} {s : Signature}
    (h : table.signatures[k]? = some s) : table.declared k s.name = .ok s := by
  simp only [SymbolTable.declared, h, beq_self_eq_true, if_true]
  rfl

theorem SymbolTable.of_declared_ok {table : SymbolTable} {k : Nat} {name : String} {s : Signature}
    (h : table.declared k name = .ok s) : table.signatures[k]? = some s ∧ s.name = name := by
  unfold SymbolTable.declared at h
  split at h
  · next found hfound =>
    split at h
    · next hname =>
      cases h
      exact ⟨hfound, by simpa using hname⟩
    · cases h
  · cases h

/-! ### Readers -/

namespace Shape

/-- What is read of a declaration: its name and position, what it declares, and the reports on it
alone. -/
structure Declared (α : Type) where
  name : String
  position : Position
  value : α
  reports : List Report

section Readers

variable {α : Type} {read? : Shape → Option (Except Halt (Declared α))}

/-- Reads the declarations among some shapes, up to the first that cannot be read. -/
def readAll (read? : Shape → Option (Except Halt (Declared α))) (shapes : Shapes) :
    Except Halt (List (Declared α)) :=
  (shapes.filterMap fun s => read? (s ())).mapM fun d => d

/-- The reports on each declaration alone, and one where a name is declared for the second time.
`seen` holds the names declared before. -/
def reportsOn (message : String → String) : List String → List (Declared α) → List Report
  | _, [] => []
  | seen, d :: rest =>
    d.reports
      ++ (if seen.count d.name = 1 then
          [Report.error .semantic d.position (message d.name)]
        else [])
      ++ reportsOn message (d.name :: seen) rest

theorem readAll_cons_none {s : Unit → Shape} (h : read? (s ()) = none) (rest : Shapes) :
    readAll read? (s :: rest) = readAll read? rest := by
  simp only [readAll, List.filterMap_cons, h]

theorem readAll_cons_some {s : Unit → Shape} {x : Except Halt (Declared α)}
    (h : read? (s ()) = some x) (rest : Shapes) :
    readAll read? (s :: rest) = x >>= fun d => readAll read? rest >>= fun ds => pure (d :: ds) := by
  simp only [readAll, List.filterMap_cons, h, List.mapM_cons]

theorem exists_of_readAll {shapes : Shapes} {ds : List (Declared α)}
    (h : readAll read? shapes = .ok ds) : ∀ d ∈ ds, ∃ s ∈ shapes, read? (s ()) = some (.ok d) := by
  induction shapes generalizing ds with
  | nil =>
    cases h
    simp
  | cons s rest ih =>
    cases hs : read? (s ()) with
    | none =>
      rw [readAll_cons_none hs] at h
      exact fun d hd => (ih h d hd).imp fun s hs => ⟨List.mem_cons_of_mem _ hs.1, hs.2⟩
    | some x =>
      rw [readAll_cons_some hs] at h
      obtain ⟨d, hx, h⟩ := Halt.bind_ok h
      rw [hx] at hs
      obtain ⟨others, hrest, h⟩ := Halt.bind_ok h
      cases h
      rw [List.forall_mem_cons]
      exact ⟨⟨s, List.mem_cons_self, hs⟩, fun d hd =>
        (ih hrest d hd).imp fun s hs => ⟨List.mem_cons_of_mem _ hs.1, hs.2⟩⟩

theorem forall_mem_reportsOn {P : Report → Prop} {message : String → String}
    (hP : ∀ position message, P (.error .semantic position message)) {ds : List (Declared α)}
    (h : ∀ d ∈ ds, ∀ r ∈ d.reports, P r) (seen : List String) :
    ∀ r ∈ reportsOn message seen ds, P r := by
  induction ds generalizing seen with
  | nil => exact List.forall_mem_nil _
  | cons d ds ih =>
    rw [List.forall_mem_cons] at h
    rw [reportsOn, List.forall_mem_append, List.forall_mem_append]
    refine ⟨⟨h.1, ?_⟩, ih h.2 _⟩
    split
    · exact List.forall_mem_singleton.mpr (hP _ _)
    · exact List.forall_mem_nil _

end Readers

/-- Reads a declaration that `select` picks. -/
def symbol? (select : Kind → Option String) : Shape → Option (Except Halt (Declared Symbol))
  | .broken _ fault => some (breakOff fault)
  | .node id kind position children => (select kind).map fun name =>
    readSymbol id kind name children >>= fun symbol => pure ⟨name, position, symbol, []⟩

/-- Reads a method. -/
def signature? : Shape → Option (Except Halt (Declared Signature))
  | .node _ (.methodDecl name isPublic isStatic) position members =>
    some (readSignature name isPublic isStatic position members >>= fun r =>
      pure ⟨name, position, r.1, r.2⟩)
  | _ => none

theorem reports_of_symbol? {select : Kind → Option String} {s : Shape} {d : Declared Symbol}
    (h : symbol? select s = some (.ok d)) : d.reports = [] := by
  rcases s with ⟨id, kind, position, children⟩ | ⟨id, fault⟩
  · obtain ⟨name, -, h⟩ := Option.map_eq_some_iff.mp h
    obtain ⟨symbol, -, h⟩ := Halt.bind_ok h
    cases h
    rfl
  · cases h

theorem readSignature_of_signature? {s : Shape} {d : Declared Signature}
    (h : signature? s = some (.ok d)) : ∃ isPublic isStatic members,
      readSignature d.name isPublic isStatic d.position members = .ok (d.value, d.reports) := by
  rw [signature?.eq_def] at h
  split at h
  · obtain ⟨r, hr, h⟩ := Halt.bind_ok (Option.some.inj h)
    cases h
    exact ⟨_, _, _, hr⟩
  · cases h

theorem readSymbols_eq (select : Kind → Option String) (message : String → String)
    (seen : List String) (shapes : Shapes) :
    readSymbols select message seen shapes = readAll (symbol? select) shapes >>= fun ds =>
      pure (ds.map (·.value), reportsOn message seen ds) := by
  induction shapes generalizing seen with
  | nil => rfl
  | cons s rest ih =>
    rw [readSymbols]
    rcases hs : s () with ⟨id, kind, position, children⟩ | ⟨id, fault⟩
    · cases hk : select kind with
      | none =>
        have hread : symbol? select (s ()) = none := by rw [hs, symbol?, hk, Option.map_none]
        rw [readAll_cons_none hread]
        simp only [hk, ih]
      | some name =>
        have hread : symbol? select (s ()) = some (readSymbol id kind name children >>= fun symbol =>
            pure ⟨name, position, symbol, []⟩) := by rw [hs, symbol?, hk, Option.map_some]
        rw [readAll_cons_some hread]
        simp only [hk, ih, bind_assoc, pure_bind, List.map_cons, reportsOn, List.nil_append]
    · have hread : symbol? select (s ()) = some (breakOff fault) := by rw [hs, symbol?]
      rw [readAll_cons_some hread]
      rfl

theorem readSignatures_eq (seen : List String) (shapes : Shapes) :
    readSignatures seen shapes = readAll signature? shapes >>= fun ds =>
      pure (ds.map (·.value),
        reportsOn (fun name => "Duplicate method " ++ Text.quoted name) seen ds) := by
  induction shapes generalizing seen with
  | nil => rfl
  | cons s rest ih =>
    rw [readSignatures]
    cases hread : signature? (s ()) with
    | none =>
      rw [readAll_cons_none hread, ← ih]
      split
      · next hs =>
        rw [hs] at hread
        cases hread
      · rfl
    | some x =>
      rw [readAll_cons_some hread]
      split
      · next hs =>
        rw [hs] at hread
        cases hread
        simp only [ih, bind_assoc, pure_bind, List.map_cons, reportsOn]
      · next hother =>
        rw [signature?.eq_def] at hread
        split at hread
        · next hs => exact absurd hs (hother _ _ _ _ _ _)
        · cases hread

/-! ### Reading it off the tree -/

theorem checkLinks_ok (cs : List Subtree) : checkLinks (cs.map fun c _ => c.toShape) = .ok () := by
  induction cs with
  | nil => rfl
  | cons c cs ih =>
    obtain ⟨i, k, p, ds⟩ := c
    rw [List.map_cons, checkLinks, ih, toShape_node]
    rfl

theorem readSymbol_ok {cs : List Subtree} {ty : TypeExpr}
    (h : List.Forall₂ Reads cs [.type ty]) (id : NodeId) (kind : Kind) (name : String) :
    readSymbol id kind name (cs.map fun c _ => c.toShape) = .ok (Symbol.ofDecl (name, ty)) := by
  obtain ⟨d, rfl, hd⟩ := forall₂_one h
  obtain ⟨i, p, ds, rfl, -⟩ := reads_iff.mp hd
  rw [List.map_singleton, readSymbol, toShape_node]
  rfl

theorem lastType?_ok {cs : List Subtree} {parts : List Part} (h : List.Forall₂ Reads cs parts) :
    lastType? (cs.map fun c _ => c.toShape)
      = (parts.filterMap Part.type?).getLast?.map TypeExpr.ty := by
  induction h with
  | nil => rfl
  | @cons c part cs parts hc _ ih =>
    obtain ⟨i, p, ds, rfl, -⟩ := reads_iff.mp hc
    rw [List.map_cons, lastType?, toShape_node, ih]
    cases part with
    | type ty =>
      simp only [Part.kind, List.filterMap_cons, Part.type?, List.getLast?_cons, Option.map_some]
      cases (parts.filterMap Part.type?).getLast? <;> rfl
    | expr e => cases e <;> rfl
    | stmt s => cases s <;> rfl
    | _ => rfl

theorem importNames_ok {cs : List Subtree} {parts : List Part} (h : List.Forall₂ Reads cs parts) :
    (cs.map fun c (_ : Unit) => c.toShape).filterMap (fun s => (s ()).importName?)
      = (parts.filterMap Part.importDecl?).map Text.importedName := by
  induction h with
  | nil => rfl
  | @cons c part cs parts hc _ ih =>
    obtain ⟨i, p, ds, rfl, -⟩ := reads_iff.mp hc
    rw [List.map_cons, List.filterMap_cons, toShape_node, ih]
    cases part with
    | importDecl dotted => rfl
    | expr e => cases e <;> rfl
    | stmt s => cases s <;> rfl
    | _ => rfl

end Shape

theorem MethodDecl.filterMap_parts_type? (m : MethodDecl) :
    m.parts.filterMap Part.type? = m.returnType.toList := by
  simp [parts, List.filterMap_map, Function.comp_def, Part.type?]

theorem Program.filterMap_parts_importDecl? (p : Program) :
    p.parts.filterMap Part.importDecl? = p.imports := by
  simp [parts, List.filterMap_map, Function.comp_def, Part.importDecl?]

end Classlet
