import Classlet.Proofs.Symbols.Declarations
import Classlet.Proofs.Syntax.Rewriting

/-!
# What the symbol table depends on

The symbol table and the reports on the declarations are read off the subtree at the root, of which
only what is outside of statements matters (`Subtree.declarations`).

* `Tree.symbolTable_eq_of_declarations`: trees with the same declarations have the same table.
* `Tree.symbolTable_eq_of_rewritten`: rewriting expressions keeps the table.
* `Program.symbolTable_further`: classes behind the first one are not in the table.
-/

namespace Classlet

open Subtree

namespace Subtree

mutual

/-- The subtree without what is inside its statements. -/
def declarations : Subtree → Subtree
  | .node id kind position children =>
    .node id kind position (if kind.isStatement then [] else declarationsOfAll children)

/-- The subtrees without what is inside their statements. -/
def declarationsOfAll : List Subtree → List Subtree
  | [] => []
  | b :: rest => b.declarations :: declarationsOfAll rest

end

theorem declarationsOfAll_eq (bs : List Subtree) : declarationsOfAll bs = bs.map declarations := by
  induction bs with
  | nil => rfl
  | cons b bs ih => rw [declarationsOfAll, ih, List.map_cons]

@[simp]
theorem declarations_node (i : NodeId) (k : Kind) (p : Position) (cs : List Subtree) :
    (node i k p cs).declarations
      = node i k p (if k.isStatement then [] else cs.map declarations) := by
  rw [declarations, declarationsOfAll_eq]

end Subtree

/-! ### The table is read off the declarations -/

namespace Shape

theorem readType_declarations (b : Subtree) :
    b.declarations.toShape.readType = b.toShape.readType := by
  obtain ⟨i, k, p, cs⟩ := b
  rw [declarations_node, toShape_node, toShape_node]
  cases k <;> rfl

theorem readSymbol_declarations (id : NodeId) (kind : Kind) (name : String) (cs : List Subtree) :
    readSymbol id kind name ((cs.map declarations).map fun c _ => c.toShape)
      = readSymbol id kind name (cs.map fun c _ => c.toShape) := by
  cases cs with
  | nil => rfl
  | cons c cs => simp only [List.map_cons, readSymbol, readType_declarations]

/-- A reader that does not look into statements reads the same without what is inside them. -/
theorem readAll_declarations {α : Type} {read? : Shape → Option (Except Halt (Declared α))}
    (h : ∀ c : Subtree, read? c.declarations.toShape = read? c.toShape) (cs : List Subtree) :
    readAll read? ((cs.map declarations).map fun c _ => c.toShape)
      = readAll read? (cs.map fun c _ => c.toShape) := by
  simp only [readAll, List.filterMap_map, Function.comp_def]
  rw [List.filterMap_congr fun c _ => h c]

/-- Statements declare nothing, so what is inside them does not matter. -/
theorem readSymbols_declarations {select : Kind → Option String}
    (hselect : ∀ k : Kind, k.isStatement = true → select k = none) (message : String → String)
    (seen : List String) (cs : List Subtree) :
    readSymbols select message seen ((cs.map declarations).map fun c _ => c.toShape)
      = readSymbols select message seen (cs.map fun c _ => c.toShape) := by
  rw [readSymbols_eq, readSymbols_eq, readAll_declarations]
  rintro ⟨i, k, p, ds⟩
  simp only [declarations_node, toShape_node, symbol?]
  by_cases hk : k.isStatement = true
  · rw [hselect k hk, Option.map_none, Option.map_none]
  · simp only [if_neg hk, readSymbol_declarations]

theorem paramName?_of_isStatement {k : Kind} (h : k.isStatement = true) : k.paramName? = none := by
  cases k <;> first | rfl | cases h

theorem varName?_of_isStatement {k : Kind} (h : k.isStatement = true) : k.varName? = none := by
  cases k <;> first | rfl | cases h

theorem lastType?_declarations (cs : List Subtree) :
    lastType? ((cs.map declarations).map fun c _ => c.toShape)
      = lastType? (cs.map fun c _ => c.toShape) := by
  induction cs with
  | nil => rfl
  | cons c cs ih =>
    obtain ⟨i, k, p, ds⟩ := c
    simp only [List.map_cons, declarations_node, toShape_node, lastType?, ih]
    cases k <;> rfl

theorem readSignature_declarations (name : String) (isPublic isStatic : Bool) (p : Position)
    (cs : List Subtree) :
    readSignature name isPublic isStatic p ((cs.map declarations).map fun c _ => c.toShape)
      = readSignature name isPublic isStatic p (cs.map fun c _ => c.toShape) := by
  simp only [readSignature, checkLinks_ok, lastType?_declarations,
    readSymbols_declarations (fun _ h => paramName?_of_isStatement h),
    readSymbols_declarations (fun _ h => varName?_of_isStatement h)]

theorem readSignatures_declarations (seen : List String) (cs : List Subtree) :
    readSignatures seen ((cs.map declarations).map fun c _ => c.toShape)
      = readSignatures seen (cs.map fun c _ => c.toShape) := by
  rw [readSignatures_eq, readSignatures_eq, readAll_declarations]
  rintro ⟨i, k, p, ds⟩
  rw [declarations_node, toShape_node, toShape_node]
  cases k with
  | methodDecl name isPublic isStatic =>
    simp only [signature?, Kind.isStatement, Bool.false_eq_true, if_false,
      readSignature_declarations]
  | _ => rfl

/-- The first class is found with its members, or not at all. -/
theorem firstClass_declarations (cs : List Subtree) :
    (∃ name superclass, ∃ ds : List Subtree,
      firstClass (cs.map fun c _ => c.toShape) = .ok (name, superclass, ds.map fun d _ => d.toShape) ∧
      firstClass ((cs.map declarations).map fun c _ => c.toShape)
        = .ok (name, superclass, (ds.map declarations).map fun d _ => d.toShape)) ∨
    ∃ h, firstClass (cs.map fun c _ => c.toShape) = .error h ∧
      firstClass ((cs.map declarations).map fun c _ => c.toShape) = .error h := by
  induction cs with
  | nil => exact .inr ⟨_, rfl, rfl⟩
  | cons c cs ih =>
    obtain ⟨i, k, p, ds⟩ := c
    simp only [List.map_cons, declarations_node, toShape_node, firstClass]
    cases k with
    | classDecl name superclass => exact .inl ⟨name, superclass, ds, rfl, rfl⟩
    | _ => exact ih

theorem importNames_declarations (cs : List Subtree) :
    ((cs.map declarations).map fun c (_ : Unit) => c.toShape).filterMap
        (fun s => (s ()).importName?)
      = (cs.map fun c (_ : Unit) => c.toShape).filterMap fun s => (s ()).importName? := by
  simp only [List.filterMap_map, Function.comp_def]
  refine List.filterMap_congr fun c _ => ?_
  obtain ⟨i, k, p, ds⟩ := c
  rw [declarations_node, toShape_node, toShape_node]
  cases k <;> rfl

/-- **The table is read off the declarations.** -/
theorem readTable_declarations (cs : List Subtree) :
    readTable ((cs.map declarations).map fun c _ => c.toShape)
      = readTable (cs.map fun c _ => c.toShape) := by
  simp only [readTable, checkLinks_ok, importNames_declarations]
  rcases firstClass_declarations cs with ⟨name, superclass, ds, h, h'⟩ | ⟨halt, h, h'⟩
  · rw [h, h']
    simp only [bind, Except.bind, checkLinks_ok, readSignatures_declarations,
      readSymbols_declarations (fun _ h => varName?_of_isStatement h)]
  · rw [h, h']

end Shape

namespace Tree

variable {t t' : Tree} {p p' : Program} {b b' : Subtree}

theorem Pictures.symbolTable_eq {i : NodeId} {k : Kind} {pos : Position} {cs : List Subtree}
    (h : t.Pictures p (.node i k pos cs)) :
    t.symbolTable = Shape.readTable (cs.map fun c _ => c.toShape) := by
  rw [symbolTable, h.children_eq]
  rfl

/-- **Trees with the same declarations have the same table.** -/
theorem symbolTable_eq_of_declarations (h : t.Pictures p b) (h' : t'.Pictures p' b')
    (hb : b'.declarations = b.declarations) : t'.symbolTable = t.symbolTable := by
  obtain ⟨i, pos, cs, rfl, -⟩ := reads_iff.mp h.reads
  obtain ⟨i', pos', cs', rfl, -⟩ := reads_iff.mp h'.reads
  simp only [declarations_node, Part.kind, Kind.isStatement, Bool.false_eq_true, if_false,
    node.injEq] at hb
  rw [h.symbolTable_eq, h'.symbolTable_eq, ← Shape.readTable_declarations cs',
    ← Shape.readTable_declarations cs, hb.2.2.2]

end Tree

/-! ### Rewriting expressions -/

theorem Part.expr?_of_mem_parts {part q : Part} (he : part.expr? = none) (hs : part.stmt? = none)
    (hq : q ∈ part.parts) : q.expr? = none := by
  cases part with
  | expr e => cases he
  | stmt s => cases hs
  | type ty => cases hq
  | importDecl dotted => cases hq
  | param decl | varDecl decl =>
    obtain rfl := List.mem_singleton.mp hq
    rfl
  | method m =>
    simp only [parts, MethodDecl.parts, List.mem_append, List.mem_map] at hq
    rcases hq with ((⟨_, -, rfl⟩ | ⟨_, -, rfl⟩) | ⟨_, -, rfl⟩) | ⟨_, -, rfl⟩ <;> rfl
  | classDecl c =>
    simp only [parts, ClassDecl.parts, List.mem_append, List.mem_map] at hq
    rcases hq with ⟨_, -, rfl⟩ | ⟨_, -, rfl⟩ <;> rfl
  | program p =>
    simp only [parts, Program.parts, List.mem_append, List.mem_map] at hq
    rcases hq with ⟨_, -, rfl⟩ | ⟨_, -, rfl⟩ <;> rfl

theorem map_eq_of_forall₂ {α β γ : Type} {R : α → β → Prop} {f : α → γ} {g : β → γ} {as : List α}
    {bs : List β} (h : List.Forall₂ R as bs) (hfg : ∀ a ∈ as, ∀ b, R a b → g b = f a) :
    bs.map g = as.map f := by
  induction h with
  | nil => rfl
  | cons hab _ ih =>
    rw [List.map_cons, List.map_cons, hfg _ List.mem_cons_self _ hab,
      ih fun a ha => hfg a (List.mem_cons_of_mem _ ha)]

/-- **Expressions are inside statements only**, so rewriting them keeps the declarations. -/
theorem Subtree.Rewritten.declarations_eq {b b' : Subtree} {part : Part} (h : b.Rewritten b')
    (hb : b.Reads part) (hpart : part.expr? = none) : b'.declarations = b.declarations := by
  induction b generalizing b' part with
  | node i k p cs ih =>
    obtain ⟨rfl, hcs⟩ := reads_node_iff.mp hb
    cases h with
    | replaced hk _ =>
      have hexpr := Kind.isExpression_of_isReplaceable hk
      rw [kind_node, Part.isExpression_kind, hpart] at hexpr
      cases hexpr
    | kept below =>
      rw [declarations_node, declarations_node]
      split
      · rfl
      · next hstmt =>
        rw [part.isStatement_kind, Option.isSome_iff_ne_none, ne_eq, not_not] at hstmt
        congr 1
        refine map_eq_of_forall₂ below fun c hc c' hcc' => ?_
        obtain ⟨q, hq, hread⟩ := forall₂_of_mem_left hcs hc
        exact ih c hc hcc' hread (Part.expr?_of_mem_parts hpart hstmt hq)

/-- **Rewriting expressions keeps the table** and the reports. -/
theorem Tree.symbolTable_eq_of_rewritten {t t' : Tree} {p p' : Program} {b b' : Subtree}
    (h : t.Pictures p b) (h' : t'.Pictures p' b') (hr : t.Rewritten t') :
    t'.symbolTable = t.symbolTable := by
  have hid : b'.id = b.id := by rw [h.root, h'.root, hr.root_eq]
  exact symbolTable_eq_of_declarations h h'
    ((hr.subtree h.holds h'.holds hid).declarations_eq h.reads rfl)

/-! ### Further classes -/

/-- **Classes behind the first one** are not in the table, and nothing is reported on them. -/
theorem Program.symbolTable_further (imports : List String) (c : ClassDecl)
    (rest : List ClassDecl) :
    (mk imports (c :: rest)).build.symbolTable = (mk imports [c]).build.symbolTable := by
  obtain ⟨as, bs, -, -, h, h'⟩ := pictures_further imports [c] rest
  obtain ⟨-, has⟩ := reads_node_iff.mp h.reads
  obtain ⟨-, hall⟩ := reads_node_iff.mp h'.reads
  have himports := Shape.importNames_ok has
  have himports' := Shape.importNames_ok hall
  obtain ⟨is, ks, rfl, his, hks⟩ := forall₂_append_inv has
  obtain ⟨k, rfl, hk⟩ := forall₂_one hks
  obtain ⟨i, pos, ds, rfl, -⟩ := reads_iff.mp hk
  simp only [Part.kind, Part.parts, filterMap_parts_importDecl?, List.append_assoc,
    List.singleton_append] at h h' himports himports'
  refine h'.symbolTable_eq.trans (Eq.trans ?_ h.symbolTable_eq.symm)
  simp only [Shape.readTable, Shape.firstClass_ok his, Shape.checkLinks_ok, himports, himports']

end Classlet
