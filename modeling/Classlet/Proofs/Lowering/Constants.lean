import Classlet.Proofs.Lowering.Variables
import Classlet.Proofs.Optimize.Constants

/-!
# The code of constant bodies

Assigning a literal to a variable of the method and returning a literal take one instruction each,
and neither a name nor a variable (`LowersTo`).  The optimizer leaves nothing else of a straight
line whose expressions have values.

* `lowerMethod_straightLine`: the code of a straight line of literals.
* `optimize_evaluates_straightLine`: what becomes of a straight line whose expressions have values.
-/

namespace Classlet

open Ir Lowering Optimize Subtree

/-- The operand that stands for the value. -/
def Constant.operand : Constant → Operand
  | int n => .const n
  | bool b => .ofBool b

/-- A move for every assignment of the line, and then a return. -/
def StraightLine.code (line : StraightLine Operand) : List Instr :=
  line.assigns.map (fun a => .move a.1 a.2) ++ [.ret (some line.result)]

namespace Lowering

variable {cx : Context} {x : String} {v : Constant}

/-! ### Statements -/

/-- The statement is lowered to the code, whatever names and variables have been given out, and
takes none. -/
def LowersTo (cx : Context) (s : Stmt) (code : List Instr) : Prop :=
  ∀ b : Subtree, b.IsStmt s → lowerStmt cx b.toShape = pure code

theorem load_literal (cx : Context) (hint : ValueType) {b : Subtree} (hb : b.IsExpr v.literal) :
    ∃ ty, load cx hint b.toShape = pure ⟨v.operand, ty, []⟩ := by
  obtain ⟨i, p, cs, rfl, -⟩ := isExpr_iff.mp hb
  cases v with
  | int n => exact ⟨.int, rfl⟩
  | bool b => exact ⟨.boolean, rfl⟩

theorem Context.declared_ofDecl {table : SymbolTable} {m : MethodDecl} :
    Context.Declared ⟨table, .ofDecl m⟩ x ↔ x ∈ (m.params ++ m.locals).map (·.1) := by
  rw [← Signature.names_ofDecl, List.mem_map]
  rfl

theorem Context.Declared.exists_resolve (h : cx.Declared x) :
    ∃ origin s, cx.resolve x = some (origin, s) ∧ origin ≠ .field := by
  obtain ⟨s, hs, hname⟩ := h
  have hfound : ((cx.signature.params ++ cx.signature.locals).find? (·.name == x)).isSome :=
    List.find?_isSome.mpr ⟨s, hs, by simpa using hname⟩
  obtain ⟨found, hfound⟩ := Option.isSome_iff_exists.mp hfound
  obtain ⟨origin, hr, ho⟩ := Context.resolve_own_iff.mpr hfound
  exact ⟨origin, found, hr, ho⟩

theorem lowersTo_assign (hx : cx.Declared x) :
    LowersTo cx (.assign x v.literal) [.move x v.operand] := by
  intro b hb
  obtain ⟨i, p, cs, rfl, hcs⟩ := isStmt_iff.mp hb
  obtain ⟨c, rfl, hc⟩ := forall₂_one hcs
  obtain ⟨origin, s, hr, ho⟩ := hx.exists_resolve
  obtain ⟨ty, hload⟩ := load_literal cx (.ofTy s.ty) hc
  rw [toShape_node, Stmt.kind, List.map_cons, lowerStmt, lowerAssign, hr]
  cases origin with
  | field => exact absurd rfl ho
  | _ =>
    simp only [hload, pure_bind]
    rfl

theorem lowersTo_ret (cx : Context) (v : Constant) :
    LowersTo cx (.ret (some v.literal)) [.ret (some v.operand)] := by
  intro b hb
  obtain ⟨i, p, cs, rfl, hcs⟩ := isStmt_iff.mp hb
  obtain ⟨c, rfl, hc⟩ := forall₂_one hcs
  obtain ⟨ty, hload⟩ := load_literal cx (.ofTy cx.signature.returnType) hc
  rw [toShape_node, Stmt.kind, List.map_cons, lowerStmt]
  simp only [hload, pure_bind]
  rfl

/-- Only the statements among the members of a method take part in its code. -/
theorem lowerBody_of_lowersTo {parts : List Part} {cs : List Subtree} {codes : List (List Instr)}
    (hcs : List.Forall₂ Reads cs parts)
    (h : List.Forall₂ (LowersTo cx) (parts.filterMap Part.stmt?) codes) :
    lowerBody cx (cs.map fun c _ => c.toShape) = pure codes.flatten := by
  induction hcs generalizing codes with
  | nil =>
    cases h
    rfl
  | @cons c part cs parts hc _ ih =>
    rw [List.map_cons, lowerBody, lift_bind hc.kind_toShape, part.isStatement_kind]
    cases hs : part.stmt? with
    | none =>
      rw [List.filterMap_cons_none hs] at h
      simp [ih h]
    | some s =>
      obtain rfl := Part.stmt?_eq_some.mp hs
      rw [List.filterMap_cons_some hs] at h
      obtain ⟨code, codes, hcode, hrest, rfl⟩ := List.forall₂_cons_left_iff.mp h
      simp [hcode c hc, ih hrest]

/-! ### Methods -/

theorem forall₂_lowersTo_body {values : StraightLine Constant}
    (hdeclared : ∀ x ∈ values.targets, cx.Declared x) :
    List.Forall₂ (LowersTo cx) (values.map Constant.literal).body
      ((values.map Constant.operand).code.map fun i => [i]) := by
  obtain ⟨assigns, result⟩ := values
  induction assigns with
  | nil => exact .cons (lowersTo_ret cx result) .nil
  | cons a assigns ih =>
    rw [StraightLine.targets, List.map_cons, List.forall_mem_cons] at hdeclared
    exact .cons (lowersTo_assign hdeclared.1) (ih hdeclared.2)

theorem vars_move (x : String) (v : Constant) : (Instr.move x v.operand).vars = [x] := by
  cases v <;> rfl

theorem vars_ret (v : Constant) : (Instr.ret (some v.operand)).vars = [] := by
  cases v <;> rfl

theorem mem_vars_code {values : StraightLine Constant} {i : Instr}
    (hi : i ∈ (values.map Constant.operand).code) (hx : x ∈ i.vars) : x ∈ values.targets := by
  rw [StraightLine.code, StraightLine.map, List.map_map, List.mem_append, List.mem_map,
    List.mem_singleton] at hi
  rcases hi with ⟨a, ha, rfl⟩ | rfl
  · rw [Function.comp_apply, vars_move, List.mem_singleton] at hx
    exact hx ▸ List.mem_map_of_mem ha
  · rw [vars_ret] at hx
    cases hx

theorem endWithReturn_code (ty : ValueType) (line : StraightLine Operand) :
    endWithReturn ty line.code = line.code := by
  rw [endWithReturn, if_neg]
  simp [StraightLine.code, Instr.isReturn]

/-- **A straight line of literals** is lowered to one move for each assignment and a return.  No
variable is added to those of the method. -/
theorem lowerMethod_straightLine {m : MethodDecl} {values : StraightLine Constant}
    {cs : List Subtree} (hcs : List.Forall₂ Reads cs m.parts)
    (hbody : m.body = (values.map Constant.literal).body)
    (hdeclared : ∀ x ∈ values.targets, cx.Declared x) :
    lowerMethod cx (cs.map fun c _ => c.toShape)
      = .ok (cx.methodCode (values.map Constant.operand).code cx.start.vars) := by
  have hstmts : m.parts.filterMap Part.stmt? = m.body := by
    simp [MethodDecl.parts, List.filterMap_append, List.filterMap_map, Function.comp_def,
      Part.stmt?]
  have hlower := lowerBody_of_lowersTo hcs (hstmts ▸ hbody ▸ forall₂_lowersTo_body hdeclared)
  rw [← List.flatMap_def, List.flatMap_singleton'] at hlower
  generalize hcode : (values.map Constant.operand).code = code at hlower
  have hrun : (lowerBody cx (cs.map fun c _ => c.toShape)).run cx.start = .ok (code, cx.start) := by
    rw [hlower]
    rfl
  have hverified : (cx.methodCode code cx.start.vars).verifyVars = .ok () := by
    rcases verifyVars_cases (m := cx.methodCode code cx.start.vars) with
      hv | ⟨i, hi, x, hx, hnot, -⟩
    · exact hv
    · rw [Context.methodCode, ← hcode, endWithReturn_code] at hi
      exact absurd (mem_names_start.mpr (.inr (hdeclared x (mem_vars_code hi hx)))) hnot
  rw [lowerMethod_eq, hrun]
  simp only [bind, Except.bind, hverified]
  rfl

end Lowering

/-! ### Programs -/

section Programs

variable {t : Tree} {b : Subtree} {imports : List String} {c : ClassDecl} {rest : List ClassDecl}
  {k : Nat} {m : MethodDecl}

theorem Tree.Pictures.exists_method (h : t.Pictures ⟨imports, c :: rest⟩ b)
    (hm : c.methods[k]? = some m) : ∃ entries id cs, t.methodEntries = .ok entries ∧
      entries[k]? = some (id, m.name) ∧ List.Forall₂ Reads cs m.parts ∧
      (t.shape id).children = .ok (cs.map fun c _ => c.toShape) := by
  obtain ⟨r, pos, is, i, p, fs, ms, after, rfl, his, hfs, hms, -⟩ := h.exists_firstClass
  obtain ⟨d, hd, hread, hentry⟩ := getElem?_methodEntries hms hm
  have hwithin {k k' : Kind} : d.Within (.node r k pos (is ++ .node i k' p (fs ++ ms) :: after)) :=
    .child (List.mem_append_right is List.mem_cons_self)
      (.child (List.mem_append_right fs (List.mem_of_getElem? hd)) (.refl d))
  obtain ⟨above, hholds⟩ := h.holds.within hwithin
  have hshape := hholds.shape_eq (hwithin.nodup h.nodup)
  obtain ⟨j, q, cs, rfl, hcs⟩ := reads_iff.mp hread
  refine ⟨_, _, cs, h.methodEntries_ok his hfs, hentry, hcs, ?_⟩
  rw [hshape, toShape_node]
  rfl

theorem Tree.Pictures.exists_codeOf {table : SymbolTable} {s : Signature} {lowered : ClassCode}
    (h : t.Pictures ⟨imports, c :: rest⟩ b) (hnames : NamedAlike table.signatures c.methods)
    (hlowered : t.lower table = .ok lowered) (hs : table.signatures[k]? = some s)
    (hm : c.methods[k]? = some m) :
    ∃ code, lowered.methods[k]? = some code ∧ CodeOf table code (s, m) := by
  have hzip : (table.signatures.zip c.methods)[k]? = some (s, m) := by
    rw [List.getElem?_zip_eq_some]
    exact ⟨hs, hm⟩
  rcases forall₂_getElem? (forall₂_lower h hnames hlowered) k with
    ⟨-, hnone⟩ | ⟨code, q, hcode, hq, hcodeOf⟩
  · cases hnone.symm.trans hzip
  · cases hq.symm.trans hzip
    exact ⟨code, hcode, hcodeOf⟩

end Programs

/-- **Straight lines of constants are evaluated completely.**  In a program with one class, let the
body of a method assign to parameters and local variables and then return a value, and let all
expressions have values.  The tree has a symbol table, and the optimizer comes to an end on it.  The
method then assigns and returns the literals of the values.  It can be lowered, to a move of the
constant for each assignment in order and a return of the constant, and it has no variables but the
receiver and the declared ones.  Wherever the class can be lowered, this is the code of the
method. -/
theorem optimize_evaluates_straightLine (imports : List String) (c : ClassDecl) {k : Nat}
    {m : MethodDecl} (hm : c.methods[k]? = some m) {line : StraightLine Expr}
    (hbody : m.body = line.body) (hdeclared : line.targets ⊆ (m.params ++ m.locals).map (·.1))
    {values : StraightLine Constant} (hvalues : line.evaluate = some values) :
    ∃ table reports stats t' methods entries id s members code,
      (Program.mk imports [c]).build.symbolTable = .ok (table, reports) ∧
      optimize table (Program.mk imports [c]).build = (.ok stats, t') ∧
      t'.program? = some ⟨imports, [{ c with methods }]⟩ ∧
      methods[k]? = some { m with body := (values.map Constant.literal).body } ∧
      t'.methodEntries = .ok entries ∧ entries[k]? = some (id, m.name) ∧
      table.declared k m.name = .ok s ∧ (t'.shape id).children = .ok members ∧
      lowerMethod ⟨table, s⟩ members = .ok code ∧
      code.instructions = (values.map Constant.operand).code ∧
      (∀ x ∈ code.vars.names,
        (m.isStatic = false ∧ x = thisName) ∨ x ∈ (m.params ++ m.locals).map (·.1)) ∧
      ∀ lowered, t'.lower table = .ok lowered → lowered.methods[k]? = some code := by
  obtain ⟨b, hb⟩ := (Program.mk imports [c]).pictures_build
  obtain ⟨reports, htable⟩ := hb.symbolTable_ok
  have hnames : NamedAlike (SymbolTable.ofDecls imports c).signatures c.methods :=
    namedAlike_ofDecl c.methods
  obtain ⟨stats, t', b', hrun, hb'⟩ := optimize_normalizes_single hb hnames
  have hs : (SymbolTable.ofDecls imports c).signatures[k]? = some (.ofDecl m) := by
    rw [SymbolTable.ofDecls, List.getElem?_map, hm]
    rfl
  have hm' : (c.normalize (SymbolTable.ofDecls imports c).signatures).methods[k]?
      = some { m with body := (values.map Constant.literal).body } := by
    rw [ClassDecl.normalize, List.getElem?_zipWith, hs, hm]
    exact congrArg some (m.normalize_straightLine hbody hdeclared hvalues)
  obtain ⟨entries, id, cs, hentries, hentry, hcs, hchildren⟩ := hb'.exists_method hm'
  have htargets : values.targets = line.targets := StraightLine.targets_evaluateFrom hvalues
  have hown : ∀ x ∈ values.targets, Context.Declared ⟨.ofDecls imports c, .ofDecl m⟩ x := by
    intro x hx
    rw [Context.declared_ofDecl]
    exact hdeclared (htargets ▸ hx)
  refine ⟨_, reports, stats, t', _, entries, id, _, _, _, htable, hrun, hb'.program?_eq, hm',
    hentries, hentry, SymbolTable.declared_ok hs, hchildren, lowerMethod_straightLine hcs rfl hown,
    endWithReturn_code _ _,
    fun x hx => (mem_names_start.mp hx).imp_right Context.declared_ofDecl.mp,
    fun lowered hlowered => ?_⟩
  obtain ⟨code, hcode, cs', hcs', hlower⟩ :=
    hb'.exists_codeOf hnames.normalize hlowered hs hm'
  rw [lowerMethod_straightLine hcs' rfl hown] at hlower
  cases hlower
  exact hcode

/-- A line that assigns to one variable twice and reads both values. -/
def countdownLine : StraightLine Expr where
  assigns := [
    ("n", .binary .add (.int 2) (.paren (.int 3))),
    ("small", .unary .not (.binary .lt (.var "n") (.int 5))),
    ("n", .binary .sub (.var "n") (.binary .mul (.var "n") (.int 4))),
    ("small", .binary .and (.var "small") (.binary .lt (.var "n") (.int 0)))]
  result := .binary .div (.var "n") (.int 2)

/-- The values of `countdownLine`. -/
def countdownValues : StraightLine Constant where
  assigns := [("n", .int 5), ("small", .bool true), ("n", .int (-15)), ("small", .bool true)]
  result := .int (-7)

/-- A method with that line. -/
def countdownMethod : MethodDecl where
  name := "countdown"
  isPublic := true
  isStatic := false
  returnType := some ⟨"int", false, false⟩
  params := [("n", ⟨"int", false, false⟩)]
  locals := [("small", ⟨"boolean", false, false⟩)]
  body := countdownLine.body

/-- A class with that method. -/
def countdownClass : ClassDecl := ⟨"Countdown", none, [], [countdownMethod]⟩

theorem optimize_evaluates_countdown :
    countdownClass.methods[0]? = some countdownMethod ∧
    countdownMethod.body = countdownLine.body ∧
    countdownLine.targets ⊆ (countdownMethod.params ++ countdownMethod.locals).map (·.1) ∧
    countdownLine.evaluate = some countdownValues ∧
    ∃ table reports stats t' methods entries id s members code,
      (Program.mk [] [countdownClass]).build.symbolTable = .ok (table, reports) ∧
      optimize table (Program.mk [] [countdownClass]).build = (.ok stats, t') ∧
      t'.program? = some ⟨[], [{ countdownClass with methods }]⟩ ∧
      methods[0]?
        = some { countdownMethod with body := (countdownValues.map Constant.literal).body } ∧
      t'.methodEntries = .ok entries ∧ entries[0]? = some (id, countdownMethod.name) ∧
      table.declared 0 countdownMethod.name = .ok s ∧ (t'.shape id).children = .ok members ∧
      lowerMethod ⟨table, s⟩ members = .ok code ∧
      code.instructions = (countdownValues.map Constant.operand).code ∧
      (∀ x ∈ code.vars.names, (countdownMethod.isStatic = false ∧ x = thisName) ∨
        x ∈ (countdownMethod.params ++ countdownMethod.locals).map (·.1)) ∧
      ∀ lowered, t'.lower table = .ok lowered → lowered.methods[0]? = some code := by
  have hm : countdownClass.methods[0]? = some countdownMethod := rfl
  have hbody : countdownMethod.body = countdownLine.body := rfl
  have hdeclared : countdownLine.targets
      ⊆ (countdownMethod.params ++ countdownMethod.locals).map (·.1) := by decide
  have hvalues : countdownLine.evaluate = some countdownValues := by decide
  exact ⟨hm, hbody, hdeclared, hvalues,
    optimize_evaluates_straightLine [] countdownClass hm hbody hdeclared hvalues⟩

end Classlet
