import Classlet.Proofs.Syntax.Subtree
import Classlet.Syntax.Program

/-!
# Parts of programs

A part of a program is what one node of its tree stands for.  Every part has a kind and consists of
other parts in a fixed order, and these two determine it: `Part.ofKind` puts a part together again,
from a kind and the parts of which it consists, and fails on everything else (`ofKind_eq_some`).

* `Expr.ind`, `Stmt.ind`: induction over expressions and statements with one hypothesis for all
  members of a list.
-/

namespace Classlet

/-! ### Induction over expressions and statements -/

@[elab_as_elim, induction_eliminator]
theorem Expr.ind {motive : Expr → Prop} (int : ∀ n, motive (.int n)) (bool : ∀ b, motive (.bool b))
    (var : ∀ x, motive (.var x))
    (binary : ∀ op l r, motive l → motive r → motive (.binary op l r))
    (unary : ∀ op e, motive e → motive (.unary op e))
    (call : ∀ e method args, motive e → (∀ a ∈ args, motive a) → motive (.call e method args))
    (field : ∀ e x, motive e → motive (.field e x))
    (index : ∀ a i, motive a → motive i → motive (.index a i))
    (length : ∀ a, motive a → motive (.length a))
    (newArray : ∀ n, motive n → motive (.newArray n))
    (arrayLit : ∀ es, (∀ e ∈ es, motive e) → motive (.arrayLit es))
    (newObject : ∀ c, motive (.newObject c)) (this : motive .this)
    (paren : ∀ e, motive e → motive (.paren e)) (e : Expr) : motive e :=
  @Expr.rec motive (fun es => ∀ e ∈ es, motive e)
    int bool var binary unary call field index length newArray arrayLit newObject this paren
    (by simp) (fun _ _ h hs => by simpa using ⟨h, hs⟩) e

@[elab_as_elim, induction_eliminator]
theorem Stmt.ind {motive : Stmt → Prop} (assign : ∀ x e, motive (.assign x e))
    (arrayAssign : ∀ x i e, motive (.arrayAssign x i e)) (ret : ∀ e, motive (.ret e))
    (ifThen : ∀ c b, motive b → motive (.ifThen c b))
    (ifElse : ∀ c b o, motive b → motive o → motive (.ifElse c b o))
    (whileDo : ∀ c b, motive b → motive (.whileDo c b))
    (block : ∀ body, (∀ s ∈ body, motive s) → motive (.block body))
    (expr : ∀ e, motive (.expr e)) (s : Stmt) : motive s :=
  @Stmt.rec motive (fun ss => ∀ s ∈ ss, motive s)
    assign arrayAssign ret ifThen ifElse whileDo block expr
    (by simp) (fun _ _ h hs => by simpa using ⟨h, hs⟩) s

/-! ### Parts -/

/-- A part of a program, of the sort a node stands for. -/
inductive Part where
  | expr (e : Expr)
  | stmt (s : Stmt)
  | type (ty : TypeExpr)
  | param (decl : String × TypeExpr)
  | varDecl (decl : String × TypeExpr)
  | method (m : MethodDecl)
  | classDecl (c : ClassDecl)
  | importDecl (dotted : String)
  | program (p : Program)

namespace Part

/-- The expression, if the part is one. -/
def expr? : Part → Option Expr
  | expr e => some e
  | _ => none

/-- The statement, if the part is one. -/
def stmt? : Part → Option Stmt
  | stmt s => some s
  | _ => none

/-- The written type, if the part is one. -/
def type? : Part → Option TypeExpr
  | type ty => some ty
  | _ => none

/-- The declared parameter, if the part is one. -/
def param? : Part → Option (String × TypeExpr)
  | param decl => some decl
  | _ => none

/-- The declared variable, if the part is one. -/
def varDecl? : Part → Option (String × TypeExpr)
  | varDecl decl => some decl
  | _ => none

/-- The method, if the part is one. -/
def method? : Part → Option MethodDecl
  | method m => some m
  | _ => none

/-- The class, if the part is one. -/
def classDecl? : Part → Option ClassDecl
  | classDecl c => some c
  | _ => none

/-- The import, if the part is one. -/
def importDecl? : Part → Option String
  | importDecl dotted => some dotted
  | _ => none

/-- The program, if the part is one. -/
def program? : Part → Option Program
  | program p => some p
  | _ => none
end Part

/-- The kind of the node of an expression. -/
def Expr.kind : Expr → Kind
  | .int value => .intLit value
  | .bool value => .boolLit value
  | .var name => .varRef name
  | .binary op _ _ => .binary op
  | .unary op _ => .unary op
  | .call _ called _ => .methodCall called
  | .field _ name => .fieldAccess name
  | .index _ _ => .arrayAccess
  | .length _ => .arrayLength
  | .newArray _ => .newArray
  | .arrayLit _ => .arrayLit
  | .newObject className => .newObject className
  | .this => .this
  | .paren _ => .paren

/-- The expressions an expression is made of. -/
def Expr.parts : Expr → List Expr
  | .int _ | .bool _ | .var _ | .newObject _ | .this => []
  | .binary _ lhs rhs => [lhs, rhs]
  | .unary _ operand => [operand]
  | .call receiver _ args => receiver :: args
  | .field object _ => [object]
  | .index array position => [array, position]
  | .length array => [array]
  | .newArray size => [size]
  | .arrayLit elements => elements
  | .paren inner => [inner]

theorem Expr.ext_parts {e e' : Expr} (hk : e.kind = e'.kind) (hp : e.parts = e'.parts) :
    e = e' := by
  cases e <;> cases e' <;> cases hk <;> simp_all [parts]

/-- Induction over expressions by their parts. -/
theorem Expr.ind_parts {motive : Expr → Prop} (h : ∀ e, (∀ a ∈ e.parts, motive a) → motive e)
    (e : Expr) : motive e := by
  induction e with
  | int | bool | var | newObject | this => exact h _ (by simp [parts])
  | unary | field | length | newArray | paren => exact h _ (by simpa [parts])
  | binary _ _ _ hl hr => exact h _ (by simp [parts, hl, hr])
  | index _ _ ha hi => exact h _ (by simp [parts, ha, hi])
  | call _ _ _ he hargs => exact h _ (by simpa [parts, he] using hargs)
  | arrayLit _ hes => exact h _ hes

theorem Expr.exists_of_parts (e : Expr) {es : List Expr} (h : es.length = e.parts.length) :
    ∃ e' : Expr, e'.kind = e.kind ∧ e'.parts = es := by
  cases e with
  | int | bool | var | newObject | this =>
    exact ⟨_, rfl, (List.length_eq_zero_iff.mp h).symm⟩
  | binary op =>
    obtain ⟨a, b, rfl⟩ := List.length_eq_two.mp h
    exact ⟨.binary op a b, rfl, rfl⟩
  | unary op =>
    obtain ⟨a, rfl⟩ := List.length_eq_one_iff.mp h
    exact ⟨.unary op a, rfl, rfl⟩
  | call receiver method =>
    obtain ⟨a, as, rfl⟩ := List.exists_cons_of_length_eq_add_one h
    exact ⟨.call a method as, rfl, rfl⟩
  | field object name =>
    obtain ⟨a, rfl⟩ := List.length_eq_one_iff.mp h
    exact ⟨.field a name, rfl, rfl⟩
  | index =>
    obtain ⟨a, b, rfl⟩ := List.length_eq_two.mp h
    exact ⟨.index a b, rfl, rfl⟩
  | length =>
    obtain ⟨a, rfl⟩ := List.length_eq_one_iff.mp h
    exact ⟨.length a, rfl, rfl⟩
  | newArray =>
    obtain ⟨a, rfl⟩ := List.length_eq_one_iff.mp h
    exact ⟨.newArray a, rfl, rfl⟩
  | arrayLit => exact ⟨.arrayLit es, rfl, rfl⟩
  | paren =>
    obtain ⟨a, rfl⟩ := List.length_eq_one_iff.mp h
    exact ⟨.paren a, rfl, rfl⟩

/-- The kind of the node of a statement. -/
def Stmt.kind : Stmt → Kind
  | .assign target _ => .assign target
  | .arrayAssign target _ _ => .arrayAssign target
  | .ret _ => .returnStmt
  | .ifThen _ _ | .ifElse _ _ _ => .ifStmt
  | .whileDo _ _ => .whileStmt
  | .block _ => .block
  | .expr _ => .exprStmt

/-- The expressions and statements a statement is made of. -/
def Stmt.parts : Stmt → List Part
  | .assign _ value => [.expr value]
  | .arrayAssign _ index value => [.expr index, .expr value]
  | .ret value => value.toList.map .expr
  | .ifThen cond body => [.expr cond, .stmt body]
  | .ifElse cond body otherwise => [.expr cond, .stmt body, .stmt otherwise]
  | .whileDo cond body => [.expr cond, .stmt body]
  | .block body => body.map .stmt
  | .expr value => [.expr value]

theorem Text.intercalate_splitChars (sep : Char) (cs : List Char) :
    [sep].intercalate (Text.splitChars sep cs) = cs := by
  induction cs with
  | nil => rfl
  | cons c cs ih =>
    rw [Text.splitChars]
    split
    · next h =>
      rw [List.intercalate_cons_of_ne_nil (Text.splitChars_ne_nil sep cs), ih, h]
      rfl
    · split
      · next h => exact absurd h (Text.splitChars_ne_nil sep cs)
      · next part parts h =>
        rw [h] at ih
        rw [List.intercalate_cons_cons_left, ih]

theorem Text.intercalate_segments (s : String) : ".".intercalate (Text.segments s) = s := by
  apply String.toList_injective
  rw [String.toList_intercalate, Text.segments, List.map_map]
  have h : (String.toList ∘ String.ofList) = fun cs : List Char => cs :=
    funext fun cs => String.toList_ofList
  rw [h, List.map_id']
  exact Text.intercalate_splitChars '.' s.toList

/-- The parts of a method in the order they are written. -/
def MethodDecl.parts (m : MethodDecl) : List Part :=
  (m.returnType.toList.map .type ++ m.params.map .param ++ m.locals.map .varDecl)
    ++ m.body.map .stmt

/-- The parts of a class in the order they are written. -/
def ClassDecl.parts (c : ClassDecl) : List Part := c.fields.map .varDecl ++ c.methods.map .method

/-- The parts of a program in the order they are written. -/
def Program.parts (p : Program) : List Part := p.imports.map .importDecl ++ p.classes.map .classDecl

namespace Part

/-- The kind of the node of a part. -/
def kind : Part → Kind
  | expr e => e.kind
  | stmt s => s.kind
  | type ty => .typeRef ty.name ty.isArray ty.isVarargs
  | param decl => .param decl.1
  | varDecl decl => .varDecl decl.1
  | method m => .methodDecl m.name m.isPublic m.isStatic
  | classDecl c => .classDecl c.name c.superclass
  | importDecl dotted => .importDecl (Text.segments dotted)
  | program _ => .program

/-- The parts of which a part consists. -/
def parts : Part → List Part
  | expr e => e.parts.map expr
  | stmt s => s.parts
  | param decl | varDecl decl => [type decl.2]
  | method m => m.parts
  | classDecl c => c.parts
  | program p => p.parts
  | type _ | importDecl _ => []

/-- The values of a property for the expressions of which a part consists. -/
def values {α : Type} (τ : Expr → α) (part : Part) : List α :=
  part.parts.filterMap fun inner => inner.expr?.map τ

/-! ### Putting parts together -/

/-- What `f` makes of the parts at the front, up to the first of which it makes nothing, and the
parts from there on. -/
def leading {α : Type} (f : Part → Option α) : List Part → List α × List Part
  | [] => ([], [])
  | part :: rest =>
    match f part with
    | some a =>
      let (as, others) := leading f rest
      (a :: as, others)
    | none => ([], part :: rest)

/-- The method of the given parts, if they are in order. -/
def methodOf (name : String) (isPublic isStatic : Bool) (parts : List Part) : Option MethodDecl :=
  let types := leading type? parts
  let params := leading param? types.2
  let locals := leading varDecl? params.2
  match types.1, locals.2.mapM stmt? with
  | [], some body => some ⟨name, isPublic, isStatic, none, params.1, locals.1, body⟩
  | [ty], some body => some ⟨name, isPublic, isStatic, some ty, params.1, locals.1, body⟩
  | _, _ => none

/-- The class of the given parts, if they are in order. -/
def classOf (name : String) (superclass : Option String) (parts : List Part) : Option ClassDecl :=
  let fields := leading varDecl? parts
  (fields.2.mapM method?).map fun methods => ⟨name, superclass, fields.1, methods⟩

/-- The program of the given parts, if they are in order. -/
def programOf (parts : List Part) : Option Program :=
  let imports := leading importDecl? parts
  (imports.2.mapM classDecl?).map fun classes => ⟨imports.1, classes⟩

/-- The import of a path, if the segments of the path are those of its dotted name. -/
def importOf (path : List String) : Option String :=
  let dotted := ".".intercalate path
  if Text.segments dotted = path then some dotted else none

/-- The part that a node of a kind stands for, from the parts its children stand for. -/
def ofKind : Kind → List Part → Option Part
  | .program, parts => (programOf parts).map program
  | .importDecl path, [] => (importOf path).map importDecl
  | .classDecl name superclass, parts => (classOf name superclass parts).map classDecl
  | .varDecl name, [type ty] => some (varDecl (name, ty))
  | .methodDecl name isPublic isStatic, parts => (methodOf name isPublic isStatic parts).map method
  | .param name, [type ty] => some (param (name, ty))
  | .typeRef name isArray isVarargs, [] => some (type ⟨name, isArray, isVarargs⟩)
  | .assign target, [expr value] => some (stmt (.assign target value))
  | .arrayAssign target, [expr index, expr value] => some (stmt (.arrayAssign target index value))
  | .returnStmt, [] => some (stmt (.ret none))
  | .returnStmt, [expr value] => some (stmt (.ret (some value)))
  | .ifStmt, [expr cond, stmt body] => some (stmt (.ifThen cond body))
  | .ifStmt, [expr cond, stmt body, stmt otherwise] => some (stmt (.ifElse cond body otherwise))
  | .whileStmt, [expr cond, stmt body] => some (stmt (.whileDo cond body))
  | .block, parts => (parts.mapM stmt?).map fun body => stmt (.block body)
  | .exprStmt, [expr value] => some (stmt (.expr value))
  | .intLit value, [] => some (expr (.int value))
  | .boolLit value, [] => some (expr (.bool value))
  | .varRef name, [] => some (expr (.var name))
  | .binary op, [expr lhs, expr rhs] => some (expr (.binary op lhs rhs))
  | .unary op, [expr operand] => some (expr (.unary op operand))
  | .methodCall called, expr receiver :: args =>
    (args.mapM expr?).map fun args => expr (.call receiver called args)
  | .fieldAccess field, [expr object] => some (expr (.field object field))
  | .arrayAccess, [expr array, expr position] => some (expr (.index array position))
  | .arrayLength, [expr array] => some (expr (.length array))
  | .newArray, [expr size] => some (expr (.newArray size))
  | .arrayLit, parts => (parts.mapM expr?).map fun elements => expr (.arrayLit elements)
  | .newObject className, [] => some (expr (.newObject className))
  | .this, [] => some (expr .this)
  | .paren, [expr inner] => some (expr (.paren inner))
  | _, _ => none

/-! ### Lists of parts -/

theorem expr?_eq_some {part : Part} {e : Expr} : part.expr? = some e ↔ part = expr e := by
  cases part <;> simp [expr?]

theorem stmt?_eq_some {part : Part} {s : Stmt} : part.stmt? = some s ↔ part = stmt s := by
  cases part <;> simp [stmt?]

theorem type?_eq_some {part : Part} {ty : TypeExpr} : part.type? = some ty ↔ part = type ty := by
  cases part <;> simp [type?]

theorem param?_eq_some {part : Part} {decl : String × TypeExpr} :
    part.param? = some decl ↔ part = param decl := by
  cases part <;> simp [param?]

theorem varDecl?_eq_some {part : Part} {decl : String × TypeExpr} :
    part.varDecl? = some decl ↔ part = varDecl decl := by
  cases part <;> simp [varDecl?]

theorem method?_eq_some {part : Part} {m : MethodDecl} :
    part.method? = some m ↔ part = method m := by
  cases part <;> simp [method?]

theorem classDecl?_eq_some {part : Part} {c : ClassDecl} :
    part.classDecl? = some c ↔ part = classDecl c := by
  cases part <;> simp [classDecl?]

theorem importDecl?_eq_some {part : Part} {dotted : String} :
    part.importDecl? = some dotted ↔ part = importDecl dotted := by
  cases part <;> simp [importDecl?]

section Lists

variable {α : Type} {f : Part → Option α} {mk : α → Part}

theorem mapM_eq_some (hf : ∀ {part a}, f part = some a ↔ part = mk a) {parts : List Part}
    {as : List α} : parts.mapM f = some as ↔ parts = as.map mk := by
  induction parts generalizing as with
  | nil => cases as <;> simp
  | cons part parts ih =>
    cases as <;> simp [List.mapM_cons, Option.bind_eq_some_iff, hf, ih, and_comm]

theorem leading_eq (hf : ∀ {part a}, f part = some a ↔ part = mk a) (parts : List Part) :
    (leading f parts).1.map mk ++ (leading f parts).2 = parts := by
  induction parts with
  | nil => rfl
  | cons part parts ih =>
    rw [leading]
    split
    · next a ha =>
      rw [List.map_cons, List.cons_append, ih, hf.mp ha]
    · rfl

theorem leading_append (hf : ∀ {part a}, f part = some a ↔ part = mk a) (as : List α)
    {rest : List Part} (hrest : ∀ part ∈ rest, f part = none) :
    leading f (as.map mk ++ rest) = (as, rest) := by
  induction as with
  | nil =>
    cases rest with
    | nil => rfl
    | cons part rest =>
      rw [List.map_nil, List.nil_append, leading, hrest part List.mem_cons_self]
  | cons a as ih => rw [List.map_cons, List.cons_append, leading, hf.mpr rfl, ih]

end Lists

/-! ### A part is determined by its kind and its parts -/

theorem methodOf_eq_some {name : String} {isPublic isStatic : Bool} {parts : List Part}
    {m : MethodDecl} : methodOf name isPublic isStatic parts = some m ↔
      (name = m.name ∧ isPublic = m.isPublic ∧ isStatic = m.isStatic) ∧ parts = m.parts := by
  constructor
  · intro h
    have htypes := leading_eq (f := type?) type?_eq_some parts
    have hparams := leading_eq (f := param?) param?_eq_some (leading type? parts).2
    have hlocals := leading_eq (f := varDecl?) varDecl?_eq_some
      (leading param? (leading type? parts).2).2
    simp only [methodOf] at h
    split at h
    · next body ht hbody =>
      cases h
      rw [mapM_eq_some stmt?_eq_some] at hbody
      rw [ht, List.map_nil, List.nil_append] at htypes
      refine ⟨⟨rfl, rfl, rfl⟩, ?_⟩
      rw [MethodDecl.parts, Option.toList_none, List.map_nil, List.nil_append,
        List.append_assoc, ← hbody, hlocals, hparams, htypes]
    · next ty body ht hbody =>
      cases h
      rw [mapM_eq_some stmt?_eq_some] at hbody
      rw [ht, List.map_singleton] at htypes
      refine ⟨⟨rfl, rfl, rfl⟩, ?_⟩
      rw [MethodDecl.parts, Option.toList_some, List.map_singleton, List.append_assoc,
        List.append_assoc, ← hbody, hlocals, hparams, htypes]
    · cases h
  · rintro ⟨⟨rfl, rfl, rfl⟩, rfl⟩
    have hbody : (m.body.map stmt).mapM stmt? = some m.body := (mapM_eq_some stmt?_eq_some).mpr rfl
    have hlocals : leading varDecl? (m.locals.map varDecl ++ m.body.map stmt)
        = (m.locals, m.body.map stmt) :=
      leading_append varDecl?_eq_some _ (List.forall_mem_map.mpr fun _ _ => rfl)
    have hparams : leading param? (m.params.map param ++ (m.locals.map varDecl ++ m.body.map stmt))
        = (m.params, m.locals.map varDecl ++ m.body.map stmt) :=
      leading_append param?_eq_some _ (List.forall_mem_append.mpr
        ⟨List.forall_mem_map.mpr fun _ _ => rfl, List.forall_mem_map.mpr fun _ _ => rfl⟩)
    have htypes : leading type? (m.returnType.toList.map type
          ++ (m.params.map param ++ (m.locals.map varDecl ++ m.body.map stmt)))
        = (m.returnType.toList, m.params.map param ++ (m.locals.map varDecl ++ m.body.map stmt)) :=
      leading_append type?_eq_some _
        (List.forall_mem_append.mpr ⟨List.forall_mem_map.mpr fun _ _ => rfl,
        List.forall_mem_append.mpr
          ⟨List.forall_mem_map.mpr fun _ _ => rfl, List.forall_mem_map.mpr fun _ _ => rfl⟩⟩)
    rw [methodOf, MethodDecl.parts, List.append_assoc, List.append_assoc, htypes]
    simp only [hparams, hlocals, hbody]
    cases hr : m.returnType <;> simp only [Option.toList] <;> rw [← hr]

theorem classOf_eq_some {name : String} {superclass : Option String} {parts : List Part}
    {c : ClassDecl} : classOf name superclass parts = some c ↔
      (name = c.name ∧ superclass = c.superclass) ∧ parts = c.parts := by
  unfold classOf
  rw [Option.map_eq_some_iff]
  constructor
  · rintro ⟨methods, hmethods, rfl⟩
    rw [mapM_eq_some method?_eq_some] at hmethods
    refine ⟨⟨rfl, rfl⟩, ?_⟩
    rw [ClassDecl.parts, ← hmethods, leading_eq varDecl?_eq_some]
  · rintro ⟨⟨rfl, rfl⟩, rfl⟩
    rw [ClassDecl.parts, leading_append varDecl?_eq_some _ (List.forall_mem_map.mpr fun _ _ => rfl)]
    exact ⟨c.methods, (mapM_eq_some method?_eq_some).mpr rfl, rfl⟩

theorem programOf_eq_some {parts : List Part} {p : Program} :
    programOf parts = some p ↔ parts = p.parts := by
  unfold programOf
  rw [Option.map_eq_some_iff]
  constructor
  · rintro ⟨classes, hclasses, rfl⟩
    rw [mapM_eq_some classDecl?_eq_some] at hclasses
    rw [Program.parts, ← hclasses, leading_eq importDecl?_eq_some]
  · rintro rfl
    rw [Program.parts,
      leading_append importDecl?_eq_some _ (List.forall_mem_map.mpr fun _ _ => rfl)]
    exact ⟨p.classes, (mapM_eq_some classDecl?_eq_some).mpr rfl, rfl⟩

theorem importOf_eq_some {path : List String} {dotted : String} :
    importOf path = some dotted ↔ path = Text.segments dotted := by
  simp only [importOf]
  constructor
  · intro h
    split at h
    · next hs =>
      cases h
      exact hs.symm
    · cases h
  · rintro rfl
    rw [Text.intercalate_segments, if_pos rfl]

/-- **A part is put together from its kind and its parts, and from nothing else.** -/
theorem ofKind_eq_some {k : Kind} {parts : List Part} {part : Part} :
    ofKind k parts = some part ↔ k = part.kind ∧ parts = part.parts := by
  constructor
  · intro h
    cases k with
    | program =>
      obtain ⟨p, hp, rfl⟩ := Option.map_eq_some_iff.mp h
      exact ⟨rfl, programOf_eq_some.mp hp⟩
    | classDecl name superclass =>
      obtain ⟨c, hc, rfl⟩ := Option.map_eq_some_iff.mp h
      obtain ⟨⟨rfl, rfl⟩, hparts⟩ := classOf_eq_some.mp hc
      exact ⟨rfl, hparts⟩
    | methodDecl name isPublic isStatic =>
      obtain ⟨m, hm, rfl⟩ := Option.map_eq_some_iff.mp h
      obtain ⟨⟨rfl, rfl, rfl⟩, hparts⟩ := methodOf_eq_some.mp hm
      exact ⟨rfl, hparts⟩
    | importDecl path =>
      cases parts with
      | nil =>
        obtain ⟨dotted, hpath, rfl⟩ := Option.map_eq_some_iff.mp h
        exact ⟨congrArg Kind.importDecl (importOf_eq_some.mp hpath), rfl⟩
      | cons => cases h
    | block =>
      obtain ⟨body, hbody, rfl⟩ := Option.map_eq_some_iff.mp h
      exact ⟨rfl, (mapM_eq_some stmt?_eq_some).mp hbody⟩
    | arrayLit =>
      obtain ⟨elements, hes, rfl⟩ := Option.map_eq_some_iff.mp h
      exact ⟨rfl, (mapM_eq_some expr?_eq_some).mp hes⟩
    | methodCall called =>
      rcases parts with _ | ⟨_ | receiver, args⟩ <;> try cases h
      obtain ⟨args, hargs, rfl⟩ := Option.map_eq_some_iff.mp h
      exact ⟨rfl, congrArg _ ((mapM_eq_some expr?_eq_some).mp hargs)⟩
    | _ =>
      unfold ofKind at h
      split at h <;> first | contradiction | (cases h; exact ⟨‹_›, rfl⟩)
  · rintro ⟨rfl, rfl⟩
    cases part with
    | expr e =>
      cases e with
      | call receiver called args =>
        have hargs : (args.map expr).mapM expr? = some args := (mapM_eq_some expr?_eq_some).mpr rfl
        simp only [kind, Part.parts, Expr.kind, Expr.parts, List.map_cons, ofKind, hargs,
          Option.map_some]
      | arrayLit elements =>
        have hes : (elements.map expr).mapM expr? = some elements :=
          (mapM_eq_some expr?_eq_some).mpr rfl
        simp only [kind, Part.parts, Expr.kind, Expr.parts, ofKind, hes, Option.map_some]
      | _ => rfl
    | stmt s =>
      cases s with
      | ret value => cases value <;> rfl
      | block body =>
        have hbody : (body.map stmt).mapM stmt? = some body := (mapM_eq_some stmt?_eq_some).mpr rfl
        simp only [kind, Part.parts, Stmt.kind, Stmt.parts, ofKind, hbody, Option.map_some]
      | _ => rfl
    | method m =>
      rw [kind, Part.parts, ofKind, methodOf_eq_some.mpr ⟨⟨rfl, rfl, rfl⟩, rfl⟩, Option.map_some]
    | classDecl c =>
      rw [kind, Part.parts, ofKind, classOf_eq_some.mpr ⟨⟨rfl, rfl⟩, rfl⟩, Option.map_some]
    | program p => rw [kind, Part.parts, ofKind, programOf_eq_some.mpr rfl, Option.map_some]
    | importDecl dotted =>
      rw [kind, Part.parts, ofKind, importOf_eq_some.mpr rfl, Option.map_some]
    | _ => rfl

/-! ### What the kind says about a part -/

theorem ofKind_eq_expr {k : Kind} {parts : List Part} {e : Expr} :
    ofKind k parts = some (expr e) ↔ k = e.kind ∧ parts = e.parts.map expr := ofKind_eq_some

theorem ofKind_eq_stmt {k : Kind} {parts : List Part} {s : Stmt} :
    ofKind k parts = some (stmt s) ↔ k = s.kind ∧ parts = s.parts := ofKind_eq_some

theorem isStatement_kind (part : Part) : part.kind.isStatement = part.stmt?.isSome := by
  cases part with
  | expr e => cases e <;> rfl
  | stmt s => cases s <;> rfl
  | _ => rfl

theorem isExpression_kind (part : Part) : part.kind.isExpression = part.expr?.isSome := by
  cases part with
  | expr e => cases e <;> rfl
  | stmt s => cases s <;> rfl
  | _ => rfl

theorem isStatement_of_ofKind {k : Kind} {parts : List Part} {part : Part}
    (h : ofKind k parts = some part) : k.isStatement = part.stmt?.isSome := by
  rw [(ofKind_eq_some.mp h).1, isStatement_kind]

theorem method?_of_ofKind {k : Kind} {parts : List Part} {part : Part}
    (h : ofKind k parts = some part) :
    part.method? = match k with
      | .methodDecl name isPublic isStatic =>
        some ⟨name, isPublic, isStatic, parts.findSome? type?, parts.filterMap param?,
          parts.filterMap varDecl?, parts.filterMap stmt?⟩
      | _ => none := by
  obtain ⟨rfl, rfl⟩ := ofKind_eq_some.mp h
  cases part with
  | expr e => cases e <;> rfl
  | stmt s => cases s <;> rfl
  | method m =>
    obtain ⟨name, isPublic, isStatic, returnType, params, locals, body⟩ := m
    have hnone : ∀ {α : Type} (l : List α),
        l.findSome? (fun _ => (none : Option TypeExpr)) = none :=
      fun l => List.findSome?_eq_none_iff.mpr fun _ _ => rfl
    simp only [kind, Part.parts, MethodDecl.parts, List.filterMap_append, List.filterMap_map,
      List.findSome?_append, List.findSome?_map, Function.comp_def, type?, param?, varDecl?, stmt?,
      method?]
    cases returnType <;> simp [hnone]
  | _ => rfl

theorem classDecl?_of_ofKind {k : Kind} {parts : List Part} {part : Part}
    (h : ofKind k parts = some part) :
    part.classDecl? = match k with
      | .classDecl name superclass =>
        some ⟨name, superclass, parts.filterMap varDecl?, parts.filterMap method?⟩
      | _ => none := by
  obtain ⟨rfl, rfl⟩ := ofKind_eq_some.mp h
  cases part with
  | expr e => cases e <;> rfl
  | stmt s => cases s <;> rfl
  | classDecl c =>
    simp [kind, Part.parts, ClassDecl.parts, List.filterMap_append, List.filterMap_map,
      Function.comp_def, varDecl?, method?, classDecl?]
  | _ => rfl

theorem program?_of_ofKind {k : Kind} {parts : List Part} {p : Program}
    (h : ofKind k parts = some (program p)) :
    k = .program ∧ p = ⟨parts.filterMap importDecl?, parts.filterMap classDecl?⟩ := by
  obtain ⟨rfl, rfl⟩ := ofKind_eq_some.mp h
  simp [kind, Part.parts, Program.parts, List.filterMap_append, List.filterMap_map,
    Function.comp_def, importDecl?, classDecl?]

end Part

end Classlet
