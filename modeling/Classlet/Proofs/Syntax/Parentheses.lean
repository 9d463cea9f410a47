import Classlet.Proofs.Syntax.Inside

/-!
# Programs without parentheses

Parentheses are nodes of the tree, and so are constructors of expressions.  A bare program is the
program with every pair of parentheses replaced by what is inside; nothing else of it changes.

* `Part.bare_of_parts`: but for parentheses themselves, a bare part has the kind of the part and is
  made of its bare parts.
* `Part.ne_paren_of_inside_bare`: there are no parentheses in a bare part.
-/

namespace Classlet

mutual

/-- The expression without parentheses. -/
def Expr.bare : Expr → Expr
  | .int n => .int n
  | .bool b => .bool b
  | .var name => .var name
  | .binary op lhs rhs => .binary op lhs.bare rhs.bare
  | .unary op operand => .unary op operand.bare
  | .call receiver method args => .call receiver.bare method (bareAll args)
  | .field object name => .field object.bare name
  | .index array position => .index array.bare position.bare
  | .length array => .length array.bare
  | .newArray size => .newArray size.bare
  | .arrayLit elements => .arrayLit (bareAll elements)
  | .newObject className => .newObject className
  | .this => .this
  | .paren inner => inner.bare

/-- The expressions without parentheses. -/
def Expr.bareAll : List Expr → List Expr
  | [] => []
  | e :: rest => e.bare :: bareAll rest

end

theorem Expr.bareAll_eq (es : List Expr) : bareAll es = es.map bare := by
  induction es with
  | nil => rfl
  | cons e es ih => rw [bareAll, ih, List.map_cons]

mutual

/-- The statement without parentheses. -/
def Stmt.bare : Stmt → Stmt
  | .assign target value => .assign target value.bare
  | .arrayAssign target index value => .arrayAssign target index.bare value.bare
  | .ret value => .ret (value.map Expr.bare)
  | .ifThen cond body => .ifThen cond.bare body.bare
  | .ifElse cond body otherwise => .ifElse cond.bare body.bare otherwise.bare
  | .whileDo cond body => .whileDo cond.bare body.bare
  | .block body => .block (bareAll body)
  | .expr value => .expr value.bare

/-- The statements without parentheses. -/
def Stmt.bareAll : List Stmt → List Stmt
  | [] => []
  | s :: rest => s.bare :: bareAll rest

end

theorem Stmt.bareAll_eq (ss : List Stmt) : bareAll ss = ss.map bare := by
  induction ss with
  | nil => rfl
  | cons s ss ih => rw [bareAll, ih, List.map_cons]

/-- The method without parentheses. -/
def MethodDecl.bare (m : MethodDecl) : MethodDecl := { m with body := m.body.map Stmt.bare }

/-- The class without parentheses. -/
def ClassDecl.bare (c : ClassDecl) : ClassDecl :=
  { c with methods := c.methods.map MethodDecl.bare }

/-- The program without parentheses. -/
def Program.bare (p : Program) : Program := { p with classes := p.classes.map ClassDecl.bare }

namespace Part

/-- The part without parentheses. -/
def bare : Part → Part
  | expr e => expr e.bare
  | stmt s => stmt s.bare
  | method m => method m.bare
  | classDecl c => classDecl c.bare
  | program p => program p.bare
  | other => other

end Part

/-- Every expression but parentheses keeps its kind and is made of its bare parts. -/
theorem Expr.bare_of_parts {e : Expr} (he : ∀ inner, e ≠ .paren inner) :
    e.bare.kind = e.kind ∧ e.bare.parts = e.parts.map bare := by
  cases e with
  | paren inner => exact absurd rfl (he inner)
  | _ => simp [bare, kind, parts, bareAll_eq]

theorem Expr.bare_congr {e e' : Expr} (hk : e.kind = e'.kind)
    (hp : e.parts.map bare = e'.parts.map bare) : e.bare = e'.bare := by
  cases e <;> cases e' <;> cases hk <;> simp_all [parts, bare, bareAll_eq]

theorem Stmt.kind_bare (s : Stmt) : s.bare.kind = s.kind := by
  cases s <;> simp [bare, kind]

theorem Stmt.parts_bare (s : Stmt) : s.bare.parts = s.parts.map Part.bare := by
  cases s with
  | ret value => cases value <;> simp [bare, parts, Part.bare]
  | _ => simp [bare, parts, Part.bare, bareAll_eq]

theorem MethodDecl.params_bare (m : MethodDecl) : m.bare.params = m.params := rfl

theorem MethodDecl.parts_bare (m : MethodDecl) : m.bare.parts = m.parts.map Part.bare := by
  simp [bare, parts, Part.bare, Function.comp_def]

theorem ClassDecl.parts_bare (c : ClassDecl) : c.bare.parts = c.parts.map Part.bare := by
  simp [bare, parts, Part.bare, Function.comp_def]

theorem Program.parts_bare (p : Program) : p.bare.parts = p.parts.map Part.bare := by
  simp [bare, parts, Part.bare, Function.comp_def]

/-- **Every part but parentheses keeps its kind and is made of its bare parts.** -/
theorem Part.bare_of_parts {part : Part} (h : ∀ inner, part ≠ .expr (.paren inner)) :
    part.bare.kind = part.kind ∧ part.bare.parts = part.parts.map bare := by
  cases part with
  | expr e =>
    obtain ⟨hk, hp⟩ := Expr.bare_of_parts fun inner he => h inner (congrArg Part.expr he)
    exact ⟨hk, by simp [bare, parts, hp]⟩
  | stmt s => exact ⟨s.kind_bare, s.parts_bare⟩
  | method m => exact ⟨rfl, m.parts_bare⟩
  | classDecl c => exact ⟨rfl, c.parts_bare⟩
  | program p => exact ⟨rfl, p.parts_bare⟩
  | type | param | varDecl | importDecl => exact ⟨rfl, by simp [bare, parts]⟩

/-! ### No parentheses are left -/

theorem Expr.exists_bare_eq (e : Expr) :
    ∃ e' : Expr, (∀ inner, e' ≠ .paren inner) ∧ e'.bare = e.bare := by
  induction e with
  | paren inner ih => exact ih
  | _ => exact ⟨_, by simp, rfl⟩

theorem Part.exists_bare_eq (part : Part) :
    ∃ part' : Part, (∀ inner, part' ≠ .expr (.paren inner)) ∧ part'.bare = part.bare := by
  cases part with
  | expr e =>
    obtain ⟨e', hne, hbare⟩ := e.exists_bare_eq
    exact ⟨.expr e', fun inner h => hne inner (Part.expr.inj h), congrArg Part.expr hbare⟩
  | _ => exact ⟨_, by simp, rfl⟩

/-- **A bare part has no parentheses inside.** -/
theorem Part.ne_paren_of_inside_bare {part whole : Part} (h : part.Inside whole.bare)
    (inner : Expr) : part ≠ .expr (.paren inner) := by
  generalize hw : whole.bare = bareWhole at h
  induction h generalizing whole with
  | refl =>
    rintro rfl
    obtain ⟨core, hcore, hbare⟩ := whole.exists_bare_eq
    have hkind : core.kind = .paren := by
      rw [← (bare_of_parts hcore).1, hbare, hw]
      rfl
    cases core with
    | expr e =>
      cases e with
      | paren e => exact hcore e rfl
      | _ => cases hkind
    | stmt s => cases s <;> cases hkind
    | _ => cases hkind
  | part hc _ ih =>
    obtain ⟨core, hcore, hbare⟩ := whole.exists_bare_eq
    rw [← hw, ← hbare, (bare_of_parts hcore).2] at hc
    obtain ⟨child, -, hchild⟩ := List.mem_map.mp hc
    exact ih hchild

end Classlet
