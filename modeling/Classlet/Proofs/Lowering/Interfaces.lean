import Classlet.Proofs.Lowering.Parentheses

/-!
# What the code of a method depends on

A method is lowered from its own signature and body and from the interface of its class: the names,
types and parameters that are declared, but not the local variables of other methods.  Of the body
neither the ids of nodes nor parentheses show in the code, and an error differs by the node that it
names only (`EndsUpTo`).

* `lowerMethod_upTo`: two trees of one method, up to ids and parentheses, each in its own class.
-/

namespace Classlet

open Subtree

/-! ### Interfaces -/

/-- The signature without the local variables. -/
def Signature.interface (s : Signature) : Signature := { s with locals := [] }

/-- The table without the local variables of the methods. -/
def SymbolTable.interface (table : SymbolTable) : SymbolTable :=
  { table with signatures := table.signatures.map Signature.interface }

namespace SymbolTable

variable {table table' : SymbolTable}

theorem signature?_interface (table : SymbolTable) (method : String) :
    table.interface.signature? method = (table.signature? method).map Signature.interface := by
  rw [signature?, interface, List.find?_map]
  rfl

/-- Tables with the same interface. -/
structure SameInterface (table table' : SymbolTable) : Prop where
  imports : table'.imports = table.imports
  className : table'.className = table.className
  superclass : table'.superclass = table.superclass
  fields : table'.fields = table.fields
  signature? : ∀ method, (table'.signature? method).map Signature.interface
    = (table.signature? method).map Signature.interface

theorem SameInterface.of_eq (h : table'.interface = table.interface) :
    SameInterface table table' where
  imports := (congrArg SymbolTable.imports h :)
  className := (congrArg SymbolTable.className h :)
  superclass := (congrArg SymbolTable.superclass h :)
  fields := (congrArg SymbolTable.fields h :)
  signature? method := by rw [← signature?_interface, ← signature?_interface, h]

namespace SameInterface

theorem refl (table : SymbolTable) : SameInterface table table := .of_eq rfl

theorem isImported (h : SameInterface table table') (name : String) :
    table'.isImported name = table.isImported name := by
  rw [SymbolTable.isImported, SymbolTable.isImported, h.imports]

theorem field? (h : SameInterface table table') (name : String) :
    table'.field? name = table.field? name := by
  rw [SymbolTable.field?, SymbolTable.field?, h.fields]

theorem resolveIn (h : SameInterface table table') (s : Signature) (name : String) :
    table'.resolveIn s name = table.resolveIn s name := by
  rw [SymbolTable.resolveIn, SymbolTable.resolveIn, h.field?]

theorem superclassIsImported (h : SameInterface table table') :
    table'.superclassIsImported = table.superclassIsImported := by
  rw [SymbolTable.superclassIsImported, SymbolTable.superclassIsImported, h.superclass,
    funext h.isImported]

theorem returnType? (h : SameInterface table table') (method : String) :
    (table'.signature? method).map (·.returnType)
      = (table.signature? method).map (·.returnType) := by
  have := congrArg (Option.map (·.returnType)) (h.signature? method)
  rwa [Option.map_map, Option.map_map] at this

end SameInterface

end SymbolTable

/-! ### Types -/

namespace Expr

variable {scope scope' : Scope}

theorem typeOfCall_congr (h : scope.table.SameInterface scope'.table) (method : String)
    (receiver : ExprType) :
    scope'.typeOfCall method receiver = scope.typeOfCall method receiver := by
  have howner : Owner.of scope' receiver = Owner.of scope receiver := by
    cases receiver with
    | known ty => simp only [Owner.of, h.className, h.superclass, h.isImported]
    | _ => rfl
  have hreturn := h.returnType? method
  simp only [Scope.typeOfCall, howner, h.className, h.superclassIsImported]
  cases Owner.of scope receiver with
  | thisClass =>
    cases hs : scope.table.signature? method <;> cases hs' : scope'.table.signature? method <;>
      simp_all
  | _ => rfl

theorem typeOfField_congr (h : scope.table.SameInterface scope'.table) (field : String)
    (object : ExprType) : scope'.typeOfField field object = scope.typeOfField field object := by
  have howner : Owner.of scope' object = Owner.of scope object := by
    cases object with
    | known ty => simp only [Owner.of, h.className, h.superclass, h.isImported]
    | _ => rfl
  simp only [Scope.typeOfField, howner, h.className, h.superclassIsImported, h.field?]

theorem typeOf_congr (h : scope.table.SameInterface scope'.table)
    (hmethod : scope'.method = scope.method) (e : Expr) : e.typeOf scope' = e.typeOf scope := by
  induction e with
  | var name =>
    simp only [typeOf, Scope.typeOfName, Scope.resolve, Scope.boundSymbol?, Scope.classTy, hmethod,
      h.resolveIn, h.field?, h.isImported, h.className]
  | call receiver method args ih => simp only [typeOf, ih, typeOfCall_congr h]
  | field object name ih => simp only [typeOf, ih, typeOfField_congr h]
  | index array position ih => simp only [typeOf, ih]
  | this => simp only [typeOf, Scope.classTy, h.className]
  | paren inner ih => simp only [typeOf, ih]
  | _ => rfl

end Expr

namespace Lowering

open Ir Semantics

variable {cx cx' : Context} {R : NodeId → NodeId → Prop}

/-! ### Steps that agree but for ids -/

section UpTo

variable {α β : Type}

/-- The computation does not stop with an error that blames a node. -/
def Blameless (x : Except Halt α) : Prop := ∀ node reason, x ≠ fail (.malformedTree node reason)

/-- The computations give the same result, or stop with the same error but for the node it blames.
-/
def EndsUpTo (R : NodeId → NodeId → Prop) (x y : Except Halt α) : Prop :=
  x = y ∧ Blameless x ∨ ∃ i j reason, R i j ∧ x = fail (.malformedTree i reason) ∧
    y = fail (.malformedTree j reason)

theorem EndsUpTo.refl {x : Except Halt α} (h : Blameless x) : EndsUpTo R x x := .inl ⟨rfl, h⟩

theorem EndsUpTo.bind {x y : Except Halt α} {f g : α → Except Halt β} (h : EndsUpTo R x y)
    (hf : ∀ a, EndsUpTo R (f a) (g a)) : EndsUpTo R (x >>= f) (y >>= g) := by
  rcases h with ⟨rfl, hx⟩ | ⟨i, j, reason, hr, rfl, rfl⟩
  · cases x with
    | error h => exact .refl fun node reason he => hx node reason (congrArg _ (Except.error.inj he))
    | ok a => exact hf a
  · exact .inr ⟨i, j, reason, hr, rfl, rfl⟩

theorem EndsUpTo.ok_eq {a b : α} (h : EndsUpTo R (.ok a) (.ok b)) : a = b := by
  rcases h with ⟨h, -⟩ | ⟨i, j, reason, -, h, -⟩
  · exact Except.ok.inj h
  · cases h

/-- Where only equal ids are related, all is the same, and a node that is blamed is one of them. -/
theorem EndsUpTo.eq {x y : Except Halt α} (h : EndsUpTo R x y) (hR : ∀ i j, R i j → i = j) :
    x = y ∧ ∀ node reason, x = fail (.malformedTree node reason) → R node node := by
  rcases h with ⟨rfl, hx⟩ | ⟨i, j, reason, hr, rfl, rfl⟩
  · exact ⟨rfl, fun node reason he => absurd he (hx node reason)⟩
  · obtain rfl := hR i j hr
    refine ⟨rfl, fun node reason' he => ?_⟩
    cases he
    exact hr

theorem Blameless.bind {x : Except Halt α} {f : α → Except Halt β} (hx : Blameless x)
    (hf : ∀ a, Blameless (f a)) : Blameless (x >>= f) := by
  cases x with
  | error h => exact fun node reason he => hx node reason (congrArg _ (Except.error.inj he))
  | ok a => exact hf a

theorem blameless_verifyVars (m : MethodCode) : Blameless m.verifyVars := by
  intro node reason h
  rcases verifyVars_cases (m := m) with hok | ⟨_, _, _, _, _, herror⟩
  · cases hok.symm.trans h
  · cases herror.symm.trans h

/-- From every state the steps end alike but for ids. -/
def StepUpTo (R : NodeId → NodeId → Prop) (x y : Lower α) : Prop := ∀ st, EndsUpTo R (x st) (y st)

/-- From no state the step blames a node. -/
def StepBlameless (x : Lower α) : Prop := ∀ st, Blameless (x st)

namespace StepBlameless

@[simp]
theorem pure (a : α) : StepBlameless (Pure.pure a : Lower α) := by rintro st node reason ⟨⟩

@[simp]
theorem temp (ty : ValueType) : StepBlameless (temp ty) := by rintro st node reason ⟨⟩

@[simp]
theorem nextNumber (stem : String) : StepBlameless (nextNumber stem) := by
  rintro st node reason ⟨⟩

@[simp]
theorem unresolved (cx : Context) (name : String) :
    StepBlameless (Lower.fail (cx.unresolved name) : Lower α) := by rintro st node reason ⟨⟩

theorem bind {x : Lower α} {f : α → Lower β} (hx : StepBlameless x)
    (hf : ∀ a, StepBlameless (f a)) : StepBlameless (x >>= f) := fun st => (hx st).bind fun p => hf p.1 p.2

@[simp]
theorem map (f : α → β) {x : Lower α} (hx : StepBlameless x) : StepBlameless (f <$> x) := by
  rw [map_eq_pure_bind]
  exact hx.bind fun _ => pure _

@[simp]
theorem intoTemp (ty : ValueType) (code : List Instr) (last : String → Instr) :
    StepBlameless (intoTemp ty code last) := (temp ty).bind fun _ => pure _

@[simp]
theorem packArray (elements : List Operand) : StepBlameless (packArray elements) :=
  (temp _).bind fun _ => pure _

@[simp]
theorem lowerName (cx : Context) (name : String) : StepBlameless (lowerName cx name) := by
  unfold Lowering.lowerName
  rcases cx.resolve name with _ | ⟨_ | _ | _, symbol⟩
  · simp only
    split <;> simp
  all_goals simp

@[simp]
theorem lowerTarget (cx : Context) (target : String) : StepBlameless (lowerTarget cx target) := by
  unfold Lowering.lowerTarget
  rcases cx.resolve target with _ | ⟨_ | _ | _, symbol⟩
  · exact unresolved cx target
  · exact pure _
  · exact pure _
  · exact (temp _).bind fun _ => pure _

theorem packArguments (m : Option Signature) (args : List Loaded) :
    StepBlameless (packArguments m args) := by
  cases h : packedBy? m (args.map (·.ty)) with
  | none =>
    rw [packArguments_of_none h]
    exact pure _
  | some k =>
    rw [packArguments_of_some h]
    exact (packArray _).bind fun _ => pure _

@[simp]
theorem finishCall (cx : Context) (method : String) (hint : ValueType) (callee : Callee)
    (code : List Instr) (args : List Loaded) :
    StepBlameless (finishCall cx method hint callee code args) := by
  refine (packArguments _ args).bind fun packed => ?_
  simp only
  split
  · exact pure _
  · exact intoTemp _ _ _

end StepBlameless

namespace StepUpTo

theorem refl {x : Lower α} (h : StepBlameless x) : StepUpTo R x x := fun st => .refl (h st)

theorem bind {x y : Lower α} {f g : α → Lower β} (h : StepUpTo R x y)
    (hf : ∀ a, StepUpTo R (f a) (g a)) : StepUpTo R (x >>= f) (y >>= g) := fun st =>
  (h st).bind fun r => hf r.1 r.2

theorem after {x : Lower α} (hx : StepBlameless x) {f g : α → Lower β}
    (hf : ∀ a, StepUpTo R (f a) (g a)) : StepUpTo R (x >>= f) (x >>= g) := (refl hx).bind hf

theorem loaded (l : Lowered) {i j : NodeId} (h : R i j) :
    StepUpTo R (liftM (l.loaded i) : Lower Loaded) (liftM (l.loaded j)) := by
  intro st
  obtain ⟨_ | o, ty, code⟩ := l
  · exact .inr ⟨i, j, _, h, rfl, rfl⟩
  · exact .refl (StepBlameless.pure _ st)

end StepUpTo

end UpTo

/-! ### What is asked about the class -/

/-- The same signature, in classes with the same interface. -/
structure SameInterface (cx cx' : Context) : Prop where
  table : cx.table.SameInterface cx'.table
  signature : cx'.signature = cx.signature

namespace SameInterface

theorem resolve (h : SameInterface cx cx') (name : String) :
    cx'.resolve name = cx.resolve name := by
  rw [Context.resolve, Context.resolve, h.table.resolveIn, h.signature]

theorem classType (h : SameInterface cx cx') : cx'.classType = cx.classType := by
  rw [Context.classType, Context.classType, h.table.className]

theorem unresolved (h : SameInterface cx cx') (name : String) :
    cx'.unresolved name = cx.unresolved name := by
  rw [Context.unresolved, Context.unresolved, h.signature]

theorem start (h : SameInterface cx cx') : cx'.start = cx.start := by
  rw [Context.start, Context.start, h.signature, h.table.className, h.table.fields]

theorem importName? (h : SameInterface cx cx') (e : Expr) :
    Semantics.importName? cx' e = Semantics.importName? cx e := by
  unfold Semantics.importName?
  simp only [h.resolve, h.table.isImported]

theorem importName?_of_bare (h : SameInterface cx cx') {e e' : Expr} (he : e'.bare = e.bare) :
    Semantics.importName? cx' e' = Semantics.importName? cx e := by
  rw [← importName?_bare, he, importName?_bare, h.importName?]

theorem expected_of_bare (h : SameInterface cx cx') {e e' : Expr} (he : e'.bare = e.bare) :
    cx'.expected e' = cx.expected e := by
  rw [← expected_bare, he, expected_bare, Context.expected, Context.expected, h.importName?,
    h.table.superclass]

theorem leftHint_of_bare (h : SameInterface cx cx') (op : BinaryOp) {e e' : Expr}
    (he : e'.bare = e.bare) : cx'.leftHint op e' = cx.leftHint op e := by
  have hmethod : cx'.scope.method = cx.scope.method := congrArg some h.signature
  rw [← leftHint_bare, he, leftHint_bare, Context.leftHint, Context.leftHint,
    e.typeOf_congr h.table hmethod]

theorem lowerName (h : SameInterface cx cx') (name : String) :
    Lowering.lowerName cx' name = Lowering.lowerName cx name := by
  rw [Lowering.lowerName, Lowering.lowerName, h.resolve, h.classType, h.unresolved]

theorem fieldType (h : SameInterface cx cx') (field : String) (object hint : ValueType) :
    Lowering.fieldType cx' field object hint = Lowering.fieldType cx field object hint := by
  rw [Lowering.fieldType, Lowering.fieldType, h.table.field?, h.classType]

theorem signature? (h : SameInterface cx cx') (method : String) (callee : Callee) :
    (callee.signature? cx' method).map Signature.interface
      = (callee.signature? cx method).map Signature.interface := by
  cases callee with
  | static => rfl
  | virtual object className =>
    simp only [Callee.signature?, h.table.className]
    split
    · exact h.table.signature? method
    · rfl

theorem argumentHints (h : SameInterface cx cx') (method : String) (callee : Callee) :
    Lowering.argumentHints (callee.signature? cx' method)
      = Lowering.argumentHints (callee.signature? cx method) := by
  have hinterface : ∀ m, Lowering.argumentHints m
      = Lowering.argumentHints (m.map Signature.interface) := by rintro (_ | m) <;> rfl
  rw [hinterface, h.signature?, ← hinterface]

theorem finishCall (h : SameInterface cx cx') (method : String) (hint : ValueType)
    (callee : Callee) (code : List Instr) (args : List Loaded) :
    Lowering.finishCall cx' method hint callee code args
      = Lowering.finishCall cx method hint callee code args := by
  have hpack : ∀ m, packArguments m args = packArguments (m.map Signature.interface) args := by
    rintro (_ | m) <;> rfl
  have hresult : ∀ m, resultType m hint = resultType (m.map Signature.interface) hint := by
    rintro (_ | m) <;> rfl
  rw [Lowering.finishCall, Lowering.finishCall]
  simp only [hpack (callee.signature? cx' method), hpack (callee.signature? cx method),
    hresult (callee.signature? cx' method), hresult (callee.signature? cx method), h.signature?]

end SameInterface

/-! ### Expressions -/

/-- Trees of the expression, up to ids and parentheses, are lowered alike, each in its class. -/
def LowersUpTo (R : NodeId → NodeId → Prop) (cx cx' : Context) (e : Expr) : Prop :=
  ∀ (hint : ValueType) (b d : Subtree), b.IsExpr e → UpTo R b d →
    StepUpTo R (lowerExpr cx hint b.toShape) (lowerExpr cx' hint d.toShape)

theorem loaded_of_isLiteral {k : Kind} (hk : k.isLiteral = true) :
    ∃ v : Loaded, ∀ (cx : Context) hint i p cs j,
      (lowerExpr cx hint (.node i k p cs) >>= fun l => liftM (l.loaded j))
        = (pure v : Lower Loaded) := by
  cases k with
  | intLit value =>
    refine ⟨⟨.const value, .int, []⟩, fun cx hint i p cs j => ?_⟩
    rw [lowerExpr]
    rfl
  | boolLit value =>
    refine ⟨⟨.ofBool value, .boolean, []⟩, fun cx hint i p cs j => ?_⟩
    rw [lowerExpr]
    rfl
  | _ => cases hk

theorem LowersUpTo.load {α : Type} {e : Expr} (h : LowersUpTo R cx cx' e) {hint : ValueType}
    {b d : Subtree} (hb : b.IsExpr e) (hu : UpTo R b d) {f g : Loaded → Lower α}
    (hf : ∀ v, StepUpTo R (f v) (g v)) :
    StepUpTo R (lowerExpr cx hint b.toShape >>= fun l => liftM (l.loaded b.toShape.id) >>= f)
      (lowerExpr cx' hint d.toShape >>= fun l => liftM (l.loaded d.toShape.id) >>= g) := by
  have hlower := h hint b d hb hu
  obtain ⟨hliteral | hid, -⟩ | ⟨hid, -⟩ := hu
  · obtain ⟨v, hv⟩ := loaded_of_isLiteral hliteral
    simp only [toShape_node, ← bind_assoc, hv]
    exact .after (.pure v) hf
  · exact hlower.bind fun l => (StepUpTo.loaded l hid).bind hf
  · rw [← id_toShape d] at hid
    exact hlower.bind fun l => (StepUpTo.loaded l hid).bind hf

theorem lowerArgs_upTo {es : List Expr} (hes : ∀ e ∈ es, LowersUpTo R cx cx' e)
    {cs ds : List Subtree} (hcs : List.Forall₂ IsExpr cs es) (hds : List.Forall₂ (UpTo R) cs ds)
    (hints : List ValueType) :
    StepUpTo R (lowerArgs cx hints (cs.map fun c _ => c.toShape))
      (lowerArgs cx' hints (ds.map fun d _ => d.toShape)) := by
  induction hcs generalizing ds hints with
  | nil =>
    cases hds
    exact .refl (.pure _)
  | @cons c e cs es hc _ ih =>
    obtain _ | ⟨hd, hrest⟩ := hds
    rw [List.forall_mem_cons] at hes
    rw [List.map_cons, List.map_cons, lowerArgs, lowerArgs]
    exact hes.1.load hc hd fun v => (ih hes.2 hrest _).bind fun _ => .refl (by simp)

theorem lowersUpTo_call (h : SameInterface cx cx') (method : String) {receiver : Expr}
    {args : List Expr} (hr : LowersUpTo R cx cx' receiver)
    (ha : ∀ e ∈ args, LowersUpTo R cx cx' e) :
    LowersUpTo R cx cx' (.call receiver method args) := by
  intro hint b d hb hu
  obtain ⟨i, p, cs, rfl, hcs⟩ := isExpr_iff.mp hb
  obtain ⟨-, below⟩ := hu
  obtain ⟨c, as, hc, has, rfl⟩ := List.forall₂_cons_right_iff.mp hcs
  obtain _ | ⟨hd, hds⟩ := below
  obtain ⟨e', hd', hbare⟩ := hd.exists_isExpr hc
  have hargs := fun hints => lowerArgs_upTo ha has hds hints
  rw [toShape_node, toShape_node, Expr.kind, List.map_cons, List.map_cons, lowerExpr, lowerExpr,
    lift_bind (importedReceiver?_eq cx hc), lift_bind (importedReceiver?_eq cx' hd'),
    h.importName?_of_bare hbare]
  cases importName? cx receiver with
  | some className =>
    simp only [h.finishCall]
    exact (hargs _).bind fun _ => .refl (by simp)
  | none =>
    simp only [h.finishCall, h.argumentHints]
    rw [lift_bind (receiverHint_eq cx hc), lift_bind (receiverHint_eq cx' hd'),
      h.expected_of_bare hbare]
    exact hr.load hc hd fun v => (hargs _).bind fun _ => .refl (by simp)

/-- **An expression is lowered from the interface**, up to ids. -/
theorem lowersUpTo (R : NodeId → NodeId → Prop) (h : SameInterface cx cx') (e : Expr) :
    LowersUpTo R cx cx' e := by
  induction e with
  | int | bool | newObject =>
    intro hint b d hb hu
    obtain ⟨i, p, cs, rfl, -⟩ := isExpr_iff.mp hb
    obtain ⟨-, -⟩ := hu
    rw [toShape_node, toShape_node, Expr.kind, lowerExpr, lowerExpr]
    exact .refl (by simp)
  | var name =>
    intro hint b d hb hu
    obtain ⟨i, p, cs, rfl, -⟩ := isExpr_iff.mp hb
    obtain ⟨-, -⟩ := hu
    rw [toShape_node, toShape_node, Expr.kind, lowerExpr, lowerExpr, h.lowerName]
    exact .refl (by simp)
  | this =>
    intro hint b d hb hu
    obtain ⟨i, p, cs, rfl, -⟩ := isExpr_iff.mp hb
    obtain ⟨-, -⟩ := hu
    rw [toShape_node, toShape_node, Expr.kind, lowerExpr, lowerExpr, h.classType]
    exact .refl (by simp)
  | paren inner ih =>
    intro hint b d hb hu
    obtain ⟨i, p, cs, rfl, hcs⟩ := isExpr_iff.mp hb
    obtain ⟨c, rfl, hc⟩ := forall₂_one hcs
    rw [toShape_node, Expr.kind, List.map_cons, lowerExpr_paren]
    cases hu with
    | node _ below =>
      obtain _ | ⟨hd, _ | _⟩ := below
      rw [toShape_node, Expr.kind, List.map_cons, lowerExpr_paren]
      exact ih hint c _ hc hd
    | paren _ inside => exact ih hint c d hc inside
  | binary op lhs rhs ihl ihr =>
    intro hint b d hb hu
    obtain ⟨i, p, cs, rfl, hcs⟩ := isExpr_iff.mp hb
    obtain ⟨-, below⟩ := hu
    obtain ⟨bl, br, rfl, hbl, hbr⟩ := forall₂_two hcs
    obtain _ | ⟨hdl, _ | ⟨hdr, _ | _⟩⟩ := below
    obtain ⟨e', hdr', hbare⟩ := hdr.exists_isExpr hbr
    rw [Expr.kind, lowerExpr_binary hbr, lowerExpr_binary hdr', h.leftHint_of_bare op hbare]
    exact ihl.load hbl hdl fun l => ihr.load hbr hdr fun r => .refl (by simp)
  | unary op operand ih =>
    intro hint b d hb hu
    obtain ⟨i, p, cs, rfl, hcs⟩ := isExpr_iff.mp hb
    obtain ⟨-, below⟩ := hu
    obtain ⟨c, rfl, hc⟩ := forall₂_one hcs
    obtain _ | ⟨hd, _ | _⟩ := below
    rw [toShape_node, toShape_node, Expr.kind, List.map_cons, List.map_cons, lowerExpr, lowerExpr]
    exact ih.load hc hd fun v => .refl (by simp)
  | call receiver method args ihr iha => exact lowersUpTo_call h method ihr iha
  | field object name ih =>
    intro hint b d hb hu
    obtain ⟨i, p, cs, rfl, hcs⟩ := isExpr_iff.mp hb
    obtain ⟨-, below⟩ := hu
    obtain ⟨c, rfl, hc⟩ := forall₂_one hcs
    obtain _ | ⟨hd, _ | _⟩ := below
    obtain ⟨e', hd', hbare⟩ := hd.exists_isExpr hc
    rw [toShape_node, toShape_node, Expr.kind, List.map_cons, List.map_cons, lowerExpr, lowerExpr,
      lift_bind (receiverHint_eq cx hc), lift_bind (receiverHint_eq cx' hd'),
      h.expected_of_bare hbare]
    simp only [h.fieldType]
    exact ih.load hc hd fun v => .refl (by simp)
  | index array position iha ihp =>
    intro hint b d hb hu
    obtain ⟨i, p, cs, rfl, hcs⟩ := isExpr_iff.mp hb
    obtain ⟨-, below⟩ := hu
    obtain ⟨ba, bp, rfl, hba, hbp⟩ := forall₂_two hcs
    obtain _ | ⟨hda, _ | ⟨hdp, _ | _⟩⟩ := below
    rw [toShape_node, toShape_node, Expr.kind, List.map_cons, List.map_cons, List.map_cons,
      List.map_cons, lowerExpr, lowerExpr]
    exact iha.load hba hda fun a => ihp.load hbp hdp fun n => .refl (by simp)
  | length array ih | newArray array ih =>
    intro hint b d hb hu
    obtain ⟨i, p, cs, rfl, hcs⟩ := isExpr_iff.mp hb
    obtain ⟨-, below⟩ := hu
    obtain ⟨c, rfl, hc⟩ := forall₂_one hcs
    obtain _ | ⟨hd, _ | _⟩ := below
    rw [toShape_node, toShape_node, Expr.kind, List.map_cons, List.map_cons, lowerExpr, lowerExpr]
    exact ih.load hc hd fun v => .refl (by simp)
  | arrayLit elements ih =>
    intro hint b d hb hu
    obtain ⟨i, p, cs, rfl, hcs⟩ := isExpr_iff.mp hb
    obtain ⟨-, below⟩ := hu
    rw [toShape_node, toShape_node, Expr.kind, lowerExpr, lowerExpr]
    exact (lowerArgs_upTo ih hcs below []).bind fun _ => .refl (by simp)

theorem load_upTo (h : SameInterface cx cx') {e : Expr} {b d : Subtree} (hb : b.IsExpr e)
    (hu : UpTo R b d) (hint : ValueType) :
    StepUpTo R (load cx hint b.toShape) (load cx' hint d.toShape) := by
  have hload : StepUpTo R (load cx hint b.toShape >>= pure) (load cx' hint d.toShape >>= pure) := by
    simpa only [load, bind_assoc] using (lowersUpTo R h e).load hb hu fun v => .refl (.pure v)
  rwa [bind_pure, bind_pure] at hload

/-! ### Statements -/

theorem lowerAssign_upTo (h : SameInterface cx cx') (target : String) {e : Expr} {b d : Subtree}
    (hb : b.IsExpr e) (hu : UpTo R b d) :
    StepUpTo R (lowerAssign cx target b.toShape) (lowerAssign cx' target d.toShape) := by
  unfold lowerAssign
  rw [h.resolve, h.unresolved]
  rcases cx.resolve target with _ | ⟨_ | _ | _, symbol⟩
  · exact .refl (by simp)
  all_goals exact (load_upTo h hb hu _).bind fun v => .refl (by simp)

theorem lowerTarget_congr (h : SameInterface cx cx') (target : String) :
    lowerTarget cx' target = lowerTarget cx target := by
  rw [lowerTarget, lowerTarget, h.resolve, h.unresolved]

/-- Trees of the statement, up to ids and parentheses, are lowered alike, each in its class. -/
def StmtLowersUpTo (R : NodeId → NodeId → Prop) (cx cx' : Context) (s : Stmt) : Prop :=
  ∀ b d : Subtree, b.IsStmt s → UpTo R b d →
    StepUpTo R (lowerStmt cx b.toShape) (lowerStmt cx' d.toShape)

theorem lowerStmts_upTo {ss : List Stmt} (hss : ∀ s ∈ ss, StmtLowersUpTo R cx cx' s)
    {cs ds : List Subtree} (hcs : List.Forall₂ IsStmt cs ss) (hds : List.Forall₂ (UpTo R) cs ds) :
    StepUpTo R (lowerStmts cx (cs.map fun c _ => c.toShape))
      (lowerStmts cx' (ds.map fun d _ => d.toShape)) := by
  induction hcs generalizing ds with
  | nil =>
    cases hds
    exact .refl (.pure _)
  | cons hc _ ih =>
    obtain _ | ⟨hd, hrest⟩ := hds
    rw [List.forall_mem_cons] at hss
    rw [List.map_cons, List.map_cons, lowerStmts, lowerStmts]
    exact (hss.1 _ _ hc hd).bind fun _ => (ih hss.2 hrest).bind fun _ => .refl (by simp)

/-- **A statement is lowered from the interface**, up to ids. -/
theorem stmtLowersUpTo (R : NodeId → NodeId → Prop) (h : SameInterface cx cx') (s : Stmt) :
    StmtLowersUpTo R cx cx' s := by
  induction s using Stmt.ind with
  | assign target value =>
    intro b d hb hu
    obtain ⟨i, p, cs, rfl, hcs⟩ := isStmt_iff.mp hb
    obtain ⟨-, below⟩ := hu
    obtain ⟨c, rfl, hc⟩ := forall₂_one hcs
    obtain _ | ⟨hd, _ | _⟩ := below
    rw [toShape_node, toShape_node, Stmt.kind, List.map_cons, List.map_cons, lowerStmt, lowerStmt]
    exact lowerAssign_upTo h target hc hd
  | arrayAssign target index value =>
    intro b d hb hu
    obtain ⟨i, p, cs, rfl, hcs⟩ := isStmt_iff.mp hb
    obtain ⟨-, below⟩ := hu
    obtain ⟨ci, cv, rfl, hci, hcv⟩ := forall₂_two hcs
    obtain _ | ⟨hdi, _ | ⟨hdv, _ | _⟩⟩ := below
    rw [toShape_node, toShape_node, Stmt.kind, List.map_cons, List.map_cons, List.map_cons,
      List.map_cons, lowerStmt, lowerStmt, lowerTarget_congr h]
    exact .after (by simp) fun _ => (load_upTo h hci hdi _).bind fun _ =>
      (load_upTo h hcv hdv _).bind fun _ => .refl (by simp)
  | ret value =>
    intro b d hb hu
    obtain ⟨i, p, cs, rfl, hcs⟩ := isStmt_iff.mp hb
    obtain ⟨-, below⟩ := hu
    cases value with
    | none =>
      cases hcs
      cases below
      rw [toShape_node, toShape_node, Stmt.kind, List.map_nil, lowerStmt, lowerStmt]
      exact .refl (by simp)
    | some value =>
      obtain ⟨c, rfl, hc⟩ := forall₂_one hcs
      obtain _ | ⟨hd, _ | _⟩ := below
      rw [toShape_node, toShape_node, Stmt.kind, List.map_cons, List.map_cons, lowerStmt, lowerStmt,
        h.signature]
      exact (load_upTo h hc hd _).bind fun _ => .refl (by simp)
  | ifThen cond body ih | whileDo cond body ih =>
    intro b d hb hu
    obtain ⟨i, p, cs, rfl, hcs⟩ := isStmt_iff.mp hb
    obtain ⟨-, below⟩ := hu
    obtain ⟨cc, cb, rfl, hcc, hcb⟩ := forall₂_two hcs
    obtain _ | ⟨hdc, _ | ⟨hdb, _ | _⟩⟩ := below
    rw [toShape_node, toShape_node, Stmt.kind, List.map_cons, List.map_cons, List.map_cons,
      List.map_cons, lowerStmt, lowerStmt]
    exact .after (by simp) fun _ => (load_upTo h hcc hdc _).bind fun _ =>
      (ih _ _ hcb hdb).bind fun _ => .refl (by simp)
  | ifElse cond body otherwise ihb iho =>
    intro b d hb hu
    obtain ⟨i, p, cs, rfl, hcs⟩ := isStmt_iff.mp hb
    obtain ⟨-, below⟩ := hu
    obtain ⟨cc, cb, co, rfl, hcc, hcb, hco⟩ := forall₂_three hcs
    obtain _ | ⟨hdc, _ | ⟨hdb, _ | ⟨hdo, _ | _⟩⟩⟩ := below
    rw [toShape_node, toShape_node, Stmt.kind, List.map_cons, List.map_cons, List.map_cons,
      List.map_cons, List.map_cons, List.map_cons, lowerStmt, lowerStmt]
    exact .after (by simp) fun _ => (load_upTo h hcc hdc _).bind fun _ =>
      (ihb _ _ hcb hdb).bind fun _ => (iho _ _ hco hdo).bind fun _ => .refl (by simp)
  | block body ih =>
    intro b d hb hu
    obtain ⟨i, p, cs, rfl, hcs⟩ := isStmt_iff.mp hb
    obtain ⟨-, below⟩ := hu
    rw [Stmt.parts, List.forall₂_map_right_iff] at hcs
    rw [toShape_node, toShape_node, Stmt.kind, lowerStmt_block, lowerStmt_block]
    exact lowerStmts_upTo ih hcs below
  | expr value =>
    intro b d hb hu
    obtain ⟨i, p, cs, rfl, hcs⟩ := isStmt_iff.mp hb
    obtain ⟨-, below⟩ := hu
    obtain ⟨c, rfl, hc⟩ := forall₂_one hcs
    obtain _ | ⟨hd, _ | _⟩ := below
    rw [toShape_node, toShape_node, Stmt.kind, List.map_cons, List.map_cons, lowerStmt, lowerStmt]
    exact (lowersUpTo R h value .void c _ hc hd).bind fun _ => .refl (by simp)

theorem lowerBody_upTo (h : SameInterface cx cx') {parts : List Part} {cs ds : List Subtree}
    (hcs : List.Forall₂ Reads cs parts) (hds : List.Forall₂ (UpTo R) cs ds) :
    StepUpTo R (lowerBody cx (cs.map fun c _ => c.toShape))
      (lowerBody cx' (ds.map fun d _ => d.toShape)) := by
  induction hcs generalizing ds with
  | nil =>
    cases hds
    exact .refl (.pure _)
  | @cons c part cs parts hc _ ih =>
    obtain _ | ⟨hd, hrest⟩ := hds
    rw [List.map_cons, List.map_cons, lowerBody, lowerBody, lift_bind hc.kind_toShape,
      lift_bind (Subtree.kind_toShape _), part.isStatement_kind, hd.isStatement_kind hc]
    cases part with
    | stmt s =>
      exact (stmtLowersUpTo R h s c _ hc hd).bind fun _ => (ih hrest).bind fun _ => .refl (by simp)
    | _ => exact (ih hrest).bind fun _ => .refl (by simp)

/-! ### Methods -/

/-- **A method is lowered from its own signature and body and from the interface of its class**, up
to ids. -/
theorem lowerMethod_upTo (h : SameInterface cx cx') {parts : List Part} {cs ds : List Subtree}
    (hcs : List.Forall₂ Reads cs parts) (hds : List.Forall₂ (UpTo R) cs ds) :
    EndsUpTo R (lowerMethod cx (cs.map fun c _ => c.toShape))
      (lowerMethod cx' (ds.map fun d _ => d.toShape)) := by
  rw [lowerMethod, lowerMethod, h.start, h.signature]
  refine (lowerBody_upTo h hcs hds cx.start).bind fun (code, final) => .refl ?_
  exact (blameless_verifyVars _).bind fun _ => by rintro node reason ⟨⟩

end Lowering

end Classlet
