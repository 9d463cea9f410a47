import Classlet.Proofs.Optimize.Propagation
import Classlet.Proofs.Symbols.Declarations

/-!
# Propagation in the methods of a class

The variables that may become known in a method are own variables of it which no conditional or loop
of its body assigns, so propagation through a method keeps what its body does
(`bodySame_propagate`).  Going through the tree of a program makes it the tree of the program whose
first class has its methods propagated, each with its signature (`propagateConstants_ok`).
-/

namespace Classlet

open Lowering (Context)
open Semantics Subtree

/-! ### Assigned variables -/

namespace Part

/-- The variables assigned in a part. -/
def assigned : Part → List String
  | stmt s => s.assigned
  | method m => Stmt.assignedInAll m.body
  | classDecl c => c.methods.flatMap fun m => Stmt.assignedInAll m.body
  | program p => p.classes.flatMap fun c => c.methods.flatMap fun m => Stmt.assignedInAll m.body
  | expr _ | type _ | param _ | varDecl _ | importDecl _ => []

/-- The variables assigned in a conditional or a loop of a part. -/
def branchAssigned : Part → List String
  | stmt s => s.branchAssigned
  | method m => Stmt.branchAssignedInAll m.body
  | classDecl c => c.methods.flatMap fun m => Stmt.branchAssignedInAll m.body
  | program p =>
    p.classes.flatMap fun c => c.methods.flatMap fun m => Stmt.branchAssignedInAll m.body
  | expr _ | type _ | param _ | varDecl _ | importDecl _ => []

end Part

theorem Stmt.assignedInAll_eq (ss : List Stmt) : assignedInAll ss = ss.flatMap assigned := by
  induction ss with
  | nil => rfl
  | cons s ss ih => rw [assignedInAll, ih, List.flatMap_cons]

theorem Stmt.branchAssignedInAll_eq (ss : List Stmt) :
    branchAssignedInAll ss = ss.flatMap branchAssigned := by
  induction ss with
  | nil => rfl
  | cons s ss ih => rw [branchAssignedInAll, ih, List.flatMap_cons]

theorem flatMap_empty {α : Type} (as : List α) :
    as.flatMap (fun _ => ([] : List String)) = [] :=
  List.flatMap_eq_nil_iff.mpr fun _ _ => rfl

namespace Part

/-- A part assigns what its parts assign, and the variable to which it is an assignment. -/
theorem assigned_eq (part : Part) :
    part.assigned = match part.kind with
      | .assign target => target :: part.parts.flatMap assigned
      | _ => part.parts.flatMap assigned := by
  cases part with
  | expr e => cases e <;> simp [assigned, kind, parts, Expr.kind, List.flatMap_map]
  | stmt s =>
    cases s <;> simp [assigned, kind, parts, Stmt.kind, Stmt.parts, Stmt.assigned,
      Stmt.assignedInAll_eq, List.flatMap_map]
  | _ =>
    simp [assigned, kind, parts, MethodDecl.parts, ClassDecl.parts, Program.parts,
      Stmt.assignedInAll_eq, List.flatMap_map, flatMap_empty]

/-- Conditionals and loops assign in a branch whatever their parts assign. -/
theorem branchAssigned_eq (part : Part) :
    part.branchAssigned = match part.kind with
      | .ifStmt | .whileStmt => part.parts.flatMap assigned
      | _ => part.parts.flatMap branchAssigned := by
  cases part with
  | expr e => cases e <;> simp [branchAssigned, kind, parts, Expr.kind, List.flatMap_map]
  | stmt s =>
    cases s <;> simp [branchAssigned, assigned, kind, parts, Stmt.kind, Stmt.parts,
      Stmt.branchAssigned, Stmt.branchAssignedInAll_eq, List.flatMap_map]
  | _ =>
    simp [branchAssigned, kind, parts, MethodDecl.parts, ClassDecl.parts, Program.parts,
      Stmt.branchAssignedInAll_eq, List.flatMap_map, flatMap_empty]

end Part

namespace Optimize

theorem assignedInAll_ok {cs : List Subtree} {parts : List Part} (h : List.Forall₂ Reads cs parts)
    (ih : ∀ c ∈ cs, ∀ part, c.Reads part → assigned c.toShape = .ok part.assigned) :
    assignedInAll (cs.map fun c _ => c.toShape) = .ok (parts.flatMap Part.assigned) := by
  induction h with
  | nil => rfl
  | cons hc _ ihcs =>
    rw [List.map_cons, assignedInAll, ih _ List.mem_cons_self _ hc,
      ihcs fun d hd => ih d (List.mem_cons_of_mem _ hd)]
    rfl

theorem assigned_ok {b : Subtree} {part : Part} (h : b.Reads part) :
    assigned b.toShape = .ok part.assigned := by
  induction b generalizing part with
  | node i k p cs ih =>
    obtain ⟨rfl, hcs⟩ := reads_node_iff.mp h
    have hall := assignedInAll_ok hcs fun c hc q hq => ih c hc hq
    rw [toShape_node, assigned, hall, part.assigned_eq]
    cases part.kind <;> rfl

theorem branchAssignedInAll_ok {cs : List Subtree} {parts : List Part}
    (h : List.Forall₂ Reads cs parts)
    (ih : ∀ c ∈ cs, ∀ part, c.Reads part → branchAssigned c.toShape = .ok part.branchAssigned) :
    branchAssignedInAll (cs.map fun c _ => c.toShape)
      = .ok (parts.flatMap Part.branchAssigned) := by
  induction h with
  | nil => rfl
  | cons hc _ ihcs =>
    rw [List.map_cons, branchAssignedInAll, ih _ List.mem_cons_self _ hc,
      ihcs fun d hd => ih d (List.mem_cons_of_mem _ hd)]
    rfl

theorem branchAssigned_ok {b : Subtree} {part : Part} (h : b.Reads part) :
    branchAssigned b.toShape = .ok part.branchAssigned := by
  induction b generalizing part with
  | node i k p cs ih =>
    obtain ⟨rfl, hcs⟩ := reads_node_iff.mp h
    have hall := branchAssignedInAll_ok hcs fun c hc q hq => ih c hc hq
    have hbranch := assignedInAll_ok hcs fun c _ q hq => assigned_ok hq
    rw [toShape_node, part.branchAssigned_eq]
    cases part.kind with
    | ifStmt | whileStmt => exact hbranch
    | _ => exact hall

/-! ### One method -/

/-- The variables that may become known in the body of a method with the signature. -/
def tracking (s : Signature) (body : List Stmt) : Tracking :=
  .ofNames ((s.params ++ s.locals).map (·.name)) (Stmt.branchAssignedInAll body)

end Optimize

/-- The method after propagation. -/
def MethodDecl.propagate (s : Signature) (m : MethodDecl) : MethodDecl :=
  { m with
    body := (Stmt.propagateAll (Optimize.tracking s m.body).propagates m.body fun _ => none).1 }

namespace Optimize

theorem ownNames_tracking (table : SymbolTable) (s : Signature) (body : List Stmt) :
    OwnNames ⟨table, s⟩ (tracking s body).propagates := by
  intro x hx
  rw [tracking, Tracking.propagates_ofNames, Bool.and_eq_true, List.contains_iff_mem,
    List.mem_map] at hx
  obtain ⟨⟨symbol, hmem, rfl⟩, -⟩ := hx
  unfold Context.resolve SymbolTable.resolveIn
  cases hp : s.param? symbol.name with
  | some param => exact ⟨.param, param, rfl, nofun⟩
  | none =>
    cases hl : s.localVar? symbol.name with
    | some l => exact ⟨.localVar, l, rfl, nofun⟩
    | none =>
      rw [Signature.param?, Symbol.find?, List.find?_eq_none] at hp
      rw [Signature.localVar?, Symbol.find?, List.find?_eq_none] at hl
      rcases List.mem_append.mp hmem with hmem | hmem
      · exact absurd (hp symbol hmem) (by simp)
      · exact absurd (hl symbol hmem) (by simp)

theorem propagates_branchAssigned {s : Signature} {body : List Stmt} {stmt : Stmt}
    (hstmt : stmt ∈ body) {x : String} (hx : x ∈ stmt.branchAssigned) :
    (tracking s body).propagates x = false := by
  have hmem : x ∈ Stmt.branchAssignedInAll body :=
    Stmt.mem_branchAssignedInAll.mpr ⟨stmt, hstmt, hx⟩
  rw [tracking, Tracking.propagates_ofNames]
  simp [hmem]

/-- The bodies take the same course from every store, in every world. -/
def BodySame (cx : Context) (body body' : List Stmt) : Prop :=
  ∀ (R W : Type) [DecidableEq R] (world : World R W) (n : Nat) (σ : Store R) (w : W),
    execAll (Setting.plain cx world) n body' σ w = execAll (Setting.plain cx world) n body σ w

/-- **Propagation through a method keeps what its body does.** -/
theorem bodySame_propagate (table : SymbolTable) (s : Signature) (m : MethodDecl) :
    BodySame ⟨table, s⟩ m.body (m.propagate s).body := by
  intro R W _ world n σ w
  have hnone : Knowledge.Holds (fun _ => none) (tracking s m.body).propagates σ :=
    fun _ _ h => by cases h
  refine (execAll_propagateAll (fun stmt hstmt => ?_) hnone w).1
  exact exec_propagate (ownNames_tracking table s m.body) n fun x hx =>
    propagates_branchAssigned hstmt hx

variable {t : Tree} {parent : Option NodeId} {q : Kind → Bool}

theorem statementsOf_ok {i : NodeId} {cs : List Subtree} (h : ∀ c ∈ cs, t.Holds (some i) c) :
    statementsOf t (cs.map Subtree.id)
      = .ok ((cs.filter (·.kind.isStatement)).map Subtree.id) := by
  induction cs with
  | nil => rfl
  | cons c cs ih =>
    rw [List.map_cons, statementsOf, (h c List.mem_cons_self).kind_eq,
      ih fun d hd => h d (List.mem_cons_of_mem _ hd)]
    by_cases hk : c.kind.isStatement = true
    · rw [List.filter_cons, if_pos hk]
      simp only [bind, Except.bind, pure, Except.pure, hk, if_true, List.map_cons]
    · rw [List.filter_cons, if_neg hk]
      simp only [bind, Except.bind, pure, Except.pure, hk, Bool.false_eq_true, if_false]

/-- Propagation through the parts of a method changes its statements only. -/
theorem propagateAll_parts (s : Signature) (m : MethodDecl) :
    (Part.propagateAll (tracking s m.body).propagates (Part.method m).parts fun _ => none).1
      = (Part.method (m.propagate s)).parts := by
  simp only [Part.parts, MethodDecl.parts]
  rw [Part.propagateAll_append, Part.propagateAll_of_no_stmts _ (by
    simp only [List.mem_append, List.mem_map]
    rintro _ ((⟨_, -, rfl⟩ | ⟨_, -, rfl⟩) | ⟨_, -, rfl⟩) <;> rfl), Part.propagateAll_stmts]
  rfl

/-- **Propagation through the tree of a method.** -/
theorem propagateMethod_ok (hq : CountsReads q) {b : Subtree} {m : MethodDecl} (s : Signature)
    (hb : t.Holds parent b) (hn : b.ids.Nodup) (hm : b.Reads (.method m)) :
    ∃ n t' b', propagateMethod s b.id t = (.ok n, t') ∧ Tree.Edited t t' parent b b' ∧
      b'.id = b.id ∧ b'.Reads (.method (m.propagate s)) ∧ n + b'.count q = b.count q := by
  obtain ⟨i, p, cs, rfl, hcs⟩ := reads_iff.mp hm
  have hbranch : branchAssigned (t.shape i) = .ok (Stmt.branchAssignedInAll m.body) := by
    have hshape := hb.shape_eq hn
    rw [id_node] at hshape
    rw [hshape, branchAssigned_ok hm]
    rfl
  have hstmts : (do statementsOf t (← t.children i))
      = .ok ((cs.filter (·.kind.isStatement)).map Subtree.id) := by
    rw [Tree.children, Tree.node_eq_ok hb.here]
    exact statementsOf_ok hb.child
  have hfuel : ∀ c ∈ cs, c.ids.length ≤ t.stepLimit := by
    intro c hc
    have hle : c.ids.length ≤ t.size := (hb.child c hc).length_ids_le (nodup_child hn hc)
    unfold Tree.stepLimit
    omega
  have hreal : ∀ stmt ∈ (Part.method m).parts.filterMap Part.stmt?,
      Realized q (tracking s m.body) stmt := fun stmt _ => realized hq stmt
  obtain ⟨facts, t', cs', hrun, -, hedit, hcs', hcount⟩ :=
    propagateChildren_ok [] hb hn hcs hreal (Facts.none_shows t) hfuel
  rw [propagateAll_parts] at hcs'
  refine ⟨facts.replaced, t', .node i (Part.method m).kind p cs', ?_, hedit, rfl,
    reads_node_iff.mpr ⟨rfl, hcs'⟩, ?_⟩
  · rw [id_node, propagateMethod,
      Edit.bind_ok (Edit.read_ok (f := fun t => branchAssigned (t.shape i)) hbranch),
      Edit.bind_ok (Edit.read_ok (f := fun t => do statementsOf t (← t.children i)) hstmts),
      Edit.bind_ok (Edit.read_ok (f := fun t => return t.stepLimit) rfl), ← tracking,
      Edit.bind_ok hrun, Edit.pure_apply]
  · have hnone : Facts.none.replaced = 0 := rfl
    rw [count_node, count_node]
    omega

/-! ### The methods of a class -/

end Optimize

/-- The class after propagation through its methods. -/
def ClassDecl.propagate (signatures : List Signature) (c : ClassDecl) : ClassDecl :=
  { c with methods := List.zipWith MethodDecl.propagate signatures c.methods }

namespace Optimize

variable {t : Tree} {parent : Option NodeId} {q : Kind → Bool} {table : SymbolTable}

/-- The id and the name of a method declaration. -/
def methodEntry? (c : Subtree) : Option (NodeId × String) :=
  match c.kind with
  | .methodDecl name _ _ => some (c.id, name)
  | _ => none

theorem methodsOf_ok (cs : List Subtree) :
    methodsOf (cs.map fun c _ => c.toShape) = .ok (cs.filterMap methodEntry?) := by
  induction cs with
  | nil => rfl
  | cons c cs ih =>
    obtain ⟨i, k, p, ds⟩ := c
    simp only [List.map_cons, toShape_node, methodsOf, List.filterMap_cons, methodEntry?, kind_node]
    cases k with
    | methodDecl name isPublic isStatic =>
      simp only [ih]
      rfl
    | _ => exact ih

theorem methodEntry?_method {c : Subtree} {m : MethodDecl} (h : c.Reads (.method m)) :
    methodEntry? c = some (c.id, m.name) := by
  obtain ⟨i, p, cs, rfl, -⟩ := reads_iff.mp h
  rfl

theorem filterMap_methodEntry?_fields {cs : List Subtree} {fields : List (String × TypeExpr)}
    (h : List.Forall₂ Reads cs (fields.map .varDecl)) : cs.filterMap methodEntry? = [] := by
  rw [List.filterMap_eq_nil_iff]
  intro c hc
  rw [List.forall₂_map_right_iff] at h
  obtain ⟨decl, hdecl⟩ := forall₂_of_mem h hc
  obtain ⟨i, p, ds, rfl, -⟩ := reads_iff.mp hdecl
  rfl

/-- **Going through methods in order**, `index` of which came before. -/
theorem propagateMethods_ok (hq : CountsReads q) {i : NodeId} {k : Kind} {p : Position}
    (before : List Subtree) {todo : List Subtree} {signatures : List Signature}
    {methods : List MethodDecl} (index : Nat) (hnames : NamedAlike signatures methods)
    (hsig : table.signatures.drop index = signatures)
    (hb : t.Holds parent (.node i k p (before ++ todo)))
    (hn : (Subtree.node i k p (before ++ todo)).ids.Nodup)
    (hread : List.Forall₂ Reads todo (methods.map .method)) :
    ∃ n t' todo', propagateMethods table index (todo.filterMap methodEntry?) t = (.ok n, t') ∧
      Tree.Edited t t' parent (.node i k p (before ++ todo)) (.node i k p (before ++ todo')) ∧
      List.Forall₂ Reads todo'
        ((List.zipWith MethodDecl.propagate signatures methods).map .method) ∧
      n + countAll q todo' = countAll q todo := by
  induction hnames generalizing t before todo index with
  | nil =>
    obtain rfl := List.forall₂_nil_right_iff.mp hread
    exact ⟨0, t, [], rfl, .refl hb hn, .nil, rfl⟩
  | @cons s m signatures methods hname _ ih =>
    obtain ⟨c, todo, hc, hrest, rfl⟩ := List.forall₂_cons_right_iff.mp hread
    have hs : table.signatures[index]? = some s := by
      rw [← Nat.add_zero index, ← List.getElem?_drop, hsig]
      rfl
    have hdrop : table.signatures.drop (index + 1) = signatures := by
      rw [← List.drop_drop, hsig]
      rfl
    have hmem : c ∈ before ++ c :: todo := by simp
    obtain ⟨n₁, t₁, c', hrun₁, hedit₁, hid, hc', hcount₁⟩ :=
      propagateMethod_ok hq s (hb.child c hmem) (nodup_child hn hmem) hc
    have hedit₁ := Tree.Edited.in_child hb hn hedit₁ hid
    have hb₁ := hedit₁.holds
    have hn₁ := hedit₁.nodup
    rw [List.append_cons] at hb₁ hn₁
    obtain ⟨n₂, t₂, todo', hrun₂, hedit₂, htodo, hcount₂⟩ :=
      ih (before ++ [c']) (index + 1) hdrop hb₁ hn₁ hrest
    rw [← List.append_cons, ← List.append_cons] at hedit₂
    refine ⟨n₁ + n₂, t₂, c' :: todo', ?_, hedit₁.trans hedit₂, .cons hc' htodo, ?_⟩
    · have hdecl : Edit.read (fun _ => table.declared index m.name) t = (.ok s, t) :=
        Edit.read_ok (hname ▸ SymbolTable.declared_ok hs)
      rw [List.filterMap_cons_some (methodEntry?_method hc), propagateMethods, Edit.bind_ok hdecl,
        Edit.bind_ok hrun₁, Edit.bind_ok hrun₂, Edit.pure_apply]
    · rw [countAll_cons, countAll_cons]
      omega

/-! ### The program -/

end Optimize

/-- The ids and names of the methods of the first class. -/
def Tree.methodEntries (t : Tree) : Except Halt (List (NodeId × String)) := do
  let (_, _, members) ← Shape.firstClass (← (t.shape t.root).children)
  Optimize.methodsOf members

theorem Tree.Pictures.methodEntries_ok {t : Tree} {p : Program} {r i : NodeId} {k : Kind}
    {pos q : Position} {is fs ms after : List Subtree} {imports : List String}
    {fields : List (String × TypeExpr)} {name : String} {superclass : Option String}
    (h : t.Pictures p (.node r k pos
      (is ++ .node i (.classDecl name superclass) q (fs ++ ms) :: after)))
    (his : List.Forall₂ Reads is (imports.map .importDecl))
    (hfs : List.Forall₂ Reads fs (fields.map .varDecl)) :
    t.methodEntries = .ok (ms.filterMap Optimize.methodEntry?) := by
  have hentries := Optimize.methodsOf_ok (fs ++ ms)
  rw [List.filterMap_append, Optimize.filterMap_methodEntry?_fields hfs,
    List.nil_append] at hentries
  have hshape : (t.shape t.root).children = .ok ((is
      ++ .node i (.classDecl name superclass) q (fs ++ ms) :: after).map fun c _ => c.toShape) :=
    h.children_eq
  rw [methodEntries, hshape]
  show (Shape.firstClass _ >>= _) = _
  rw [Shape.firstClass_ok his]
  exact hentries

namespace Optimize

/-- **Propagation through the tree of a program** goes through the methods of its first class. -/
theorem propagateConstants_ok (hq : CountsReads q) {b : Subtree} {imports : List String}
    {c : ClassDecl} {rest : List ClassDecl} (h : t.Pictures ⟨imports, c :: rest⟩ b)
    (hnames : NamedAlike table.signatures c.methods) :
    ∃ n t' b', propagateConstants table t = (.ok n, t') ∧
      t'.Pictures ⟨imports, c.propagate table.signatures :: rest⟩ b' ∧
      n + b'.count q = b.count q := by
  obtain ⟨r, pos, is, i, p, fs, ms, after, rfl, his, hfs, hms, hafter⟩ := h.exists_firstClass
  have hclass := h.holds.child (.node i (.classDecl c.name c.superclass) p (fs ++ ms)) (by simp)
  have hcn : (node i (.classDecl c.name c.superclass) p (fs ++ ms)).ids.Nodup :=
    nodup_child h.nodup (by simp)
  obtain ⟨n, t', ms', hrun, hedit, hms', hcount⟩ :=
    propagateMethods_ok hq fs 0 hnames rfl hclass hcn hms
  have hread : Edit.read Tree.methodEntries t = (.ok (ms.filterMap methodEntry?), t) :=
    Edit.read_ok (h.methodEntries_ok his hfs)
  have hclass' : (Subtree.node i (Part.classDecl c).kind p (fs ++ ms')).Reads
      (.classDecl (c.propagate table.signatures)) :=
    reads_node_iff.mpr ⟨rfl, List.rel_append hfs hms'⟩
  refine ⟨n, t', _, ?_, h.edited (Tree.Edited.in_child h.holds h.nodup hedit rfl) rfl
    (reads_node_iff.mpr ⟨rfl, List.rel_append his (.cons hclass' hafter)⟩), ?_⟩
  · exact (Edit.bind_ok hread).trans hrun
  · simp only [count_node, countAll_append, countAll_cons]
    omega

end Optimize

end Classlet
