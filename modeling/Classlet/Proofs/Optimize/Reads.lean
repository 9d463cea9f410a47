import Classlet.Proofs.Optimize.NormalForm
import Classlet.Proofs.Optimize.Rewriting

/-!
# Reads that stay

Optimizing only removes reads from a tree, so the reads of a name that are left are some of those
there were, in the same order (`Rewritten.readsOf_sublist`).  A name that never becomes known is
read as often in the normal form of a method as in the method (`Stmt.reads_normalize`), so all of
its reads are left.

* `optimize_keeps_reads`: the reads of a name that conditionals or loops assign, or that is no own
  name of the method, stay where they are.
-/

namespace Classlet

open Optimize Subtree

/-- The node reads the name. -/
def Kind.reads (x : String) : Kind → Bool
  | .varRef name => name == x
  | _ => false

/-! ### Counting reads -/

namespace Expr

mutual

/-- How often an expression reads a name. -/
def reads (x : String) : Expr → Nat
  | .var name => if name = x then 1 else 0
  | .int _ | .bool _ | .newObject _ | .this => 0
  | .binary _ lhs rhs => lhs.reads x + rhs.reads x
  | .unary _ operand => operand.reads x
  | .call receiver _ args => receiver.reads x + readsInAll x args
  | .field object _ => object.reads x
  | .index array position => array.reads x + position.reads x
  | .length array => array.reads x
  | .newArray size => size.reads x
  | .arrayLit elements => readsInAll x elements
  | .paren inner => inner.reads x

/-- How often some expressions read a name. -/
def readsInAll (x : String) : List Expr → Nat
  | [] => 0
  | e :: rest => e.reads x + readsInAll x rest

end

theorem readsInAll_eq (x : String) (es : List Expr) :
    readsInAll x es = (es.map (reads x)).sum := by
  induction es with
  | nil => rfl
  | cons e es ih => rw [readsInAll, ih, List.map_cons, List.sum_cons]

theorem reads_eq (x : String) (e : Expr) :
    e.reads x = (e.parts.map (reads x)).sum + if e.kind.reads x then 1 else 0 := by
  cases e <;> simp [reads, parts, kind, Kind.reads, readsInAll_eq]

theorem reads_of_isLiteral {x : String} {e : Expr} (h : e.isLiteral = true) : e.reads x = 0 := by
  cases e <;> first | rfl | cases h

variable {F : Knowledge} {x : String}

theorem reads_eq_of_parts {e e' : Expr} (hk : e'.kind = e.kind)
    (hp : e'.parts.map (reads x) = e.parts.map (reads x)) : e'.reads x = e.reads x := by
  rw [reads_eq, reads_eq, hk, hp]

/-- Replacing what is known removes no read of what is not known. -/
theorem reads_substitute (hx : F x = none) (hF : F.Literals) (e : Expr) :
    (e.substitute F).reads x = e.reads x := by
  induction e using Expr.ind_parts with
  | h e ih =>
    by_cases hvar : ∃ y, e = .var y
    · obtain ⟨y, rfl⟩ := hvar
      rw [substitute]
      cases hy : F y with
      | none => rfl
      | some l =>
        have hne : y ≠ x := fun e => by rw [e, hx] at hy; cases hy
        rw [Option.getD_some, reads_of_isLiteral (hF y l hy), reads, if_neg hne]
    · obtain ⟨hk, hp⟩ := e.substitute_of_parts F fun y hy => hvar ⟨y, hy⟩
      refine reads_eq_of_parts hk ?_
      rw [hp, List.map_map]
      exact List.map_congr_left ih

theorem reads_collapse (inCondition : Bool) (e : Expr) :
    (e.collapse inCondition).reads x = e.reads x := by
  rcases e.collapse_cases inCondition with ⟨-, he⟩ | ⟨l, hl, hlit, hk, -⟩
  · rw [he]
  · -- what collapses reads nothing
    obtain ⟨hcompound, hparts, -⟩ := collapse?_spec hl
    have hzero : ∀ a ∈ e.parts, a.reads x = 0 := fun a ha =>
      reads_of_isLiteral (a.isLiteral_kind ▸ hparts _ (List.mem_map_of_mem ha))
    have hkind : e.kind.reads x = false := by
      cases e <;> first | rfl | cases hcompound
    have hcollapsed : (e.collapse inCondition).isLiteral = true := by
      rw [← isLiteral_kind, hk, hlit]
    rw [reads_of_isLiteral hcollapsed, reads_eq, hkind, List.map_congr_left hzero]
    simp

theorem reads_simplify (inCondition : Bool) (e : Expr) :
    (e.simplify inCondition).reads x = e.reads x := by
  induction e using Expr.ind_parts generalizing inCondition with
  | h e ih =>
    obtain ⟨e₁, he, hk, hp⟩ := e.simplify_eq inCondition
    rw [he, reads_collapse]
    refine reads_eq_of_parts hk ?_
    rw [hp, List.map_map]
    exact List.map_congr_left fun a ha => ih a ha _

end Expr

namespace Stmt

mutual

/-- How often a statement reads a name. -/
def reads (x : String) : Stmt → Nat
  | .assign _ value | .expr value => value.reads x
  | .arrayAssign _ index value => index.reads x + value.reads x
  | .ret value => (value.map (Expr.reads x)).getD 0
  | .ifThen cond body | .whileDo cond body => cond.reads x + body.reads x
  | .ifElse cond body otherwise => cond.reads x + body.reads x + otherwise.reads x
  | .block body => readsInAll x body

/-- How often some statements read a name. -/
def readsInAll (x : String) : List Stmt → Nat
  | [] => 0
  | s :: rest => s.reads x + readsInAll x rest

end

theorem readsInAll_eq (x : String) (ss : List Stmt) :
    readsInAll x ss = (ss.map (reads x)).sum := by
  induction ss with
  | nil => rfl
  | cons s ss ih => rw [readsInAll, ih, List.map_cons, List.sum_cons]

variable {P : String → Bool} {x : String}

/-- The normal form of the statement reads the name as often, and the name stays unknown. -/
def KeepsReads (P : String → Bool) (x : String) (s : Stmt) : Prop :=
  ∀ F : Knowledge, F x = none → F.Literals →
    (s.normalize P F).1.reads x = s.reads x ∧ (s.normalize P F).2 x = none

theorem readsInAll_normalizeAll {ss : List Stmt} (hss : ∀ s ∈ ss, KeepsReads P x s)
    {F : Knowledge} (hx : F x = none) (hF : F.Literals) :
    readsInAll x (normalizeAll P ss F).1 = readsInAll x ss ∧ (normalizeAll P ss F).2 x = none := by
  induction ss generalizing F with
  | nil => exact ⟨rfl, hx⟩
  | cons s ss ih =>
    rw [List.forall_mem_cons] at hss
    obtain ⟨hs, hx₁⟩ := hss.1 F hx hF
    obtain ⟨hrest, hx₂⟩ := ih hss.2 hx₁ (literals_normalize P s hF)
    simp only [normalizeAll, readsInAll, hs, hrest, hx₂]
    exact ⟨trivial, trivial⟩

/-- **A name that may not become known** is read as often in the normal form of a statement. -/
theorem reads_normalize (hP : P x = false) (s : Stmt) : KeepsReads P x s := by
  have hexpr : ∀ {F : Knowledge}, F x = none → F.Literals → ∀ (inCondition : Bool) (e : Expr),
      ((e.substitute F).simplify inCondition).reads x = e.reads x := fun hx hF inCondition e => by
    rw [Expr.reads_simplify, Expr.reads_substitute hx hF]
  induction s using Stmt.ind with
  | assign y e =>
    intro F hx hF
    refine ⟨hexpr hx hF false e, ?_⟩
    simp only [normalize, Knowledge.set]
    split
    · next hy => rw [← hy, hP, Bool.false_and, if_neg Bool.false_ne_true]
    · exact hx
  | arrayAssign y i e =>
    intro F hx hF
    simp only [normalize, reads, hexpr hx hF, hx]
    exact ⟨trivial, trivial⟩
  | ret value =>
    intro F hx hF
    cases value with
    | none => exact ⟨rfl, hx⟩
    | some e => exact ⟨hexpr hx hF false e, hx⟩
  | expr e => exact fun F hx hF => ⟨hexpr hx hF false e, hx⟩
  | ifThen c b ih | whileDo c b ih =>
    intro F hx hF
    obtain ⟨hb, hx'⟩ := ih F hx hF
    simp only [normalize, reads, hexpr hx hF, hb, hx']
    exact ⟨trivial, trivial⟩
  | ifElse c b o ihb iho =>
    intro F hx hF
    obtain ⟨hb, hx₁⟩ := ihb F hx hF
    obtain ⟨ho, hx₂⟩ := iho _ hx₁ (literals_normalize P b hF)
    simp only [normalize, reads, hexpr hx hF, hb, ho, hx₂]
    exact ⟨trivial, trivial⟩
  | block body ih =>
    intro F hx hF
    exact readsInAll_normalizeAll ih hx hF

end Stmt

namespace Part

/-- How often a part reads a name. -/
def reads (x : String) : Part → Nat
  | expr e => e.reads x
  | stmt s => s.reads x
  | method m => Stmt.readsInAll x m.body
  | classDecl c => (c.methods.map fun m => Stmt.readsInAll x m.body).sum
  | program p => (p.classes.map fun c => (c.methods.map fun m => Stmt.readsInAll x m.body).sum).sum
  | type _ | param _ | varDecl _ | importDecl _ => 0

theorem reads_eq (x : String) (part : Part) :
    part.reads x = (part.parts.map (reads x)).sum + if part.kind.reads x then 1 else 0 := by
  cases part with
  | expr e =>
    rw [reads, e.reads_eq, parts, List.map_map]
    rfl
  | stmt s =>
    cases s with
    | ret value =>
      cases value <;> simp [reads, parts, kind, Kind.reads, Stmt.reads, Stmt.parts, Stmt.kind]
    | _ =>
      simp [reads, parts, kind, Kind.reads, Stmt.reads, Stmt.parts, Stmt.kind,
        Stmt.readsInAll_eq, Function.comp_def, Nat.add_assoc]
  | _ =>
    simp [reads, parts, kind, Kind.reads, MethodDecl.parts, ClassDecl.parts, Program.parts,
      Stmt.readsInAll_eq, Function.comp_def]

end Part

/-! ### Reads in a tree -/

namespace Subtree

mutual

/-- The ids of the nodes that read a name, in pre-order. -/
def readsOf (x : String) : Subtree → List NodeId
  | .node id kind _ children =>
    if kind.reads x then id :: readsOfAll x children else readsOfAll x children

/-- The same for several subtrees, one after the other. -/
def readsOfAll (x : String) : List Subtree → List NodeId
  | [] => []
  | b :: rest => b.readsOf x ++ readsOfAll x rest

end

theorem readsOfAll_eq (x : String) (bs : List Subtree) :
    readsOfAll x bs = bs.flatMap (readsOf x) := by
  induction bs with
  | nil => rfl
  | cons b bs ih => rw [readsOfAll, ih, List.flatMap_cons]

theorem readsOf_node (x : String) (i : NodeId) (k : Kind) (p : Position) (cs : List Subtree) :
    (node i k p cs).readsOf x
      = (if k.reads x then [i] else []) ++ cs.flatMap (readsOf x) := by
  rw [readsOf, readsOfAll_eq]
  split <;> rfl

/-- What a subtree reads is what the part reads. -/
theorem Reads.length_readsOf {b : Subtree} {part : Part} (h : b.Reads part) (x : String) :
    (b.readsOf x).length = part.reads x := by
  induction b generalizing part with
  | node i k p cs ih =>
    obtain ⟨rfl, hcs⟩ := reads_node_iff.mp h
    have hsum : (cs.flatMap (readsOf x)).length = (part.parts.map (Part.reads x)).sum := by
      generalize part.parts = parts at hcs
      clear h
      induction hcs with
      | nil => rfl
      | cons hc _ ihcs =>
        rw [List.flatMap_cons, List.length_append, ih _ List.mem_cons_self hc,
          ihcs fun c hc => ih c (List.mem_cons_of_mem _ hc), List.map_cons, List.sum_cons]
    rw [readsOf_node, part.reads_eq, List.length_append, hsum, Nat.add_comm]
    split <;> rfl

/-- **Rewriting removes reads only.** -/
theorem Rewritten.readsOf_sublist {b b' : Subtree} (h : b.Rewritten b') (x : String) :
    (b'.readsOf x).Sublist (b.readsOf x) := by
  induction b generalizing b' with
  | node i k p cs ih =>
    cases h with
    | kept below =>
      rw [readsOf_node, readsOf_node]
      refine List.Sublist.append (List.Sublist.refl _) ?_
      clear p
      induction below with
      | nil => exact List.Sublist.refl _
      | cons hc _ ihcs =>
        rw [List.flatMap_cons, List.flatMap_cons]
        exact (ih _ List.mem_cons_self hc).append
          (ihcs fun c hc => ih c (List.mem_cons_of_mem _ hc))
    | @replaced _ j l q _ hl =>
      have hnone : (node j l q []).readsOf x = [] := by
        cases l <;> first | rfl | cases hl
      rw [hnone]
      exact List.nil_sublist _

end Subtree

/-- The node at an id reads the name. -/
def Tree.readsAt (t : Tree) (x : String) (id : NodeId) : Bool :=
  match t.kind id with
  | .ok kind => kind.reads x
  | .error _ => false

/-- The nodes of the subtree at an id that read a name, in pre-order. -/
def Tree.readsOf (t : Tree) (x : String) (id : NodeId) : Except Halt (List NodeId) := do
  return (← t.descendants id).filter (t.readsAt x)

theorem Tree.Holds.filter_readsAt {t : Tree} {parent : Option NodeId} {b : Subtree}
    (h : t.Holds parent b) (x : String) : b.ids.filter (t.readsAt x) = b.readsOf x := by
  induction b generalizing parent with
  | node i k p cs ih =>
    have hkind : t.readsAt x i = k.reads x := by
      rw [readsAt, show t.kind i = .ok k from h.kind_eq]
    have hcs : cs.flatMap (fun c => c.ids.filter (t.readsAt x)) = cs.flatMap (Subtree.readsOf x) :=
      List.flatMap_congr fun c hc => ih c hc (h.child c hc)
    rw [ids_node, List.filter_cons, hkind, readsOf_node, List.filter_flatMap, hcs]
    split <;> rfl

theorem Tree.Holds.readsOf_eq {t : Tree} {parent : Option NodeId} {b : Subtree}
    (h : t.Holds parent b) (hn : b.ids.Nodup) (x : String) :
    t.readsOf x b.id = .ok (b.readsOf x) := by
  rw [Tree.readsOf, h.descendants_eq hn]
  exact congrArg Except.ok (h.filter_readsAt x)

theorem Subtree.Rewritten.readsOf_eq {b b' : Subtree} {part part' : Part} {x : String}
    (h : b.Rewritten b') (hb : b.Reads part) (hb' : b'.Reads part')
    (hx : part'.reads x = part.reads x) : b'.readsOf x = b.readsOf x :=
  (h.readsOf_sublist x).eq_of_length (by rw [hb.length_readsOf, hb'.length_readsOf, hx])

/-! ### The methods of the first class -/

theorem Subtree.Rewritten.children {i i' : NodeId} {k k' : Kind} {p p' : Position}
    {cs cs' : List Subtree} (h : (node i k p cs).Rewritten (node i' k' p' cs'))
    (hk : k.isReplaceable = false) : i' = i ∧ List.Forall₂ Subtree.Rewritten cs cs' := by
  cases h with
  | kept below => exact ⟨rfl, below⟩
  | replaced hb _ => cases hk.symm.trans hb

theorem Tree.Pictures.exists_methods {t t' : Tree} {b b' : Subtree} {imports : List String}
    {c c' : ClassDecl} {rest rest' : List ClassDecl} (h : t.Pictures ⟨imports, c :: rest⟩ b)
    (h' : t'.Pictures ⟨imports, c' :: rest'⟩ b') (hr : b.Rewritten b')
    (hfields : c'.fields = c.fields) : ∃ ms ms' : List Subtree,
      t.methodEntries = .ok (ms.filterMap methodEntry?) ∧
      t'.methodEntries = .ok (ms'.filterMap methodEntry?) ∧
      List.Forall₂ Reads ms (c.methods.map .method) ∧
      List.Forall₂ Reads ms' (c'.methods.map .method) ∧
      List.Forall₂ Subtree.Rewritten ms ms' ∧
      (∀ d ∈ ms, d.Within b) ∧ ∀ d ∈ ms', d.Within b' := by
  obtain ⟨r, pos, is, i, p, fs, ms, after, rfl, his, hfs, hms, -⟩ := h.exists_firstClass
  obtain ⟨r', pos', is', i', p', fs', ms', after', rfl, his', hfs', hms', -⟩ :=
    h'.exists_firstClass
  -- imports and fields take the same places in both
  obtain ⟨-, hunits⟩ := hr.children rfl
  obtain ⟨-, htail⟩ := forall₂_of_append hunits (his.length_eq.trans his'.length_eq.symm)
  obtain ⟨-, hmembers⟩ := (List.forall₂_cons.mp htail).1.children rfl
  obtain ⟨-, hmethods⟩ := forall₂_of_append hmembers
    (hfs.length_eq.trans (hfields ▸ hfs'.length_eq.symm))
  exact ⟨ms, ms', h.methodEntries_ok his hfs, h'.methodEntries_ok his' hfs', hms, hms', hmethods,
    fun d hd => .child (List.mem_append_right is List.mem_cons_self)
      (.child (List.mem_append_right fs hd) (.refl d)),
    fun d hd => .child (List.mem_append_right is' List.mem_cons_self)
      (.child (List.mem_append_right fs' hd) (.refl d))⟩

theorem Subtree.Rewritten.methodEntry?_eq {d d' : Subtree} {m : MethodDecl} (h : d.Rewritten d')
    (hd : d.Reads (.method m)) : methodEntry? d' = methodEntry? d := by
  cases h with
  | kept => rfl
  | replaced hk =>
    rw [hd.kind_eq] at hk
    cases hk

theorem filterMap_methodEntry?_rewritten {ms ms' : List Subtree} {methods : List MethodDecl}
    (h : List.Forall₂ Subtree.Rewritten ms ms')
    (hms : List.Forall₂ Reads ms (methods.map .method)) :
    ms'.filterMap methodEntry? = ms.filterMap methodEntry? := by
  induction h generalizing methods with
  | nil => rfl
  | cons hd _ ih =>
    cases methods with
    | nil => cases hms
    | cons m methods =>
      obtain ⟨hm, hrest⟩ := List.forall₂_cons.mp hms
      rw [List.filterMap_cons, List.filterMap_cons, hd.methodEntry?_eq hm, ih hrest]

theorem getElem?_methodEntries {ms : List Subtree} {methods : List MethodDecl}
    (hms : List.Forall₂ Reads ms (methods.map .method)) {k : Nat} {m : MethodDecl}
    (hm : methods[k]? = some m) : ∃ d, ms[k]? = some d ∧ d.Reads (.method m) ∧
      (ms.filterMap methodEntry?)[k]? = some (d.id, m.name) := by
  induction methods generalizing ms k with
  | nil => cases hm
  | cons m₀ methods ih =>
    obtain ⟨d, ms, hd, hrest, rfl⟩ := List.forall₂_cons_right_iff.mp hms
    rw [List.filterMap_cons_some (methodEntry?_method hd)]
    cases k with
    | zero =>
      cases hm
      exact ⟨d, rfl, hd, rfl⟩
    | succ k => exact ih hrest hm

theorem Tree.Pictures.exists_rewritten_method {t t' : Tree} {b b' : Subtree}
    {imports : List String} {c c' : ClassDecl} {rest rest' : List ClassDecl} {k : Nat}
    {m m' : MethodDecl} (h : t.Pictures ⟨imports, c :: rest⟩ b)
    (h' : t'.Pictures ⟨imports, c' :: rest'⟩ b') (hr : b.Rewritten b')
    (hfields : c'.fields = c.fields) (hm : c.methods[k]? = some m)
    (hm' : c'.methods[k]? = some m') : ∃ entries, ∃ d d' : Subtree,
      t.methodEntries = .ok entries ∧ t'.methodEntries = .ok entries ∧
      entries[k]? = some (d.id, m.name) ∧ d'.id = d.id ∧ d.Rewritten d' ∧
      d.Reads (.method m) ∧ d'.Reads (.method m') ∧ d.Within b ∧ d'.Within b' := by
  obtain ⟨ms, ms', hentries, hentries', hms, hms', hmethods, hin, hin'⟩ :=
    h.exists_methods h' hr hfields
  rw [filterMap_methodEntry?_rewritten hmethods hms] at hentries'
  obtain ⟨d, hk, hread, hentry⟩ := getElem?_methodEntries hms hm
  obtain ⟨d', hk', hread', -⟩ := getElem?_methodEntries hms' hm'
  have hd : d.Rewritten d' := by
    rcases forall₂_getElem? hmethods k with ⟨hnone, -⟩ | ⟨a, a', ha, ha', hrel⟩
    · cases hnone.symm.trans hk
    · cases ha.symm.trans hk
      cases ha'.symm.trans hk'
      exact hrel
  have hsame := hd.methodEntry?_eq hread
  rw [methodEntry?_method hread, methodEntry?_method hread'] at hsame
  exact ⟨_, d, d', hentries, hentries', hentry, congrArg Prod.fst (Option.some.inj hsame), hd,
    hread, hread', hin d (List.mem_of_getElem? hk), hin' d' (List.mem_of_getElem? hk')⟩

/-! ### Names that stay unknown -/

/-- The method assigns the name somewhere inside a conditional or a loop. -/
def MethodDecl.AssignsInBranch (m : MethodDecl) (x : String) : Prop :=
  ∃ (branch : Stmt) (value : Expr), (branch.kind = .ifStmt ∨ branch.kind = .whileStmt) ∧
    (Part.stmt branch).Inside (.method m) ∧ (Part.stmt (.assign x value)).Inside (.stmt branch)

namespace Part

variable {x : String} {value : Expr} {part whole : Part}

theorem mem_assigned_of_part (hp : part ∈ whole.parts) (hx : x ∈ part.assigned) :
    x ∈ whole.assigned := by
  have hmem : x ∈ whole.parts.flatMap assigned := List.mem_flatMap.mpr ⟨part, hp, hx⟩
  rw [assigned_eq]
  split
  · exact List.mem_cons_of_mem _ hmem
  · exact hmem

theorem mem_assigned_of_inside (h : (stmt (.assign x value)).Inside part) : x ∈ part.assigned := by
  generalize ha : stmt (.assign x value) = a at h
  induction h with
  | refl => exact ha ▸ List.mem_singleton_self x
  | part hc _ ih => exact mem_assigned_of_part hc ih

theorem mem_branchAssigned_of_inside {branch : Stmt}
    (hk : branch.kind = .ifStmt ∨ branch.kind = .whileStmt)
    (hx : (stmt (.assign x value)).Inside (stmt branch)) (h : (stmt branch).Inside part) :
    x ∈ part.branchAssigned := by
  generalize hs : stmt branch = s at h
  induction h with
  | refl =>
    subst hs
    have hmem := mem_assigned_of_inside hx
    cases branch <;> first | exact hmem | (rcases hk with hk | hk <;> cases hk)
  | @part whole inner hc hin ih =>
    rw [branchAssigned_eq]
    have hassigned : x ∈ whole.parts.flatMap assigned :=
      List.mem_flatMap.mpr ⟨inner, hc, mem_assigned_of_inside (hx.trans (hs ▸ hin))⟩
    have hbranch : x ∈ whole.parts.flatMap branchAssigned := List.mem_flatMap.mpr ⟨inner, hc, ih⟩
    split
    · exact hassigned
    · exact hassigned
    · exact hbranch

end Part

theorem Signature.names_ofDecl (m : MethodDecl) :
    ((ofDecl m).params ++ (ofDecl m).locals).map (·.name) = (m.params ++ m.locals).map (·.1) := by
  simp [ofDecl, Function.comp_def, Symbol.ofDecl]

theorem propagates_ofDecl (m : MethodDecl) (x : String) :
    (tracking (.ofDecl m) m.body).propagates x
      = (((m.params ++ m.locals).map (·.1)).contains x
        && !(Stmt.branchAssignedInAll m.body).contains x) := by
  rw [tracking, Tracking.propagates_ofNames, Signature.names_ofDecl]

theorem propagates_eq_false {m : MethodDecl} {x : String}
    (h : m.AssignsInBranch x ∨ x ∉ (m.params ++ m.locals).map (·.1)) :
    (tracking (.ofDecl m) m.body).propagates x = false := by
  rw [propagates_ofDecl, Bool.and_eq_false_iff]
  rcases h with ⟨branch, value, hk, hbranch, hx⟩ | hx
  · have hmem : x ∈ Stmt.branchAssignedInAll m.body :=
      Part.mem_branchAssigned_of_inside hk hx hbranch
    exact .inr (by rw [List.contains_iff_mem.mpr hmem]; rfl)
  · exact .inl (by rwa [← Bool.not_eq_true, List.contains_iff_mem])

theorem MethodDecl.reads_normalize {m : MethodDecl} {x : String} {s : Signature}
    (h : (tracking s m.body).propagates x = false) :
    (Part.method (m.normalize s)).reads x = (Part.method m).reads x :=
  (Stmt.readsInAll_normalizeAll (fun stmt _ => stmt.reads_normalize h) rfl
    fun _ _ h => by cases h).1

/-- **Reads of names that stay unknown stay where they are.**  The tree of a program with a class
has a symbol table, and the optimizer comes to an end on it.  For every method of the first class
and every name that the method assigns inside a conditional or a loop, or that is no parameter or
local variable of it, the nodes of the method that read the name are the same before and after. -/
theorem optimize_keeps_reads (imports : List String) (c : ClassDecl) (rest : List ClassDecl)
    {k : Nat} {m : MethodDecl} (hm : c.methods[k]? = some m) {x : String}
    (hx : m.AssignsInBranch x ∨ x ∉ (m.params ++ m.locals).map (·.1)) :
    ∃ table reports stats t' entries id ids,
      (Program.mk imports (c :: rest)).build.symbolTable = .ok (table, reports) ∧
      optimize table (Program.mk imports (c :: rest)).build = (.ok stats, t') ∧
      (Program.mk imports (c :: rest)).build.methodEntries = .ok entries ∧
      t'.methodEntries = .ok entries ∧ entries[k]? = some (id, m.name) ∧
      (Program.mk imports (c :: rest)).build.readsOf x id = .ok ids ∧
      t'.readsOf x id = .ok ids := by
  obtain ⟨b, hb⟩ := (Program.mk imports (c :: rest)).pictures_build
  obtain ⟨reports, htable⟩ := hb.symbolTable_ok
  have hnames : NamedAlike (SymbolTable.ofDecls imports c).signatures c.methods :=
    namedAlike_ofDecl c.methods
  obtain ⟨stats, t', b', rest', hrun, hb'⟩ := optimize_normalizes hb hnames
  have hsound := (Program.mk imports (c :: rest)).sound_build
  obtain ⟨-, hrewritten⟩ := (rewrites_of_optimize hrun hsound).sound_rewritten hsound
  have hid : b'.id = b.id := by rw [hb.root, hb'.root, hrewritten.root_eq]
  have hm' : (c.normalize (SymbolTable.ofDecls imports c).signatures).methods[k]?
      = some (m.normalize (.ofDecl m)) := by
    simp [ClassDecl.normalize, SymbolTable.ofDecls, List.getElem?_zipWith, hm]
  obtain ⟨entries, d, d', hentries, hentries', hentry, hsame, hd, hread, hread', hin, hin'⟩ :=
    hb.exists_rewritten_method hb' (hrewritten.subtree hb.holds hb'.holds hid) rfl hm hm'
  obtain ⟨above, hholds⟩ := hb.holds.within hin
  obtain ⟨above', hholds'⟩ := hb'.holds.within hin'
  have hreads := hd.readsOf_eq hread hread' (MethodDecl.reads_normalize (propagates_eq_false hx))
  refine ⟨_, reports, stats, t', entries, d.id, d.readsOf x, htable, hrun, hentries, hentries',
    hentry, hholds.readsOf_eq (hin.nodup hb.nodup) x, ?_⟩
  rw [← hsame, hholds'.readsOf_eq (hin'.nodup hb'.nodup) x, hreads]

/-- The loop of `countingMethod`. -/
def countingLoop : Stmt :=
  .whileDo (.binary .lt (.var "i") (.var "n"))
    (.block [.assign "i" (.binary .add (.var "i") (.int 1))])

/-- A method that sets its variable before, in and behind a loop. -/
def countingMethod : MethodDecl where
  name := "count"
  isPublic := true
  isStatic := false
  returnType := some ⟨"int", false, false⟩
  params := [("n", ⟨"int", false, false⟩)]
  locals := [("i", ⟨"int", false, false⟩)]
  body := [.assign "i" (.int 0), countingLoop, .assign "i" (.int 7), .ret (some (.var "i"))]

/-- The class of `countingMethod`. -/
def countingClass : ClassDecl where
  name := "Counter"
  superclass := none
  fields := []
  methods := [countingMethod]

theorem countingMethod_assignsInBranch : countingMethod.AssignsInBranch "i" :=
  ⟨countingLoop, .binary .add (.var "i") (.int 1), .inr rfl,
    .of_mem (by simp [Part.parts, MethodDecl.parts, countingMethod]),
    .part (.tail _ (.head _)) (.of_mem (.head _))⟩

theorem counting_keeps_reads : countingMethod.AssignsInBranch "i" ∧
    ∃ table reports stats t' entries id ids,
      (Program.mk [] [countingClass]).build.symbolTable = .ok (table, reports) ∧
      optimize table (Program.mk [] [countingClass]).build = (.ok stats, t') ∧
      (Program.mk [] [countingClass]).build.methodEntries = .ok entries ∧
      t'.methodEntries = .ok entries ∧ entries[0]? = some (id, "count") ∧
      (Program.mk [] [countingClass]).build.readsOf "i" id = .ok ids ∧
      t'.readsOf "i" id = .ok ids :=
  ⟨countingMethod_assignsInBranch,
    optimize_keeps_reads [] countingClass [] rfl (.inl countingMethod_assignsInBranch)⟩

end Classlet
