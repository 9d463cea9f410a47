import Classlet.Proofs.Analysis.FailFast

/-!
# The checks of a walk

A walk over the tree of a program with one class visits every node once: those inside the `k`-th
method in the scope of the `k`-th signature, the others in the scope of the class (`steps_units`).
So what can be said of a sequence of checks by saying it of each of them can be said of a run by
saying it of every visit (`run_iff`).
-/

namespace Classlet

open Subtree

theorem Check.Stepwise.inTurn_iff {P : Check Unit → Prop} (hP : Stepwise P)
    {cs : List (Check Unit)} : P (inTurn cs) ↔ ∀ c ∈ cs, P c := by
  induction cs with
  | nil => exact iff_of_true hP.pure (List.forall_mem_nil _)
  | cons c cs ih => rw [inTurn, hP.bind_iff, ih, List.forall_mem_cons]

namespace Pass

variable {P : Check Unit → Prop} {pass : Pass} {t : Tree} {scope : Scope}

/-! ### Below a method -/

theorem steps_node (i : NodeId) (k : Kind) (p : Position) (cs : List Subtree) :
    pass.steps t scope (node i k p cs).toShape = pass.visit t scope (node i k p cs).toShape
      :: pass.stepsOfAll t scope 0 (cs.map fun c _ => c.toShape) := by
  rw [toShape_node, steps]

theorem stepsOfAll_cons {c : Subtree} (hc : c.kind.isMethod = false) (index : Nat) (rest : Shapes) :
    pass.stepsOfAll t scope index ((fun _ => c.toShape) :: rest)
      = pass.steps t scope c.toShape ++ pass.stepsOfAll t scope index rest := by
  obtain ⟨i, k, p, cs⟩ := c
  rw [stepsOfAll, toShape_node]
  cases k with
  | methodDecl => cases hc
  | _ => rfl

theorem stepsOfAll_append {cs : List Subtree} (hcs : ∀ c ∈ cs, c.kind.isMethod = false)
    (index : Nat) (rest : List Subtree) :
    pass.stepsOfAll t scope index ((cs ++ rest).map fun c _ => c.toShape)
      = cs.flatMap (fun c => pass.steps t scope c.toShape)
        ++ pass.stepsOfAll t scope index (rest.map fun c _ => c.toShape) := by
  induction cs with
  | nil => rfl
  | cons c cs ih =>
    rw [List.forall_mem_cons] at hcs
    rw [List.cons_append, List.map_cons, stepsOfAll_cons hcs.1, ih hcs.2, List.flatMap_cons,
      List.append_assoc]

theorem stepsOfAll_flat {cs : List Subtree} (hcs : ∀ c ∈ cs, c.kind.isMethod = false)
    (index : Nat) : pass.stepsOfAll t scope index (cs.map fun c _ => c.toShape)
      = cs.flatMap fun c => pass.steps t scope c.toShape := by
  have happend := @stepsOfAll_append pass t scope cs hcs index []
  rwa [List.append_nil, List.map_nil, stepsOfAll, List.append_nil] at happend

/-- **Where no method is below**, the nodes are visited in pre-order in the same scope. -/
theorem steps_flat {b : Subtree} {part : Part} (hb : b.Reads part)
    (hflat : ∀ inner ∈ part.parts, inner.isFlat = true) :
    pass.steps t scope b.toShape = b.subtrees.map fun d => pass.visit t scope d.toShape := by
  induction b generalizing part with
  | node i k p cs ih =>
    obtain ⟨-, hcs⟩ := reads_node_iff.mp hb
    have hinner : ∀ c ∈ cs, ∃ inner, c.Reads inner ∧ inner.isFlat = true := by
      intro c hc
      obtain ⟨inner, hi, hread⟩ := forall₂_of_mem_left hcs hc
      exact ⟨inner, hread, hflat inner hi⟩
    have hkind : ∀ c ∈ cs, c.kind.isMethod = false := by
      intro c hc
      obtain ⟨inner, hread, hi⟩ := hinner c hc
      rw [hread.kind_eq]
      exact Part.isMethod_kind_of_isFlat hi
    have hsteps : ∀ c ∈ cs, pass.steps t scope c.toShape
        = c.subtrees.map fun d => pass.visit t scope d.toShape := by
      intro c hc
      obtain ⟨inner, hread, hi⟩ := hinner c hc
      exact ih c hc hread fun _ hmem => Part.isFlat_of_mem hi hmem
    rw [steps_node, stepsOfAll_flat hkind, List.flatMap_congr hsteps, subtrees_node, List.map_cons,
      List.map_flatMap]

theorem walk_iff (hP : Check.Stepwise P) {b : Subtree} {part : Part} (hb : b.Reads part)
    (hflat : ∀ inner ∈ part.parts, inner.isFlat = true) :
    P (pass.walk t scope b.toShape) ↔
      ∀ d : Subtree, d.Within b → P (pass.visit t scope d.toShape) := by
  rw [walk_eq, hP.inTurn_iff, steps_flat hb hflat, List.forall_mem_map]
  simp only [mem_subtrees]

/-- The methods come in order, each in the scope of its signature. -/
theorem stepsOfAll_methods {todo : List Subtree} {methods : List MethodDecl}
    {signatures : List Signature} (index : Nat)
    (htodo : List.Forall₂ Reads todo (methods.map .method)) (hnames : NamedAlike signatures methods)
    (hdrop : scope.table.signatures.drop index = signatures) :
    pass.stepsOfAll t scope index (todo.map fun c _ => c.toShape)
      = (signatures.zip todo).flatMap fun q =>
        pass.steps t { scope with method := some q.1 } q.2.toShape := by
  induction hnames generalizing todo index with
  | nil =>
    cases htodo
    rfl
  | @cons s m signatures methods hname _ ih =>
    obtain ⟨c, todo, hc, hothers, rfl⟩ := List.forall₂_cons_right_iff.mp htodo
    obtain ⟨i, p, cs, rfl, -⟩ := reads_iff.mp hc
    have hs : scope.table.signatures[index]? = some s := by
      rw [← List.head?_drop, hdrop, List.head?_cons]
    have henter : scope.enter index m.name = .ok { scope with method := some s } := by
      rw [Scope.enter, ← hname, SymbolTable.declared_ok hs]
      rfl
    have hnext : scope.table.signatures.drop (index + 1) = signatures := by
      rw [← List.drop_drop, hdrop, List.drop_one, List.tail_cons]
    rw [List.map_cons, stepsOfAll, toShape_node]
    simp only [Shape.kind, Part.kind, pure, Except.pure, henter]
    rw [ih (index + 1) hothers hnext, List.zip_cons_cons, List.flatMap_cons, toShape_node]

end Pass

/-! ### A whole tree -/

/-- The visit of a subtree, and the method in whose scope it is. -/
abbrev Visit := Subtree × Option Signature

/-- The visits below some subtrees, all in the scope of one method or of none. -/
def Subtree.visits (method : Option Signature) (bs : List Subtree) : List Visit :=
  (bs.flatMap subtrees).map (·, method)

/-- The visits of a program with the given root and class: the imports and the class with its fields
outside all methods, then the methods of the class each inside itself. -/
def Subtree.visitsOfUnits (root cls : Subtree) (is fs ms : List Subtree)
    (signatures : List Signature) : List Visit :=
  ((root, none) :: visits none is) ++ ((cls, none) :: visits none fs)
    ++ (signatures.zip ms).flatMap fun q => visits (some q.1) [q.2]

theorem Subtree.mem_visits {method : Option Signature} {bs : List Subtree} {v : Visit} :
    v ∈ visits method bs ↔ (∃ b ∈ bs, v.1.Within b) ∧ v.2 = method := by
  obtain ⟨d, s⟩ := v
  simp only [visits, List.mem_map, List.mem_flatMap, mem_subtrees, Prod.mk.injEq]
  constructor
  · rintro ⟨_, hd, rfl, rfl⟩
    exact ⟨hd, rfl⟩
  · rintro ⟨hd, rfl⟩
    exact ⟨d, hd, rfl, rfl⟩

theorem Subtree.forall_mem_visits {method : Option Signature} {bs : List Subtree}
    {Q : Visit → Prop} :
    (∀ v ∈ visits method bs, Q v) ↔ ∀ b ∈ bs, ∀ d : Subtree, d.Within b → Q (d, method) := by
  simp only [visits, List.forall_mem_map, List.forall_mem_flatMap, mem_subtrees]

theorem Subtree.map_fst_visits (method : Option Signature) (bs : List Subtree) :
    (visits method bs).map Prod.fst = bs.flatMap subtrees := by
  rw [visits, List.map_map]
  exact List.map_id _

/-- The visits of a program are those of its subtrees in pre-order. -/
theorem Subtree.map_fst_visitsOfUnits {r i : NodeId} {k k' : Kind} {pos p : Position}
    {is fs ms : List Subtree} {signatures : List Signature} (hlen : signatures.length = ms.length) :
    (visitsOfUnits (node r k pos (is ++ [node i k' p (fs ++ ms)])) (node i k' p (fs ++ ms)) is fs ms
      signatures).map Prod.fst = (node r k pos (is ++ [node i k' p (fs ++ ms)])).subtrees := by
  have hms : ((signatures.zip ms).flatMap fun q => (visits (some q.1) [q.2]).map Prod.fst)
      = ms.flatMap subtrees := by
    simp only [map_fst_visits, List.flatMap_cons, List.flatMap_nil, List.append_nil]
    rw [← List.flatMap_map (f := Prod.snd) (g := subtrees),
      List.map_snd_zip (Nat.le_of_eq hlen.symm)]
  rw [visitsOfUnits, List.map_append, List.map_append, List.map_cons, List.map_cons, map_fst_visits,
    map_fst_visits, List.map_flatMap, hms, subtrees_node, List.flatMap_append,
    List.flatMap_singleton, subtrees_node, List.flatMap_append]
  simp

namespace Pass

section Units

variable {P : Check Unit → Prop} {pass : Pass} {t : Tree} {table : SymbolTable}
  {policy : ExternalPolicy} {imports : List String} {c : ClassDecl} {r i : NodeId}
  {pos p : Position} {is fs ms : List Subtree}

theorem flatMap_steps {method : Option Signature} {bs : List Subtree}
    (h : ∀ b ∈ bs, pass.steps t ⟨table, method, policy⟩ b.toShape
      = b.subtrees.map fun d => pass.visit t ⟨table, method, policy⟩ d.toShape) :
    bs.flatMap (fun b => pass.steps t ⟨table, method, policy⟩ b.toShape)
      = (visits method bs).map fun v => pass.visit t ⟨table, v.2, policy⟩ v.1.toShape := by
  rw [List.flatMap_congr h, visits, List.map_map, List.map_flatMap]
  rfl

/-- **The checks of a walk over a program with one class.** -/
theorem steps_units (his : List.Forall₂ Reads is (imports.map .importDecl))
    (hfs : List.Forall₂ Reads fs (c.fields.map .varDecl))
    (hms : List.Forall₂ Reads ms (c.methods.map .method))
    (hnames : NamedAlike table.signatures c.methods) :
    pass.steps t (.ofTable table policy) (node r .program pos
        (is ++ [node i (.classDecl c.name c.superclass) p (fs ++ ms)])).toShape
      = (visitsOfUnits (node r .program pos
          (is ++ [node i (.classDecl c.name c.superclass) p (fs ++ ms)]))
          (node i (.classDecl c.name c.superclass) p (fs ++ ms)) is fs ms table.signatures).map
        fun v => pass.visit t ⟨table, v.2, policy⟩ v.1.toShape := by
  -- each import, each field and each method is walked in one scope
  have himports : ∀ d ∈ is, d.kind.isMethod = false ∧
      pass.steps t ⟨table, none, policy⟩ d.toShape
        = d.subtrees.map fun e => pass.visit t ⟨table, none, policy⟩ e.toShape := by
    intro d hd
    obtain ⟨part, hpart, hread⟩ := forall₂_of_mem_left his hd
    obtain ⟨dotted, -, rfl⟩ := List.mem_map.mp hpart
    exact ⟨by rw [hread.kind_eq]; rfl, steps_flat hread (List.forall_mem_nil _)⟩
  have hfields : ∀ f ∈ fs, f.kind.isMethod = false ∧
      pass.steps t ⟨table, none, policy⟩ f.toShape
        = f.subtrees.map fun e => pass.visit t ⟨table, none, policy⟩ e.toShape := by
    intro f hf
    obtain ⟨part, hpart, hread⟩ := forall₂_of_mem_left hfs hf
    obtain ⟨decl, -, rfl⟩ := List.mem_map.mp hpart
    exact ⟨by rw [hread.kind_eq]; rfl, steps_flat hread fun _ hi => Part.isFlat_of_mem rfl hi⟩
  have hmethods : ∀ q ∈ table.signatures.zip ms,
      pass.steps t ⟨table, some q.1, policy⟩ q.2.toShape
        = (visits (some q.1) [q.2]).map fun v =>
          pass.visit t ⟨table, v.2, policy⟩ v.1.toShape := by
    intro q hq
    obtain ⟨part, hpart, hread⟩ := forall₂_of_mem_left hms (List.of_mem_zip hq).2
    obtain ⟨m, -, rfl⟩ := List.mem_map.mp hpart
    rw [← flatMap_steps (List.forall_mem_singleton.mpr (steps_flat hread
      fun _ hi => MethodDecl.isFlat_of_mem_parts hi)), List.flatMap_singleton]
  have hone : ∀ d ∈ [node i (.classDecl c.name c.superclass) p (fs ++ ms)],
      d.kind.isMethod = false := List.forall_mem_singleton.mpr rfl
  have hbelow : pass.stepsOfAll t ⟨table, none, policy⟩ 0 (ms.map fun m _ => m.toShape)
      = (table.signatures.zip ms).flatMap fun q =>
        pass.steps t ⟨table, some q.1, policy⟩ q.2.toShape :=
    stepsOfAll_methods 0 hms hnames List.drop_zero
  rw [Scope.ofTable, steps_node, stepsOfAll_append fun d hd => (himports d hd).1,
    flatMap_steps fun d hd => (himports d hd).2, stepsOfAll_flat hone, List.flatMap_singleton,
    steps_node, stepsOfAll_append fun f hf => (hfields f hf).1,
    flatMap_steps fun f hf => (hfields f hf).2, hbelow, List.flatMap_congr hmethods, visitsOfUnits,
    List.map_append, List.map_append, List.map_cons, List.map_cons, List.map_flatMap]
  simp only [List.cons_append, List.append_assoc]

/-- **A run visits every node of a program with one class**: those inside a method in its scope. -/
theorem run_iff (hP : Check.Stepwise P)
    (h : t.Pictures ⟨imports, [c]⟩ (node r .program pos
      (is ++ [node i (.classDecl c.name c.superclass) p (fs ++ ms)])))
    (his : List.Forall₂ Reads is (imports.map .importDecl))
    (hfs : List.Forall₂ Reads fs (c.fields.map .varDecl))
    (hms : List.Forall₂ Reads ms (c.methods.map .method))
    (hnames : NamedAlike table.signatures c.methods) :
    P (pass.run t (.ofTable table policy)) ↔
      P (pass.visit t (.ofTable table policy) (node r .program pos
        (is ++ [node i (.classDecl c.name c.superclass) p (fs ++ ms)])).toShape) ∧
      (∀ d ∈ is, P (pass.visit t (.ofTable table policy) d.toShape)) ∧
      P (pass.visit t (.ofTable table policy)
        (node i (.classDecl c.name c.superclass) p (fs ++ ms)).toShape) ∧
      (∀ f ∈ fs, ∀ d : Subtree, d.Within f → P (pass.visit t (.ofTable table policy) d.toShape)) ∧
      (∀ q ∈ table.signatures.zip ms, ∀ d : Subtree, d.Within q.2 →
        P (pass.visit t ⟨table, some q.1, policy⟩ d.toShape)) ∧
      P (pass.finish (.ofTable table policy)) := by
  have hshape := h.holds.shape_eq h.nodup
  rw [h.root] at hshape
  -- an import has nothing below it
  have hleaf : ∀ d ∈ is, (∀ e : Subtree, e.Within d →
      P (pass.visit t (.ofTable table policy) e.toShape)) ↔
        P (pass.visit t (.ofTable table policy) d.toShape) := by
    intro d hd
    obtain ⟨part, hpart, hread⟩ := forall₂_of_mem_left his hd
    obtain ⟨dotted, -, rfl⟩ := List.mem_map.mp hpart
    obtain ⟨j, q, cs, rfl, hcs⟩ := reads_iff.mp hread
    cases hcs
    refine ⟨fun hall => hall _ (.refl _), fun hone e he => ?_⟩
    cases he with
    | refl => exact hone
    | child hc => cases hc
  rw [run_eq, hP.inTurn_iff, checks, hshape, steps_units his hfs hms hnames,
    List.forall_mem_append, List.forall_mem_singleton, List.forall_mem_map, visitsOfUnits,
    List.forall_mem_append, List.forall_mem_append, List.forall_mem_cons, List.forall_mem_cons,
    forall_mem_visits, forall_mem_visits, List.forall_mem_flatMap, ← forall₂_congr hleaf]
  simp only [forall_mem_visits, List.forall_mem_singleton, Scope.ofTable, and_assoc]

end Units

end Pass

end Classlet
