import Classlet.Proofs.Analysis.Acceptance
import Classlet.Proofs.Syntax.Links

/-!
# The analysis of further classes

A pass walks over the whole tree, so also over the classes behind the first one, and judges these
with the names of the first one.  What it finds in the first class does not depend on the others: it
looks at the node it visits, and at links that stay when classes are appended (`slot?_eq`).  So a
run over more classes is the run over the first one with a walk over the others put in before its
end (`Program.run_further`).

* `analyzeWith_further`: where the passes accept the further classes, these change no report; where
  they do not, there is a report.
-/

namespace Classlet

open Subtree

/-! ### What a pass asks about the tree -/

section Links

variable {t t' : Tree} {above : NodeId} {bs : List Subtree} {i : NodeId}

namespace Tree.Appends

theorem kind_eq (h : Appends above t t' bs) (hi : i < t.size) : t'.kind i = t.kind i := by
  rw [kind, kind, Tree.node, Tree.node, h.nodes_eq i hi, Array.getElem?_eq_getElem hi]
  rfl

theorem parent_eq (h : Appends above t t' bs) (hi : i < t.size) : t'.parent i = t.parent i := by
  rw [parent, parent, Tree.node, Tree.node, h.nodes_eq i hi, Array.getElem?_eq_getElem hi]
  rfl

theorem children_eq (h : Appends above t t' bs) (hi : i < t.size) (hne : i ≠ above) :
    t'.children i = t.children i := by
  rw [children, children, Tree.node, Tree.node, h.nodes_eq i hi, Array.getElem?_eq_getElem hi]
  simp only [if_neg hne, Option.map_some]

end Tree.Appends

theorem Tree.WellLinked.exists_kind_eq {up : Option NodeId} {k : Kind} {p : Position}
    {cs : List Subtree} {n : Node} (h : t.WellLinked) (hb : t.Holds up (.node above k p cs))
    (hn : t.nodes[i]? = some n) (hparent : n.parent = some above) :
    ∃ c ∈ cs, c.kind = n.kind := by
  obtain ⟨m, hm, hcount⟩ := h.listed hn hparent
  cases hb.here.symm.trans hm
  obtain ⟨⟨j, l, q, ds⟩, hc, rfl⟩ := List.mem_map.mp
    (List.count_pos_iff.mp (Nat.lt_of_lt_of_eq Nat.one_pos hcount.symm))
  cases (hb.child _ hc).here.symm.trans hn
  exact ⟨_, hc, rfl⟩

namespace WrittenTypes

theorem firstParam?_congr {ids : List NodeId} (h : ∀ i ∈ ids, t'.kind i = t.kind i) :
    firstParam? t' ids = firstParam? t ids := by
  induction ids with
  | nil => rfl
  | cons i ids ih =>
    rw [List.forall_mem_cons] at h
    rw [firstParam?, firstParam?, h.1, ih h.2]

/-- **Appended children leave written types in their slots**, unless they are appended to a node that
has parameters. -/
theorem slot?_eq (h : t.Appends above t' bs) (ht : t.WellLinked)
    (hparam : ∀ {i : NodeId} {n : Node}, t.nodes[i]? = some n → n.parent = some above →
      n.kind.paramName? = none) (hi : i < t.size) : slot? t' i = slot? t i := by
  have hlt : ∀ {i n}, t.nodes[i]? = some n → i < t.size := fun hn =>
    (Array.getElem?_eq_some_iff.mp hn).1
  rw [slot?, slot?, h.parent_eq hi, Tree.parent_eq_ok (Array.getElem?_eq_getElem hi)]
  rcases hdecl : t.nodes[i].parent with _ | decl
  · rfl
  obtain ⟨m, hm, -⟩ := ht.listed (Array.getElem?_eq_getElem hi) hdecl
  simp only [bind, Except.bind, h.kind_eq (hlt hm), h.parent_eq (hlt hm),
    Tree.kind_eq_ok hm, Tree.parent_eq_ok hm]
  rcases howner : m.parent with _ | owner
  · rfl
  obtain ⟨o, ho, -⟩ := ht.listed hm howner
  cases hm' : m.kind with
  | param name =>
    -- the parameters around it are those from before
    have hne : owner ≠ above := by
      rintro rfl
      have hnone := hparam hm howner
      rw [hm'] at hnone
      cases hnone
    have hfirst : firstParam? t' o.children.reverse = firstParam? t o.children.reverse := by
      refine firstParam?_congr fun c hc => h.kind_eq ?_
      obtain ⟨n, hn, -⟩ := ht.parent_eq ⟨o, ho, List.mem_reverse.mp hc⟩
      exact hlt hn
    simp only [h.children_eq (hlt ho) hne, Tree.children_eq_ok ho, hfirst]
  | varDecl name => simp only [h.kind_eq (hlt ho)]
  | _ => rfl

end WrittenTypes

end Links

/-! ### Walks over the same subtree of two trees -/

namespace Pass

variable {pass : Pass} {t t' : Tree}

/-- The standard passes ask about the tree only in which slot a written type stands. -/
theorem visit_eq_of_slot? (hpass : pass ∈ standard) (scope : Scope) {s : Shape}
    (h : WrittenTypes.slot? t' s.id = WrittenTypes.slot? t s.id) :
    pass.visit t' scope s = pass.visit t scope s := by
  simp only [standard, List.mem_cons, List.not_mem_nil, or_false] at hpass
  rcases hpass with rfl | rfl | rfl | rfl | rfl | rfl | rfl | rfl | rfl <;> try rfl
  simp only [WrittenTypes.declarationPass, h]

theorem visit_program (hpass : pass ∈ standard) (t : Tree) (scope : Scope) (i : NodeId)
    (p : Position) (children : Shapes) :
    pass.visit t scope (.node i .program p children) = pure () := by
  simp only [standard, List.mem_cons, List.not_mem_nil, or_false] at hpass
  rcases hpass with rfl | rfl | rfl | rfl | rfl | rfl | rfl | rfl | rfl <;> rfl

theorem walkChildren_congr {children : Shapes} {scope : Scope} (index : Nat)
    (h : ∀ c ∈ children, ∀ scope, pass.walk t' scope (c ()) = pass.walk t scope (c ())) :
    pass.walkChildren t' scope index children = pass.walkChildren t scope index children := by
  induction children generalizing index with
  | nil => rfl
  | cons s rest ih =>
    rw [List.forall_mem_cons] at h
    simp only [walkChildren, h.1, ih _ h.2]

theorem walk_congr {b : Subtree} (h : ∀ (s : Shape) (scope : Scope), s.id ∈ b.ids →
    pass.visit t' scope s = pass.visit t scope s) (scope : Scope) :
    pass.walk t' scope b.toShape = pass.walk t scope b.toShape := by
  induction b generalizing scope with
  | node i k p cs ih =>
    rw [walk_node, walk_node, h _ _ (id_toShape _ ▸ id_mem_ids _)]
    congr 1
    funext _
    refine walkChildren_congr 0 fun c hc scope => ?_
    obtain ⟨b, hb, rfl⟩ := List.mem_map.mp hc
    exact ih b hb (fun s scope hs => h s scope (mem_ids_of_child hb hs)) scope

theorem run_program (hpass : pass ∈ standard) {p : Program} {i : NodeId} {pos : Position}
    {cs : List Subtree} (h : t.Pictures p (.node i .program pos cs)) (scope : Scope) :
    pass.run t scope = (pass.walkChildren t scope 0 (cs.map fun c _ => c.toShape)
      >>= fun _ => pass.finish scope) := by
  rw [run, ← h.root, h.holds.shape_eq h.nodup, walk_node, toShape_node, visit_program hpass,
    pure_bind]

end Pass

/-! ### A run over more classes -/

/-- The shapes behind the first class. -/
def Shape.behindFirstClass : Shapes → Shapes
  | [] => []
  | s :: rest =>
    match s () with
    | .node _ (.classDecl _ _) _ _ => rest
    | _ => behindFirstClass rest

theorem Shape.behindFirstClass_ok {imports : List String} {is rest : List Subtree} {c : ClassDecl}
    {b : Subtree} (his : List.Forall₂ Reads is (imports.map .importDecl))
    (hb : b.Reads (.classDecl c)) :
    behindFirstClass ((is ++ b :: rest).map fun c _ => c.toShape)
      = rest.map fun c _ => c.toShape := by
  rw [List.forall₂_map_right_iff] at his
  induction his with
  | nil =>
    obtain ⟨i, p, cs, rfl, -⟩ := reads_iff.mp hb
    rw [List.nil_append, List.map_cons, behindFirstClass, toShape_node]
    rfl
  | cons hi _ ih =>
    obtain ⟨i, p, cs, rfl, -⟩ := reads_iff.mp hi
    rw [List.cons_append, List.map_cons, behindFirstClass, toShape_node]
    exact ih

/-- Walks over what is behind the first class of a tree. -/
def Pass.walkFurther (pass : Pass) (t : Tree) (scope : Scope) : Check Unit := do
  pass.walkChildren t scope 0 (Shape.behindFirstClass (← Check.lift (t.shape t.root).children))

theorem Program.kind_of_mem_units {p : Program} {as : List Subtree}
    (h : List.Forall₂ Reads as (Part.program p).parts) {a : Subtree} (ha : a ∈ as) :
    a.kind.isMethod = false ∧ a.kind.paramName? = none := by
  obtain ⟨part, hpart, hread⟩ := forall₂_of_mem_left h ha
  rw [hread.kind_eq]
  simp only [Part.parts, parts, List.mem_append, List.mem_map] at hpart
  rcases hpart with ⟨_, -, rfl⟩ | ⟨_, -, rfl⟩ <;> exact ⟨rfl, rfl⟩

/-- **A run over more classes** is the run over the first one, with a walk over the others before its
end. -/
theorem Program.run_further (imports : List String) (c : ClassDecl) (rest : List ClassDecl)
    {pass : Pass} (hpass : pass ∈ Pass.standard) (scope : Scope) :
    ∃ first : Check Unit,
      pass.run (mk imports [c]).build scope = (first >>= fun _ => pass.finish scope) ∧
      pass.run (mk imports (c :: rest)).build scope
        = (first >>= fun _ => pass.walkFurther (mk imports (c :: rest)).build scope
          >>= fun _ => pass.finish scope) := by
  obtain ⟨as, bs, happends, -, h, h'⟩ := pictures_further imports [c] rest
  obtain ⟨-, has⟩ := reads_node_iff.mp h.reads
  have hlinked := (mk imports [c]).wellLinked_build
  have hkinds := fun a ha => kind_of_mem_units has (a := a) ha
  have hparam : ∀ {i : NodeId} {n : Node}, (mk imports [c]).build.nodes[i]? = some n →
      n.parent = some 0 → n.kind.paramName? = none := by
    intro i n hn hparent
    obtain ⟨a, ha, hkind⟩ := hlinked.exists_kind_eq h.holds hn hparent
    exact hkind ▸ (hkinds a ha).2
  have hwalk : pass.walkChildren (mk imports ([c] ++ rest)).build scope 0
        (as.map fun a _ => a.toShape)
      = pass.walkChildren (mk imports [c]).build scope 0 (as.map fun a _ => a.toShape) := by
    refine Pass.walkChildren_congr 0 fun s hs scope => ?_
    obtain ⟨a, ha, rfl⟩ := List.mem_map.mp hs
    exact Pass.walk_congr (fun s scope hs => Pass.visit_eq_of_slot? hpass scope
      (WrittenTypes.slot?_eq happends hlinked hparam ((h.holds.child a ha).lt_size hs))) scope
  have hfurther : pass.walkFurther (mk imports ([c] ++ rest)).build scope
      = pass.walkChildren (mk imports ([c] ++ rest)).build scope 0 (bs.map fun b _ => b.toShape) := by
    obtain ⟨is, ks, rfl, his, hks⟩ := forall₂_append_inv has
    obtain ⟨k, rfl, hk⟩ := forall₂_one hks
    rw [Pass.walkFurther, h'.children_eq, List.append_assoc, List.singleton_append,
      Check.lift_ok_bind, Shape.behindFirstClass_ok his hk]
  refine ⟨_, Pass.run_program hpass h scope, (Pass.run_program hpass h' scope).trans ?_⟩
  rw [Pass.walkChildren_append fun a ha => (hkinds a ha).1, hwalk, ← hfurther, bind_assoc]
  rfl

/-! ### Passes one after the other -/

/-- The passes that are run on a tree: up to and including the first that finds an error. -/
def passesRun (t : Tree) (scope : Scope) : List Pass → List Pass
  | [] => []
  | pass :: rest =>
    pass :: if Report.anyError (pass.reports t scope) then [] else passesRun t scope rest

/-- No pass that is run on the tree finds an error or halts behind the first class. -/
def AcceptsFurther (t : Tree) (scope : Scope) (passes : List Pass) : Prop :=
  ∀ pass ∈ passesRun t scope passes, (pass.walkFurther t scope).Clean

instance (c : Check Unit) : Decidable c.Clean := inferInstanceAs (Decidable (c = pure ()))

instance (t : Tree) (scope : Scope) (passes : List Pass) :
    Decidable (AcceptsFurther t scope passes) :=
  inferInstanceAs (Decidable (∀ pass ∈ passesRun t scope passes, (pass.walkFurther t scope).Clean))

theorem acceptsFurther_cons {t : Tree} {scope : Scope} {pass : Pass} {passes : List Pass} :
    AcceptsFurther t scope (pass :: passes) ↔ (pass.walkFurther t scope).Clean ∧
      (pass.reports t scope = [] → AcceptsFurther t scope passes) := by
  have herror : Report.anyError (pass.reports t scope) = false ↔ pass.reports t scope = [] :=
    Report.anyError_eq_false_iff fun r hr => (Pass.isSemanticError_of_mem_reports r hr).2
  rw [AcceptsFurther, passesRun, List.forall_mem_cons, ← herror]
  refine and_congr_right' ?_
  cases Report.anyError (pass.reports t scope) <;> simp [AcceptsFurther]

/-- **Further classes in the analysis**: where the passes accept them, the reports stay, and where
they do not, there is a report. -/
theorem analyzeWith_further (imports : List String) (c : ClassDecl) (rest : List ClassDecl)
    (scope : Scope) (passes : List Pass) (hpasses : ∀ pass ∈ passes, pass ∈ Pass.standard) :
    (AcceptsFurther (Program.mk imports (c :: rest)).build scope passes →
      analyzeWith (Program.mk imports (c :: rest)).build scope passes
        = analyzeWith (Program.mk imports [c]).build scope passes) ∧
    (¬ AcceptsFurther (Program.mk imports (c :: rest)).build scope passes →
      analyzeWith (Program.mk imports (c :: rest)).build scope passes ≠ []) := by
  induction passes with
  | nil => exact ⟨fun _ => rfl, fun h => absurd (List.forall_mem_nil _) h⟩
  | cons pass passes ih =>
    rw [List.forall_mem_cons] at hpasses
    obtain ⟨first, hrun, hrun'⟩ := Program.run_further imports c rest hpasses.1 scope
    rw [acceptsFurther_cons, analyzeWith_cons_eq, analyzeWith_cons_eq]
    by_cases hclean : (pass.walkFurther (Program.mk imports (c :: rest)).build scope).Clean
    · have hreports : pass.reports (Program.mk imports (c :: rest)).build scope
          = pass.reports (Program.mk imports [c]).build scope := by
        rw [Pass.reports, Pass.reports, hrun, hrun', hclean, pure_bind]
      rw [hreports]
      by_cases hnil : pass.reports (Program.mk imports [c]).build scope = []
      · simp only [hclean, hnil, true_and, true_implies, if_true]
        exact ih hpasses.2
      · simp [hclean, hnil]
    · have hreports : pass.reports (Program.mk imports (c :: rest)).build scope ≠ [] := by
        rw [Ne, Pass.reports, Pass.reportsOf_eq_nil_iff, hrun', Check.stepwise_clean.bind_iff,
          Check.stepwise_clean.bind_iff]
        exact fun h => hclean h.2.1
      simp [hclean, hreports]

end Classlet
