import Classlet.Proofs.Analysis.Visits
import Classlet.Proofs.Syntax.Positions

/-!
# The order of the reports

A visit of a standard pass finds errors at the node that is visited and nowhere else.  Since nodes
are visited in pre-order, and stand in the text in that order, what a pass finds comes sorted by
position.  An analysis reports what one pass finds.

* `Pass.standard_cases`: what the standard passes find, and where.
* `Pass.sorted_findings`: the findings of a pass over a built tree are sorted.
* `walk_and_order`: the visits of a walk, and the order of the reports.
-/

namespace Classlet

open Subtree

/-! ### Where errors are found -/

namespace Check

/-- All errors are found at the position. -/
def FindsAt {α : Type} (p : Position) (c : Check α) : Prop := ∀ f ∈ c.findings, f.position = p

namespace FindsAt

variable {α β : Type} {p : Position}

theorem pure (a : α) : FindsAt p (Pure.pure a : Check α) := List.forall_mem_nil _

theorem lift (x : Except Halt α) : FindsAt p (lift x) := List.forall_mem_nil _

theorem bind {c : Check α} {f : α → Check β} (hc : c.FindsAt p) (hf : ∀ a, (f a).FindsAt p) :
    (c >>= f).FindsAt p := by
  obtain ⟨found, h | a⟩ := c
  · rw [bind_error]
    exact hc
  · rw [bind_ok]
    exact List.forall_mem_append.mpr ⟨hc, hf a⟩

theorem after {x : Except Halt α} {f : α → Check β} (hf : ∀ a, (f a).FindsAt p) :
    (Check.lift x >>= f).FindsAt p :=
  .bind (.lift x) hf

section Node

variable {id : NodeId} {kind : Kind} {children : Shapes}

theorem error (message : String) : FindsAt p (Check.error (.node id kind p children) message) :=
  List.forall_mem_singleton.mpr rfl

theorem errors (messages : List String) :
    FindsAt p (Check.errors (.node id kind p children) messages) := by
  induction messages with
  | nil => exact .pure ()
  | cons message rest ih => exact .bind (.error message) fun _ => ih

theorem arrayRole (scope : Scope) (role : Operands.ArrayRole) (operand : Except Halt ExprType) :
    FindsAt p (role.check scope (.node id kind p children) operand) :=
  .after fun _ => .errors _

theorem checkElements (scope : Scope) (elements : Shapes) :
    FindsAt p (Operands.checkElements scope (.node id kind p children) elements) := by
  induction elements with
  | nil => exact .pure ()
  | cons e rest ih => exact .bind (.arrayRole scope _ _) fun _ => ih

theorem checkReturn (scope : Scope) (m : Signature) :
    FindsAt p (Values.checkReturn scope m (.node id kind p children)) := by
  refine .after fun found => ?_
  split
  · split
    · exact .pure ()
    · exact .error _
  · split
    · exact .error _
    · exact .after fun _ => .errors _

theorem checkExternal (scope : Scope) (method : String) :
    FindsAt p (Values.checkExternal scope (.node id kind p children) method) := by
  unfold Values.checkExternal
  split
  · exact .pure ()
  · exact .error _

end Node

end FindsAt

end Check

/-! ### The standard passes -/

namespace Pass

open Check (FindsAt)

/-- A pass that finds errors at the nodes it visits, and none at the end. -/
structure FindsAtNodes (pass : Pass) : Prop where
  visit : ∀ t scope id kind p children,
    (pass.visit t scope (.node id kind p children)).FindsAt p
  finish : ∀ scope, pass.finish scope = pure ()

theorem undeclaredPass_findsAtNodes : Names.undeclaredPass.FindsAtNodes where
  visit _ _ _ _ _ _ := .after fun kind => by
    split
    · exact .errors _
    · exact .errors _
    · exact .errors _
    · exact .errors _
    · exact .pure ()
  finish _ := rfl

theorem operationPass_findsAtNodes : Operands.operationPass.FindsAtNodes where
  visit _ _ _ _ _ _ := .after fun kind => by
    split
    · exact .after fun _ => .after fun _ => .errors _
    · exact .after fun _ => .errors _
    · exact .pure ()
  finish _ := rfl

theorem conditionPass_findsAtNodes : Operands.conditionPass.FindsAtNodes where
  visit _ _ _ _ _ _ := .after fun kind => by
    split
    · exact .after fun _ => .errors _
    · exact .after fun _ => .errors _
    · exact .pure ()
  finish _ := rfl

theorem arrayPass_findsAtNodes : Operands.arrayPass.FindsAtNodes where
  visit _ scope _ _ _ _ := .after fun kind => by
    split
    · exact .bind (.arrayRole scope _ _) fun _ => .arrayRole scope _ _
    · exact .arrayRole scope _ _
    · exact .arrayRole scope _ _
    · exact .after fun _ => .checkElements scope _
    · exact .bind (.errors _) fun _ =>
        .bind (.arrayRole scope _ _) fun _ => .arrayRole scope _ _
    · exact .pure ()
  finish _ := rfl

theorem returnPass_findsAtNodes : Values.returnPass.FindsAtNodes where
  visit _ scope _ _ _ _ := .after fun kind => by
    split
    · split
      · exact .checkReturn scope _
      · exact .pure ()
    · exact .pure ()
  finish _ := rfl

theorem assignmentPass_findsAtNodes : Values.assignmentPass.FindsAtNodes where
  visit _ _ _ _ _ _ := .after fun kind => by
    split
    · split
      · exact .error _
      · exact .after fun _ => .errors _
    · exact .pure ()
  finish _ := rfl

theorem argumentPass_findsAtNodes : Values.argumentPass.FindsAtNodes where
  visit _ scope _ _ _ _ := .after fun kind => by
    split
    · refine .after fun receiver => ?_
      split
      · split
        · exact .after fun _ => .after fun _ => .errors _
        · split
          · exact .checkExternal scope _
          · exact .error _
      · exact .checkExternal scope _
      · exact .error _
      · exact .error _
    · exact .pure ()
  finish _ := rfl

theorem declarationPass_findsAtNodes : WrittenTypes.declarationPass.FindsAtNodes where
  visit _ _ _ _ _ _ := .after fun kind => by
    split
    · refine .after fun slot => ?_
      split
      · exact .errors _
      · exact .pure ()
    · exact .pure ()
  finish _ := rfl

/-- **Where the standard passes find errors**: at the nodes they visit, except the pass over the
imports, which names no place. -/
theorem standard_cases : ∀ pass ∈ standard, pass.FindsAtNodes ∨ pass = Names.importPass := by
  simp only [standard, List.forall_mem_cons, List.not_mem_nil, false_imp_iff, implies_true,
    and_true, or_true, true_and]
  exact ⟨.inl undeclaredPass_findsAtNodes, .inl operationPass_findsAtNodes,
    .inl conditionPass_findsAtNodes, .inl arrayPass_findsAtNodes, .inl returnPass_findsAtNodes,
    .inl assignmentPass_findsAtNodes, .inl argumentPass_findsAtNodes,
    .inl declarationPass_findsAtNodes⟩

end Pass

/-! ### Sorted findings -/

/-- The findings are sorted by position. -/
def SortedFindings (found : List Finding) : Prop := (found.map (·.position)).Pairwise (· ≤ ·)

/-- A sequence of checks finds no more than its checks find, in their order. -/
theorem Check.findings_inTurn_sublist (cs : List (Check Unit)) :
    (inTurn cs).findings.Sublist (cs.flatMap findings) := by
  induction cs with
  | nil => exact .refl _
  | cons c cs ih =>
    obtain ⟨found, h | ⟨⟩⟩ := c
    · rw [inTurn, bind_error, List.flatMap_cons]
      exact List.sublist_append_left ..
    · rw [inTurn, bind_ok, List.flatMap_cons]
      exact ih.append_left found

theorem Tree.exists_shape_eq {t : Tree} {i : NodeId} {n : Node} (h : t.nodes[i]? = some n) :
    ∃ children, t.shape i = .node i n.kind n.position children := by
  obtain ⟨fuel, hfuel⟩ : ∃ fuel, t.stepLimit = fuel + 1 :=
    ⟨t.size + 0xfffffffffffffff, by unfold Tree.stepLimit; omega⟩
  rw [Tree.shape, hfuel, Tree.shapeWithin, h]
  exact ⟨_, rfl⟩

namespace Pass

variable {imports : List String} {c : ClassDecl} {table : SymbolTable} {program : Program}
  {calls : List Call}

/-- Where the visits are in the order of the ids, the findings are in the order of the positions. -/
theorem FindsAtNodes.sorted_calls {pass : Pass} (hpass : pass.FindsAtNodes) (table : SymbolTable)
    (policy : ExternalPolicy) (hids : calls.map Prod.fst = List.range program.build.size) :
    SortedFindings (calls.flatMap fun q =>
      (pass.call program.build table policy q).findings) := by
  have hat : ∀ q ∈ calls, ∃ n, program.build.nodes[q.1]? = some n ∧
      (pass.call program.build table policy q).FindsAt n.position := fun q hq => by
    have hlt : q.1 < program.build.size := by
      rw [← List.mem_range, ← hids]
      exact List.mem_map_of_mem hq
    obtain ⟨children, hshape⟩ := Tree.exists_shape_eq (Array.getElem?_eq_getElem hlt)
    refine ⟨_, Array.getElem?_eq_getElem hlt, ?_⟩
    rw [call, hshape]
    exact hpass.visit _ _ _ _ _ _
  have hlt : calls.Pairwise fun q q' => q.1 < q'.1 := by
    rw [← List.pairwise_map, hids]
    exact List.pairwise_lt_range
  rw [SortedFindings, List.pairwise_map, List.pairwise_flatMap]
  refine ⟨fun q hq => ?_, hlt.imp_of_mem fun {q q'} hq hq' hqq' f hf f' hf' => ?_⟩
  · obtain ⟨n, -, hn⟩ := hat q hq
    refine List.pairwise_of_forall_mem_list fun f hf f' hf' => ?_
    rw [hn f hf, hn f' hf']
  · obtain ⟨n, hnode, hn⟩ := hat q hq
    obtain ⟨n', hnode', hn'⟩ := hat q' hq'
    rw [hn f hf, hn' f' hf']
    exact (Program.position_lt_of_lt hnode hnode' hqq').le

/-- **What a standard pass finds over a built tree is sorted.** -/
theorem sorted_findings {pass : Pass} (hpass : pass ∈ standard) (policy : ExternalPolicy)
    (hvisits : program.build.Visits imports c table calls)
    (hids : calls.map Prod.fst = List.range program.build.size) :
    SortedFindings (pass.run program.build (.ofTable table policy)).findings := by
  rw [run, hvisits.walk_eq]
  rcases standard_cases pass hpass with hnodes | rfl
  · have hfinish : ∀ c : Check Unit, (c >>= fun _ => pass.finish (.ofTable table policy)) = c := by
      intro c
      rw [hnodes.finish]
      exact bind_pure c
    rw [hfinish, SortedFindings]
    have hsorted := hnodes.sorted_calls table policy hids
    rw [← List.flatMap_map] at hsorted
    exact hsorted.sublist ((Check.findings_inTurn_sublist _).map _)
  · -- the imports are looked at in the end only
    have hwalk : ∀ calls : List Call, Check.inTurn
        (calls.map (Names.importPass.call program.build table policy)) = pure () := fun calls => by
      induction calls with
      | nil => rfl
      | cons q calls ih =>
        rw [List.map_cons, Check.inTurn, ih]
        rfl
    rw [hwalk, pure_bind, SortedFindings, List.pairwise_map]
    refine List.pairwise_of_forall_mem_list fun f hf f' hf' => ?_
    obtain ⟨name, -, rfl⟩ := List.mem_map.mp hf
    obtain ⟨name', -, rfl⟩ := List.mem_map.mp hf'
    exact le_refl _

end Pass

/-- **An analysis reports what one of its passes reports.** -/
theorem exists_analyzeWith_eq (t : Tree) (scope : Scope) {passes : List Pass} (h : passes ≠ []) :
    ∃ pass ∈ passes, analyzeWith t scope passes = pass.reports t scope := by
  induction passes with
  | nil => exact absurd rfl h
  | cons pass rest ih =>
    rw [analyzeWith_cons_eq]
    by_cases hnil : pass.reports t scope = []
    · rw [if_pos hnil]
      by_cases hrest : rest = []
      · rw [hrest]
        exact ⟨pass, List.mem_cons_self, hnil.symm⟩
      · obtain ⟨other, hmem, heq⟩ := ih hrest
        exact ⟨other, List.mem_cons_of_mem _ hmem, heq⟩
    · rw [if_neg hnil]
      exact ⟨pass, List.mem_cons_self, rfl⟩

/-- **What a walk visits, and in which order an analysis reports.**  Over the tree of a program with
one class and with the table of that program, every pass visits each node of the pre-order once, in
that order: the nodes of a method in the scope of the signature in the place of the method, the
others outside all methods.  A pass whose visits come to an end finds what they find, in turn.  The
standard analysis reports what one of its passes reports, sorted by position. -/
theorem walk_and_order (imports : List String) (c : ClassDecl) :
    (∃ found, (Program.mk imports [c]).build.symbolTable = .ok (.ofDecls imports c, found)) ∧
    (∃ calls, (Program.mk imports [c]).build.Visits imports c (.ofDecls imports c) calls ∧
      ∀ (pass : Pass) (policy : ExternalPolicy),
        (∀ q ∈ calls,
          (pass.call (Program.mk imports [c]).build (.ofDecls imports c) policy q).Ends) →
        pass.walk (Program.mk imports [c]).build (.ofTable (.ofDecls imports c) policy)
            ((Program.mk imports [c]).build.shape (Program.mk imports [c]).build.root)
          = ⟨calls.flatMap fun q => (pass.call (Program.mk imports [c]).build
              (.ofDecls imports c) policy q).findings, .ok ()⟩) ∧
    ∀ policy : ExternalPolicy,
      (∃ pass ∈ Pass.standard, analyze policy (Program.mk imports [c]).build (.ofDecls imports c)
        = pass.reports (Program.mk imports [c]).build (.ofTable (.ofDecls imports c) policy)) ∧
      ((analyze policy (Program.mk imports [c]).build (.ofDecls imports c)).map
        (·.position)).Pairwise (· ≤ ·) := by
  obtain ⟨b, hb⟩ := (Program.mk imports [c]).pictures_build
  have hnames : NamedAlike (SymbolTable.ofDecls imports c).signatures c.methods :=
    namedAlike_ofDecl c.methods
  obtain ⟨calls, hvisits, hids⟩ := hb.visits hnames
  refine ⟨hb.symbolTable_ok, ⟨calls, hvisits, fun pass policy hends => ?_⟩, fun policy => ?_⟩
  · rw [hvisits.walk_eq, Check.inTurn_of_ends (List.forall_mem_map.mpr hends), List.flatMap_map]
  · have hsome : Pass.standard ≠ [] := List.cons_ne_nil _ _
    obtain ⟨pass, hpass, heq⟩ := exists_analyzeWith_eq (Program.mk imports [c]).build
      (.ofTable (.ofDecls imports c) policy) hsome
    refine ⟨⟨pass, hpass, heq⟩, ?_⟩
    have hends := (Pass.standard_spec policy hb hnames).1 pass hpass
    rw [analyze, heq, Pass.reports, Pass.reportsOf_of_ends hends, List.map_map]
    exact Pass.sorted_findings hpass policy hvisits (hids.trans hb.ids_build)

/-- A method with a variable of its own, which it assigns. -/
def twinMethod (name type : String) (value : Expr) : MethodDecl where
  name := "f"
  isPublic := true
  isStatic := false
  returnType := some ⟨"void", false, false⟩
  params := []
  locals := [(name, ⟨type, false, false⟩)]
  body := [.assign name value]

/-- A class with two methods of one name. -/
def twinClass : ClassDecl where
  name := "Twins"
  superclass := none
  fields := []
  methods := [twinMethod "a" "int" (.int 1), twinMethod "b" "boolean" (.bool true)]

/-- The assignment in the second method, node 12, is visited in the scope of the second signature,
although the first has the same name, and nothing is reported about it. -/
theorem walk_and_order_twins :
    (∃ calls, (Program.mk [] [twinClass]).build.Visits [] twinClass (.ofDecls [] twinClass) calls ∧
      (12, some (Signature.ofDecl (twinMethod "b" "boolean" (.bool true)))) ∈ calls) ∧
    analyze .strict (Program.mk [] [twinClass]).build (.ofDecls [] twinClass) = [] := by
  obtain ⟨-, ⟨calls, hvisits, -⟩, -⟩ := walk_and_order [] twinClass
  refine ⟨⟨calls, hvisits, ?_⟩, by decide +kernel⟩
  obtain ⟨id, s, hid, -, hs, hinside⟩ := hvisits.inside 1 _ rfl
  have hsecond : (Program.mk [] [twinClass]).build.nodeAt [0, 1] = .ok 8 := by decide +kernel
  cases hsecond.symm.trans hid
  cases hs
  have hall : (Program.mk [] [twinClass]).build.descendants (Program.mk [] [twinClass]).build.root
      = .ok (List.range 14) := by decide +kernel
  have hids := Except.ok.inj (hvisits.ids_eq.symm.trans hall)
  have hmem : 12 ∈ calls.map Prod.fst := hids ▸ (by decide)
  obtain ⟨⟨i, scope⟩, hq, rfl⟩ := List.mem_map.mp hmem
  have hin : (Program.mk [] [twinClass]).build.Contains 8 12 := by decide +kernel
  rw [← hinside _ hq hin]
  exact hq

end Classlet
