import Classlet.Proofs.Analysis.Walk
import Classlet.Analysis.Analyzer

/-!
# Passes one after the other

A run of a pass is a sequence of checks: the visits in pre-order, then the end (`run_eq`).  The first
check that halts ends the run.  Whatever a pass does, it is accepted or reports an error
(`isSemanticError_of_mem_reports`), so the passes of an analysis are accepted up to the one that
speaks for all of them (`analyzeWith_append`).

Main statement: `analyzeWith_failFast`, for passes of any kind.
-/

namespace Classlet

/-! ### Shapes and sequences of checks -/

theorem Shape.ind {P : Shape → Prop}
    (node : ∀ (id : NodeId) (kind : Kind) (position : Position) (children : Shapes),
      (∀ c ∈ children, P (c ())) → P (.node id kind position children))
    (broken : ∀ (id : NodeId) (fault : Fault), P (.broken id fault)) (s : Shape) : P s :=
  @Shape.rec P (fun cs => ∀ c ∈ cs, P (c ())) node broken
    (List.forall_mem_nil _) (fun _ _ hc hcs => List.forall_mem_cons.mpr ⟨hc (), hcs⟩) s

deriving instance DecidableEq for Check

namespace Check

instance (c : Check Unit) : Decidable c.Ends := inferInstanceAs (Decidable (c.result = .ok ()))

/-- Checks one after the other. -/
def inTurn : List (Check Unit) → Check Unit
  | [] => pure ()
  | c :: cs => do
    c
    inTurn cs

theorem inTurn_append (cs ds : List (Check Unit)) :
    inTurn (cs ++ ds) = inTurn cs >>= fun _ => inTurn ds := by
  induction cs with
  | nil => rfl
  | cons c cs ih => simp only [List.cons_append, inTurn, ih, bind_assoc]

theorem lift_error_bind {α β : Type} (h : Halt) (f : α → Check β) :
    lift (.error h) >>= f = halt h := rfl

theorem inTurn_halt (h : Halt) (cs : List (Check Unit)) : inTurn (halt h :: cs) = halt h := rfl

/-- Checks that come to an end find one after the other what each of them finds. -/
theorem inTurn_of_ends {cs : List (Check Unit)} (h : ∀ c ∈ cs, c.Ends) :
    inTurn cs = ⟨cs.flatMap Check.findings, .ok ()⟩ := by
  induction cs with
  | nil => rfl
  | cons c cs ih =>
    rw [List.forall_mem_cons] at h
    obtain ⟨found, result⟩ := c
    obtain rfl : result = .ok () := h.1
    rw [inTurn, ih h.2, bind_ok, List.flatMap_cons]

theorem inTurn_of_halts {before after : List (Check Unit)} {found : List Finding} {h : Halt}
    (hb : ∀ c ∈ before, c.Ends) :
    inTurn (before ++ ⟨found, .error h⟩ :: after)
      = ⟨before.flatMap Check.findings ++ found, .error h⟩ := by
  rw [inTurn_append, inTurn_of_ends hb, bind_ok]
  rfl

end Check

/-- The report is an error of the semantic stage. -/
def Report.IsSemanticError (r : Report) : Prop := r.stage = .semantic ∧ r.isError = true

/-! ### The checks of a run -/

namespace Pass

mutual

/-- The checks of a walk: a visit of the node, then those below it. -/
def steps (pass : Pass) (t : Tree) (scope : Scope) : Shape → List (Check Unit)
  | .node id kind position children =>
    pass.visit t scope (.node id kind position children) :: pass.stepsOfAll t scope 0 children
  | .broken id fault => [pass.visit t scope (.broken id fault), Check.halt (.fault fault)]
termination_by structural s => s

/-- The checks of a walk of the children of a node, `index` methods of which came before. -/
def stepsOfAll (pass : Pass) (t : Tree) (scope : Scope) : Nat → Shapes → List (Check Unit)
  | _, [] => []
  | index, s :: rest =>
    match (s ()).kind with
    | .error h => [Check.halt h]
    | .ok (.methodDecl name _ _) =>
      match scope.enter index name with
      | .error h => [Check.halt h]
      | .ok inner => pass.steps t inner (s ()) ++ pass.stepsOfAll t scope (index + 1) rest
    | .ok _ => pass.steps t scope (s ()) ++ pass.stepsOfAll t scope index rest
termination_by structural _ shapes => shapes

end

/-- The checks of a run: the visits in pre-order, then the end. -/
def checks (pass : Pass) (t : Tree) (scope : Scope) : List (Check Unit) :=
  pass.steps t scope (t.shape t.root) ++ [pass.finish scope]

theorem walkChildren_eq (pass : Pass) (t : Tree) {children : Shapes}
    (ih : ∀ c ∈ children, ∀ scope, pass.walk t scope (c ()) = .inTurn (pass.steps t scope (c ())))
    (scope : Scope) (index : Nat) :
    pass.walkChildren t scope index children = .inTurn (pass.stepsOfAll t scope index children) := by
  induction children generalizing index with
  | nil => rfl
  | cons s rest ihrest =>
    rw [List.forall_mem_cons] at ih
    rw [walkChildren, stepsOfAll]
    rcases (s ()).kind with h | kind
    · rw [Check.lift_error_bind, Check.inTurn_halt]
    · cases kind with
      | methodDecl name isPublic isStatic =>
        rcases hs : scope.enter index name with h | inner
        · simp only [Check.lift_ok_bind, hs, Check.lift_error_bind, Check.inTurn_halt]
        · simp only [Check.lift_ok_bind, hs, Check.inTurn_append, ih.1, ihrest ih.2]
      | _ => simp only [Check.lift_ok_bind, Check.inTurn_append, ih.1, ihrest ih.2]

theorem walk_eq (pass : Pass) (t : Tree) (s : Shape) :
    ∀ scope, pass.walk t scope s = .inTurn (pass.steps t scope s) := by
  induction s using Shape.ind with
  | node id kind position children ih =>
    intro scope
    rw [walk, steps, Check.inTurn, walkChildren_eq pass t ih]
  | broken id fault =>
    intro scope
    rw [walk, steps]
    rfl

/-- **A run is the checks one after the other.** -/
theorem run_eq (pass : Pass) (t : Tree) (scope : Scope) :
    pass.run t scope = .inTurn (pass.checks t scope) := by
  rw [run, checks, Check.inTurn_append, walk_eq]
  congr 1
  funext u
  simp [Check.inTurn]

/-! ### What a pass reports -/

theorem isSemanticError_failure (name : String) (e : Error) :
    (failure name e).IsSemanticError := by
  unfold failure
  split <;> exact ⟨rfl, rfl⟩

theorem isSemanticError_of_mem_reportsOf {name : String} (outcome : Check Unit) :
    ∀ r ∈ reportsOf name outcome, r.IsSemanticError := by
  obtain ⟨found, result⟩ := outcome
  have hfound : ∀ r ∈ found.map Finding.report, r.IsSemanticError := by
    rw [List.forall_mem_map]
    exact fun _ _ => ⟨rfl, rfl⟩
  rcases result with (e | f) | ⟨⟩
  · exact List.forall_mem_append.mpr
      ⟨hfound, List.forall_mem_singleton.mpr (isSemanticError_failure name e)⟩
  · exact List.forall_mem_singleton.mpr ⟨rfl, rfl⟩
  · exact hfound

/-- **Every report of a pass is an error.** -/
theorem isSemanticError_of_mem_reports {pass : Pass} {t : Tree} {scope : Scope} :
    ∀ r ∈ pass.reports t scope, r.IsSemanticError :=
  isSemanticError_of_mem_reportsOf _

/-- The report of a pass that halted with an error names a failed pass: the one the error itself
names, or else this one. -/
theorem failure_cases (name : String) (e : Error) :
    ∃ failed reason, failure name e = .ofError .semantic .unknown (.passFailed failed reason) ∧
      (e = .passFailed failed reason ∨
        (∀ pass why, e ≠ .passFailed pass why) ∧ failed = name ∧ reason = e.message) := by
  cases e with
  | passFailed pass reason => exact ⟨pass, reason, rfl, .inl rfl⟩
  | _ => exact ⟨name, _, rfl, .inr ⟨by simp, rfl, rfl⟩⟩

section Reports

variable {pass : Pass} {t : Tree} {scope : Scope} {before after : List (Check Unit)}
  {found : List Finding}

theorem reports_of_ends (h : ∀ c ∈ pass.checks t scope, c.Ends) :
    pass.reports t scope = ((pass.checks t scope).flatMap Check.findings).map Finding.report := by
  rw [reports, run_eq, Check.inTurn_of_ends h, reportsOf]

theorem reports_of_error {e : Error} (hb : ∀ c ∈ before, c.Ends)
    (h : pass.checks t scope = before ++ ⟨found, .error (.error e)⟩ :: after) :
    pass.reports t scope = (before.flatMap Check.findings ++ found).map Finding.report
      ++ [failure pass.name e] := by
  rw [reports, run_eq, h, Check.inTurn_of_halts hb, reportsOf]

theorem reports_of_fault {f : Fault} (hb : ∀ c ∈ before, c.Ends)
    (h : pass.checks t scope = before ++ ⟨found, .error (.fault f)⟩ :: after) :
    pass.reports t scope = [.ofError .semantic .unknown (.passFailed pass.name f.reason)] := by
  rw [reports, run_eq, h, Check.inTurn_of_halts hb, reportsOf]

end Reports

end Pass

/-! ### Passes one after the other -/

theorem Report.anyError_eq_false_iff {reports : List Report}
    (h : ∀ r ∈ reports, r.isError = true) : Report.anyError reports = false ↔ reports = [] := by
  cases reports with
  | nil => simp
  | cons r rest => simp [Report.anyError, h r List.mem_cons_self]

section Analyze

variable {t : Tree} {scope : Scope} {passes : List Pass}

/-- A pass that is accepted leaves the word to the others. -/
theorem analyzeWith_cons_eq (pass : Pass) (passes : List Pass) :
    analyzeWith t scope (pass :: passes) = if pass.reports t scope = []
      then analyzeWith t scope passes else pass.reports t scope := by
  rw [analyzeWith]
  by_cases h : pass.reports t scope = []
  · simp [h]
  · have herror : Report.anyError (pass.reports t scope) = true := by
      rw [← Bool.not_eq_false, Report.anyError_eq_false_iff
        fun r hr => (Pass.isSemanticError_of_mem_reports r hr).2]
      exact h
    simp [h, herror]

theorem analyzeWith_singleton (pass : Pass) : analyzeWith t scope [pass] = pass.reports t scope := by
  rw [analyzeWith_cons_eq, analyzeWith]
  split
  · next h => rw [h]
  · rfl

/-- **Analysis is fail-fast.** -/
theorem analyzeWith_append (P Q : List Pass) :
    analyzeWith t scope (P ++ Q) = if analyzeWith t scope P = []
      then analyzeWith t scope Q else analyzeWith t scope P := by
  induction P with
  | nil => simp [analyzeWith]
  | cons pass P ih =>
    rw [List.cons_append, analyzeWith_cons_eq, analyzeWith_cons_eq, ih]
    by_cases h : pass.reports t scope = [] <;> simp [h]

/-- The first pass that is not accepted speaks for all. -/
theorem analyzeWith_of_accepted {P : List Pass} (hP : analyzeWith t scope P = []) {pass : Pass}
    (h : pass.reports t scope ≠ []) (Q : List Pass) :
    analyzeWith t scope (P ++ pass :: Q) = pass.reports t scope := by
  rw [analyzeWith_append, if_pos hP, analyzeWith_cons_eq, if_neg h]

theorem analyzeWith_eq_nil_iff_each :
    analyzeWith t scope passes = [] ↔ ∀ pass ∈ passes, analyzeWith t scope [pass] = [] := by
  induction passes with
  | nil => simp [analyzeWith]
  | cons pass passes ih =>
    rw [List.forall_mem_cons, ← ih, analyzeWith_singleton, analyzeWith_cons_eq]
    by_cases h : pass.reports t scope = [] <;> simp [h]

theorem isSemanticError_of_mem_analyzeWith :
    ∀ r ∈ analyzeWith t scope passes, r.IsSemanticError := by
  induction passes with
  | nil => simp [analyzeWith]
  | cons pass passes ih =>
    rw [analyzeWith_cons_eq]
    split
    · exact ih
    · exact Pass.isSemanticError_of_mem_reports

end Analyze

/-- **Fail-fast composition.**  The reports of two lists of passes are those of the first list, or
those of the second if the first list is accepted.  Behind accepted passes, a pass one of whose
checks breaks off reports that and nothing it found; one of whose checks stops with an error reports
what was found up to then, and the error; otherwise it reports what its checks found.  So passes are
accepted if and only if each of them is, in whatever order. -/
theorem analyzeWith_failFast (t : Tree) (table : SymbolTable) (policy : ExternalPolicy) :
    (∀ P Q : List Pass, analyzeWith t (.ofTable table policy) (P ++ Q)
      = if analyzeWith t (.ofTable table policy) P = []
        then analyzeWith t (.ofTable table policy) Q
        else analyzeWith t (.ofTable table policy) P) ∧
    (∀ (P Q : List Pass) (pass : Pass), analyzeWith t (.ofTable table policy) P = [] →
      (∀ before found f after, (∀ c ∈ before, c.Ends) →
        pass.checks t (.ofTable table policy) = before ++ ⟨found, .error (.fault f)⟩ :: after →
        analyzeWith t (.ofTable table policy) (P ++ pass :: Q)
          = [.ofError .semantic .unknown (.passFailed pass.name f.reason)]) ∧
      (∀ before found e after, (∀ c ∈ before, c.Ends) →
        pass.checks t (.ofTable table policy) = before ++ ⟨found, .error (.error e)⟩ :: after →
        ∃ failed reason, analyzeWith t (.ofTable table policy) (P ++ pass :: Q)
            = (before.flatMap Check.findings ++ found).map Finding.report
              ++ [.ofError .semantic .unknown (.passFailed failed reason)] ∧
          (e = .passFailed failed reason ∨
            (∀ p why, e ≠ .passFailed p why) ∧ failed = pass.name ∧ reason = e.message)) ∧
      ((∀ c ∈ pass.checks t (.ofTable table policy), c.Ends) →
        analyzeWith t (.ofTable table policy) [pass]
          = ((pass.checks t (.ofTable table policy)).flatMap Check.findings).map
              Finding.report)) ∧
    (∀ P : List Pass, analyzeWith t (.ofTable table policy) P = [] ↔
      ∀ pass ∈ P, analyzeWith t (.ofTable table policy) [pass] = []) ∧
    (∀ P Q : List Pass, P.Perm Q → (analyzeWith t (.ofTable table policy) P = [] ↔
      analyzeWith t (.ofTable table policy) Q = [])) := by
  refine ⟨analyzeWith_append, fun P Q pass hP => ⟨?_, ?_, ?_⟩,
    fun P => analyzeWith_eq_nil_iff_each, fun P Q hperm => ?_⟩
  · intro before found f after hb h
    have hreports := Pass.reports_of_fault hb h
    rw [analyzeWith_of_accepted hP (by simp [hreports]), hreports]
  · intro before found e after hb h
    have hreports := Pass.reports_of_error hb h
    obtain ⟨failed, reason, hfailure, he⟩ := Pass.failure_cases pass.name e
    refine ⟨failed, reason, ?_, he⟩
    rw [analyzeWith_of_accepted hP (by simp [hreports]), hreports, hfailure]
  · intro h
    rw [analyzeWith_singleton, Pass.reports_of_ends h]
  · refine analyzeWith_eq_nil_iff_each.trans (Iff.trans ?_ analyzeWith_eq_nil_iff_each.symm)
    exact ⟨fun h pass hpass => h pass (hperm.mem_iff.mpr hpass),
      fun h pass hpass => h pass (hperm.mem_iff.mp hpass)⟩

/-- A pass that finds an error at every node up to the first method, where it halts. -/
def stoppingPass (h : Halt) : Pass where
  name := "stopping"
  visit _ _
    | .node _ (.methodDecl _ _ _) position _ => ⟨[⟨position, "the last one"⟩], .error h⟩
    | s => Check.error s "one more"

/-- A class with a method that does nothing. -/
def idleClass : ClassDecl where
  name := "Idle"
  superclass := none
  fields := []
  methods := [⟨"run", true, false, some ⟨"void", false, false⟩, [], [], []⟩]

/-- The checks of `stoppingPass` before the method of `idleClass`. -/
def foundBefore : List (Check Unit) :=
  [⟨[⟨⟨1, 1⟩, "one more"⟩], .ok ()⟩, ⟨[⟨⟨2, 1⟩, "one more"⟩], .ok ()⟩]

/-- The checks of `stoppingPass` after the method of `idleClass`. -/
def notReached : List (Check Unit) := [⟨[⟨⟨3, 3⟩, "one more"⟩], .ok ()⟩, ⟨[], .ok ()⟩]

/-- Behind an accepted pass, a pass that breaks off reports only that, and a pass that stops with an
error also what it found at the program and at the class before.  They are not accepted in the other
order either. -/
theorem analyzeWith_failFast_stopping :
    ∃ (t : Tree) (table : SymbolTable),
      analyzeWith t (.ofTable table .strict) [Names.undeclaredPass] = [] ∧
      analyzeWith t (.ofTable table .strict) ([Names.undeclaredPass]
          ++ stoppingPass (.fault (.gaveUp (some "out of luck"))) :: Pass.standard)
        = [.ofError .semantic .unknown (.passFailed "stopping" "out of luck")] ∧
      (∃ failed reason, analyzeWith t (.ofTable table .strict) ([Names.undeclaredPass]
          ++ stoppingPass (.error (.passFailed "inner" "no reason")) :: Pass.standard)
        = [⟨⟨1, 1⟩, "one more"⟩, ⟨⟨2, 1⟩, "one more"⟩, ⟨⟨3, 1⟩, "the last one"⟩].map Finding.report
          ++ [.ofError .semantic .unknown (.passFailed failed reason)] ∧
        (Error.passFailed "inner" "no reason" = .passFailed failed reason ∨
          (∀ p why, Error.passFailed "inner" "no reason" ≠ .passFailed p why) ∧
            failed = "stopping" ∧
            reason = (Error.passFailed "inner" "no reason").message)) ∧
      (analyzeWith t (.ofTable table .strict)
          [Names.undeclaredPass, stoppingPass (.error .missingClass)] = [] ↔
        analyzeWith t (.ofTable table .strict)
          [stoppingPass (.error .missingClass), Names.undeclaredPass] = []) := by
  let t : Tree := (Program.mk [] [idleClass]).build
  let table : SymbolTable := .ofDecls [] idleClass
  have haccepted : analyzeWith t (.ofTable table .strict) [Names.undeclaredPass] = [] := by
    decide +kernel
  have hends : ∀ c ∈ foundBefore, c.Ends := by decide +kernel
  have hfault : (stoppingPass (.fault (.gaveUp (some "out of luck")))).checks t
      (.ofTable table .strict) = foundBefore ++ ⟨[⟨⟨3, 1⟩, "the last one"⟩],
        .error (.fault (.gaveUp (some "out of luck")))⟩ :: notReached := by decide +kernel
  have herror : (stoppingPass (.error (.passFailed "inner" "no reason"))).checks t
      (.ofTable table .strict) = foundBefore ++ ⟨[⟨⟨3, 1⟩, "the last one"⟩],
        .error (.error (.passFailed "inner" "no reason"))⟩ :: notReached := by decide +kernel
  obtain ⟨-, hhalts, -, hperm⟩ := analyzeWith_failFast t table .strict
  refine ⟨t, table, haccepted, ?_, ?_, hperm _ _ (.swap ..)⟩
  · exact (hhalts _ _ _ haccepted).1 _ _ _ _ hends hfault
  · exact (hhalts _ _ _ haccepted).2.1 _ _ _ _ hends herror

end Classlet
