import Classlet.Proofs.Lowering.Emission
import Classlet.Proofs.Lowering.Meaning

/-!
# Control flow of lowered code

A conditional and a loop bring along every label that they jump to, and the numbers of nested ones
are all different.  So the control flow of a lowered method is closed (`Closed`): no label is
repeated and every jump finds its label.  A method that returns nothing ends in a return.

Main statement: `lower_closed`, for every tree and every table.
-/

namespace Classlet.Lowering

open Classlet.Ir Classlet.Semantics

/-! ### Targets of jumps -/

/-- The label that an instruction may jump to. -/
def target? : Instr → Option String
  | .jump target | .jumpIf _ target => some target
  | _ => none

/-- The labels that some code may jump to. -/
def targets (code : List Instr) : List String := code.filterMap target?

@[simp]
theorem targets_nil : targets [] = [] := rfl

@[simp]
theorem targets_append (a b : List Instr) : targets (a ++ b) = targets a ++ targets b :=
  List.filterMap_append

@[simp]
theorem targets_cons (i : Instr) (code : List Instr) :
    targets (i :: code) = (target? i).toList ++ targets code := by
  cases h : target? i <;> simp [targets, h]

theorem targets_eq_nil {code : List Instr} (h : ∀ i ∈ code, isPlain i = true) :
    targets code = [] := by
  refine List.filterMap_eq_nil_iff.mpr fun i hi => ?_
  have hp := h i hi
  cases i <;> first | rfl | cases hp

/-! ### Closed control flow -/

/-- No label is repeated, and every jump goes to a label of the code. -/
structure Closed (code : List Instr) : Prop where
  nodup : (labels code).Nodup
  targets_subset : targets code ⊆ labels code

/-- A jump in closed code is never stuck: it goes on behind the one label of its name. -/
theorem Closed.goto_eq {κ R W : Type} {m : Machine κ R W} (h : Closed m.code) {target : String}
    (ht : target ∈ targets m.code) (c : Config κ R W) : ∃ before rest,
      m.code = before ++ .label target :: rest ∧ m.goto c target = .inl { c with rest } := by
  obtain ⟨i, hi, hname⟩ := List.mem_filterMap.mp (h.targets_subset ht)
  obtain ⟨before, rest, hcode⟩ := List.append_of_mem hi
  obtain rfl : i = .label target := by
    cases i <;> cases hname
    rfl
  refine ⟨before, rest, hcode, ?_⟩
  rw [Machine.goto, codeBehind_of_nodup before h.nodup hcode]

variable {cx : Context} {st st' : State} {code : List Instr}

theorem Emits.labelled (h : Emits cx st code st') : Labelled st st' code := by
  induction h with
  | straight h => exact labelled_of_plain h.plain
  | ret h =>
    refine (labelled_of_plain h.straight.plain).perm ?_
    simp [labels_append, labels_cons, labelName?]
  | append h h' ih ih' => exact ih.append ih' h.advances h'.advances
  | conditional hn hc hb ho ihb iho =>
    have hcond := hc.straight.advances
    exact labelled_conditional hn hc.straight.plain (hcond.trans hb.advances)
      (ihb.mono hcond (.refl _)) ho.advances iho
  | loop hn hc hb ihb =>
    have hcond := hc.straight.advances
    exact labelled_loop hn hc.straight.plain (hcond.trans hb.advances) (ihb.mono hcond (.refl _))

theorem Emits.targets_subset (h : Emits cx st code st') : targets code ⊆ labels code := by
  induction h with
  | straight h => simp [targets_eq_nil h.plain]
  | ret h => simp [targets_eq_nil h.straight.plain, target?]
  | append _ _ ih ih' =>
    rw [targets_append, labels_append]
    exact List.append_subset.mpr ⟨List.subset_append_of_subset_left _ ih,
      List.subset_append_of_subset_right _ ih'⟩
  | conditional hn hc _ _ ihb iho =>
    intro target ht
    simp only [conditionalCode, targets_append, targets_cons, targets_nil, target?,
      targets_eq_nil hc.straight.plain, labels_append, labels_cons, labels_nil, labelName?,
      labels_eq_nil hc.straight.plain, List.mem_append, List.mem_cons, Option.toList_some,
      Option.toList_none, List.not_mem_nil, or_false, false_or] at ht ⊢
    rcases ht with (((ht | ht) | ht) | ht) | ht
    · simp [ht]
    · simp [ht]
    · simp [ihb ht]
    · simp [ht]
    · simp [iho ht]
  | loop hn hc _ ihb =>
    intro target ht
    simp only [loopCode, targets_append, targets_cons, targets_nil, target?,
      targets_eq_nil hc.straight.plain, labels_append, labels_cons, labels_nil, labelName?,
      labels_eq_nil hc.straight.plain, List.mem_append, List.mem_cons, Option.toList_some,
      Option.toList_none, List.not_mem_nil, or_false, false_or] at ht ⊢
    rcases ht with ((ht | ht) | ht) | ht
    · simp [ht]
    · simp [ht]
    · simp [ihb ht]
    · simp [ht]

theorem Emits.closed (h : Emits cx st code st') : Closed code :=
  ⟨h.labelled.nodup, h.targets_subset⟩

/-! ### Methods -/

theorem Closed.endWithReturn (h : Closed code) (ty : ValueType) :
    Closed (endWithReturn ty code) := by
  unfold Lowering.endWithReturn
  split
  · have hlabels : labels (code ++ [.ret none]) = labels code := by
      simp [labels_append, labels_cons, labelName?]
    have htargets : targets (code ++ [.ret none]) = targets code := by simp [target?]
    exact ⟨hlabels ▸ h.nodup, by rw [hlabels, htargets]; exact h.targets_subset⟩
  · exact h

theorem getLast?_endWithReturn {ty : ValueType} (h : ty.isVoid = true) (code : List Instr) :
    ∃ value, (endWithReturn ty code).getLast? = some (.ret value) := by
  unfold endWithReturn
  split
  · exact ⟨none, List.getLast?_concat⟩
  · next hlast =>
    rw [h, Bool.true_and, Bool.not_eq_true, Bool.not_eq_false'] at hlast
    obtain ⟨i, hi, hret⟩ := (Option.any_eq_true _ _).mp hlast
    cases i <;> cases hret
    exact ⟨_, hi⟩

/-- **Control flow of lowered code is closed.**  Whatever the tree and the table, in every lowered
method no two labels have the same name, every jump goes to a label of the method, and a method that
returns nothing ends in a return. -/
theorem lower_closed {t : Tree} {table : SymbolTable} {code : ClassCode}
    (h : t.lower table = .ok code) : ∀ m ∈ code.methods, Closed m.instructions ∧
      (m.returnType = .void → ∃ value, m.instructions.getLast? = some (.ret value)) := by
  intro m hm
  obtain ⟨k, hk⟩ := List.mem_iff_getElem?.mp hm
  obtain ⟨s, members, -, hl⟩ := exists_of_lower h hk
  obtain ⟨body, final, hbody, -, hcode, -⟩ := emits_of_lowerMethod hl
  rw [hcode]
  refine ⟨hbody.closed.endWithReturn _, fun hvoid => ?_⟩
  exact getLast?_endWithReturn (by rw [hvoid]; rfl) body

/-- A loop with a conditional inside, in a method that returns nothing. -/
theorem lower_closed_counter : ∃ table code, counterUnit.build.lower table = .ok code ∧
    code.methods.length = 2 ∧ ∀ m ∈ code.methods, Closed m.instructions ∧
      (m.returnType = .void → ∃ value, m.instructions.getLast? = some (.ret value)) := by
  have hok : (cleanTable? counterUnit.build.symbolTable).any (fun table =>
      match counterUnit.build.lower table with
      | .ok code => code.methods.length == 2
      | .error _ => false) = true := by decide +kernel
  obtain ⟨table, -, hok⟩ := (Option.any_eq_true _ _).mp hok
  rcases hl : counterUnit.build.lower table with e | code <;> rw [hl] at hok
  · cases hok
  · exact ⟨table, code, hl, by simpa using hok, lower_closed hl⟩

end Classlet.Lowering
