import Classlet.Proofs.Lowering.Names
import Classlet.Proofs.Semantics.Machine
import Mathlib.Data.List.Nodup

/-!
# Labels of lowered code

A label is one of six words with a number of the counter that goes with the word.  Code that is
lowered between two states uses the numbers given out in between, each word with each of them at
most once (`Labelled`), so the labels of a method are all different and a jump finds its label
(`codeBehind_of_nodup`).
-/

namespace Classlet

/-! ### Words and numbers -/

/-- The text has no digits. -/
def Wordy (s : String) : Prop := ∀ c ∈ s.toList, c.isDigit = false

instance (s : String) : Decidable (Wordy s) := List.decidableBAll _ _

theorem isDigit_of_mem_toString {n : Nat} {c : Char} (h : c ∈ (toString n).toList) :
    c.isDigit = true := by
  rw [Nat.toString_eq_repr, Nat.toList_repr] at h
  exact Nat.isDigit_of_mem_toDigits (by decide) (by decide) h

theorem takeWhile_numbered {s : String} (hs : Wordy s) (n : Nat) :
    (s ++ toString n).toList.takeWhile (fun c => !c.isDigit) = s.toList := by
  rw [String.toList_append, List.takeWhile_append_of_pos fun c hc => by simp [hs c hc]]
  rcases hd : (toString n).toList with _ | ⟨c, cs⟩
  · simp
  · have hc : c.isDigit = true := isDigit_of_mem_toString (n := n) (by rw [hd]; simp)
    simp [hc]

/-- **A word and a number are read off the name they make.** -/
theorem numbered_inj {s t : String} (hs : Wordy s) (ht : Wordy t) {a b : Nat}
    (h : s ++ toString a = t ++ toString b) : s = t ∧ a = b := by
  have hw : s = t := by
    rw [← String.toList_inj, ← takeWhile_numbered hs a, h, takeWhile_numbered ht b]
  subst hw
  exact ⟨rfl, numbered_injective h⟩

namespace Lowering

open Classlet.Ir Classlet.Semantics

/-! ### Labels made between two states -/

/-- The words of labels, each with the stem of its counter. -/
def labelWords : List (String × String) :=
  [("then", "if"), ("else", "if"), ("endif", "if"),
    ("whilecond", "while"), ("whilebody", "while"), ("endwhile", "while")]

theorem wordy_of_mem_labelWords {word stem : String} (h : (word, stem) ∈ labelWords) :
    Wordy word :=
  (show ∀ p ∈ labelWords, Wordy p.1 by decide) _ h

theorem stem_unique {word stem stem' : String} (h : (word, stem) ∈ labelWords)
    (h' : (word, stem') ∈ labelWords) : stem = stem' :=
  (show ∀ p ∈ labelWords, ∀ q ∈ labelWords, p.1 = q.1 → p.2 = q.2 by decide) _ h _ h' rfl

/-- The name is a label with a number that was given out between two states. -/
def MadeBetween (st st' : State) (name : String) : Prop :=
  ∃ word stem n, (word, stem) ∈ labelWords ∧ st.names.peek stem ≤ n ∧
    n < st'.names.peek stem ∧ name = word ++ toString n

theorem MadeBetween.mono {st₀ st st' st₁ : State} {name : String} (h : MadeBetween st st' name)
    (ha : Advances st₀ st) (ha' : Advances st' st₁) : MadeBetween st₀ st₁ name := by
  obtain ⟨word, stem, n, hw, hle, hlt, hn⟩ := h
  have h₀ := ha.peek_le stem
  have h₁ := ha'.peek_le stem
  exact ⟨word, stem, n, hw, by omega, by omega, hn⟩

theorem MadeBetween.disjoint {st₀ st₁ st₂ st₃ : State} {name : String}
    (h : MadeBetween st₀ st₁ name) (ha : Advances st₁ st₂) (h' : MadeBetween st₂ st₃ name) :
    False := by
  obtain ⟨word, stem, n, hw, hle, hlt, rfl⟩ := h
  obtain ⟨word', stem', n', hw', hle', hlt', hn⟩ := h'
  obtain ⟨rfl, rfl⟩ := numbered_inj (wordy_of_mem_labelWords hw) (wordy_of_mem_labelWords hw') hn
  obtain rfl := stem_unique hw hw'
  have := ha.peek_le stem
  omega

theorem madeBetween_nextNumber {word stem : String} {n : Nat} {st st' : State}
    (h : nextNumber stem st = .ok (n, st')) (hw : (word, stem) ∈ labelWords) :
    MadeBetween st st' (word ++ toString n) := by
  obtain ⟨rfl, -, hp⟩ := nextNumber_spec h
  exact ⟨word, stem, _, hw, Nat.le_refl _, by rw [hp, if_pos rfl]; omega, rfl⟩

/-! ### Labelled code -/

/-- The labels of the code are made between two states, and no two are the same. -/
structure Labelled (st st' : State) (code : List Instr) : Prop where
  made : ∀ name ∈ labels code, MadeBetween st st' name
  nodup : (labels code).Nodup

theorem labels_eq_nil {code : List Instr} (h : ∀ i ∈ code, isPlain i = true) :
    labels code = [] := by
  refine List.filterMap_eq_nil_iff.mpr fun i hi => ?_
  have hp := h i hi
  cases i <;> first | rfl | cases hp

theorem labelled_of_plain {st st' : State} {code : List Instr} (h : ∀ i ∈ code, isPlain i = true) :
    Labelled st st' code :=
  ⟨by simp [labels_eq_nil h], by simp [labels_eq_nil h]⟩

theorem Labelled.append {st st₁ st₂ : State} {a b : List Instr} (ha : Labelled st st₁ a)
    (hb : Labelled st₁ st₂ b) (h : Advances st st₁) (h₁ : Advances st₁ st₂) :
    Labelled st st₂ (a ++ b) := by
  refine ⟨fun name hn => ?_, ?_⟩
  · rw [labels_append, List.mem_append] at hn
    rcases hn with hn | hn
    · exact (ha.made name hn).mono (.refl st) h₁
    · exact (hb.made name hn).mono h (.refl st₂)
  · rw [labels_append, List.nodup_append']
    exact ⟨ha.nodup, hb.nodup, fun name hna hnb =>
      (ha.made name hna).disjoint (.refl st₁) (hb.made name hnb)⟩

theorem Labelled.mono {st₀ st st' st₁ : State} {code : List Instr} (h : Labelled st st' code)
    (ha : Advances st₀ st) (ha' : Advances st' st₁) : Labelled st₀ st₁ code :=
  ⟨fun name hn => (h.made name hn).mono ha ha', h.nodup⟩

theorem Labelled.perm {st st' : State} {a b : List Instr} (h : Labelled st st' a)
    (hp : (labels a).Perm (labels b)) : Labelled st st' b :=
  ⟨fun name hn => h.made name (hp.mem_iff.mpr hn), hp.nodup_iff.mp h.nodup⟩

theorem labelled_nextNumber {words : List String} {stem : String} {n : Nat} {st st' : State}
    (h : nextNumber stem st = .ok (n, st')) (hw : ∀ word ∈ words, (word, stem) ∈ labelWords)
    (hd : words.Nodup) : Labelled st st' (words.map fun word => .label (word ++ toString n)) := by
  have hl : labels (words.map fun word => .label (word ++ toString n))
      = words.map (· ++ toString n) := by
    simp [labels, List.filterMap_map, Function.comp_def, labelName?]
  refine ⟨fun name hn => ?_, ?_⟩
  · rw [hl] at hn
    obtain ⟨word, hword, rfl⟩ := List.mem_map.mp hn
    exact madeBetween_nextNumber h (hw word hword)
  · rw [hl]
    refine hd.map_on fun a ha b hb he => ?_
    exact (numbered_inj (wordy_of_mem_labelWords (hw a ha))
      (wordy_of_mem_labelWords (hw b hb)) he).1

theorem labelled_conditional {n : Nat} {st st₁ st₂ st₃ : State} {cond : Loaded}
    {body otherwise : List Instr} (hn : nextNumber "if" st = .ok (n, st₁))
    (hc : ∀ i ∈ cond.code, isPlain i = true) (h₁ : Advances st₁ st₂)
    (hb : Labelled st₁ st₂ body) (h₂ : Advances st₂ st₃) (ho : Labelled st₂ st₃ otherwise) :
    Labelled st st₃ (conditionalCode n cond body otherwise) := by
  have hwords : Labelled st st₁ (["then", "else", "endif"].map fun word =>
      .label (word ++ toString n)) := labelled_nextNumber hn (by decide) (by decide)
  refine (hwords.append (hb.append ho h₁ h₂) (nextNumber_advances hn) (h₁.trans h₂)).perm ?_
  simp only [conditionalCode, labels_append, labels_eq_nil hc, labels_cons, labels_nil, labelName?,
    List.map_cons, List.map_nil, Option.toList_some, Option.toList_none, List.nil_append,
    List.append_nil]
  refine List.perm_iff_count.mpr fun name => ?_
  simp only [List.count_append, List.count_cons, List.count_nil]
  omega

theorem labelled_loop {n : Nat} {st st₁ st₂ : State} {cond : Loaded} {body : List Instr}
    (hn : nextNumber "while" st = .ok (n, st₁)) (hc : ∀ i ∈ cond.code, isPlain i = true)
    (h₁ : Advances st₁ st₂) (hb : Labelled st₁ st₂ body) :
    Labelled st st₂ (loopCode n cond body) := by
  have hwords : Labelled st st₁ (["whilecond", "whilebody", "endwhile"].map fun word =>
      .label (word ++ toString n)) := labelled_nextNumber hn (by decide) (by decide)
  refine (hwords.append hb (nextNumber_advances hn) h₁).perm ?_
  simp only [loopCode, labels_append, labels_eq_nil hc, labels_cons, labels_nil, labelName?,
    List.map_cons, List.map_nil, Option.toList_some, Option.toList_none, List.nil_append,
    List.append_nil]
  refine List.perm_iff_count.mpr fun name => ?_
  simp only [List.count_append, List.count_cons, List.count_nil]
  omega

/-- **A jump goes on behind its label**, where no label is repeated. -/
theorem codeBehind_of_nodup {target : String} {whole behind : List Instr} (before : List Instr)
    (h : (labels whole).Nodup) (hw : whole = before ++ .label target :: behind) :
    codeBehind target whole = some behind := by
  subst hw
  refine codeBehind_append fun hmem => ?_
  rw [labels_append, labels_cons, List.nodup_append'] at h
  exact h.2.2 hmem (by simp [labelName?])

end Lowering

end Classlet
