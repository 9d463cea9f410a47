import Classlet.Proofs.Lowering.Names
import Classlet.Proofs.Semantics.Machine
import Classlet.Proofs.Semantics.Source

/-!
# Fragments of code that compute values

A fragment of code without jumps *delivers* a computation: it traps where the computation traps, and
otherwise leaves the value where the postcondition says, in the same world.  It changes none of the
names that are known in the state it was made in, so that what earlier fragments have left in their
variables is still there (`Delivers.bind`).

`Computes` and `ComputesAll` are the specifications of lowered expressions and of lists of them: the
code delivers the values into the operands.  Fragments are put together by `Computes.cons`, which
runs one before the others, and `ComputesAll.into_temp`, which applies one more instruction to the
operands.
-/

namespace Classlet.Lowering

open Classlet.Ir Classlet.Semantics

variable {R W α β : Type}

/-- The stores agree on the names known in a state. -/
def Agree (st : State) (cells cells' : Store R) : Prop :=
  ∀ name, Known st name → cells' name = cells name

theorem Agree.refl (st : State) (cells : Store R) : Agree st cells cells := fun _ _ => rfl

theorem Agree.trans {st st₁ : State} {cells cells₁ cells₂ : Store R} (ha : Advances st st₁)
    (h : Agree st cells cells₁) (h₁ : Agree st₁ cells₁ cells₂) : Agree st cells cells₂ :=
  fun name hn => (h₁ name (hn.mono ha)).trans (h name hn)

/-- The operand is a constant or a known name. -/
def KnownOperand (st : State) (o : Operand) : Prop := ∀ name, o = .var name → Known st name

theorem KnownOperand.mono {st st₁ : State} {o : Operand} (h : KnownOperand st o)
    (ha : Advances st st₁) : KnownOperand st₁ o := fun name hn => (h name hn).mono ha

theorem Agree.read_eq {st : State} {cells cells' : Store R} {o : Operand}
    (h : Agree st cells cells') (ho : KnownOperand st o) :
    readOperand id cells' o = readOperand id cells o := by
  cases o with
  | var name => exact h name (ho name rfl)
  | const n => rfl

theorem Agree.map_read_eq {st : State} {cells cells' : Store R} {os : List Operand}
    (h : Agree st cells cells') (ho : ∀ o ∈ os, KnownOperand st o) :
    os.map (readOperand id cells') = os.map (readOperand id cells) :=
  List.map_congr_left fun o hm => h.read_eq (ho o hm)

/-! ### Delivering a computation -/

variable [DecidableEq R]

/-- Run from the given cells and world, the code does what the computation does, and in the end
`post` holds of the value and the cells. -/
def Delivers (m : Machine String R W) (st : State) (cells : Store R) (w : W) (code : List Instr)
    (x : Eval W α) (post : α → Store R → Prop) : Prop :=
  match x w with
  | (some a, w') => ∃ cells', m.runPlain code cells w = (some cells', w') ∧
    Agree st cells cells' ∧ post a cells'
  | (none, w') => m.runPlain code cells w = (none, w')

namespace Delivers

variable {m : Machine String R W} {st st₁ : State} {cells : Store R} {w : W}
  {code code₁ : List Instr} {x : Eval W α} {post : α → Store R → Prop}

theorem ret {a : α} (h : post a cells) : Delivers m st cells w [] (pure a) post :=
  ⟨cells, rfl, Agree.refl st cells, h⟩

theorem mono {post' : α → Store R → Prop} (h : Delivers m st cells w code x post)
    (hp : ∀ a cells', Agree st cells cells' → post a cells' → post' a cells') :
    Delivers m st cells w code x post' := by
  unfold Delivers at *
  rcases hx : x w with ⟨_ | a, w'⟩ <;> rw [hx] at h
  · exact h
  · obtain ⟨cells', hr, ha, hpost⟩ := h
    exact ⟨cells', hr, ha, hp a cells' ha hpost⟩

/-- **One fragment after the other.**  The second may use what the first has left. -/
theorem bind {f : α → Eval W β} {post₁ : β → Store R → Prop}
    (h : Delivers m st cells w code x post) (ha : Advances st st₁)
    (hf : ∀ a cells' w', Agree st cells cells' → post a cells' →
      Delivers m st₁ cells' w' code₁ (f a) post₁) :
    Delivers m st cells w (code ++ code₁) (x >>= f) post₁ := by
  unfold Delivers at h ⊢
  rw [Machine.runPlain_append]
  rcases hx : x w with ⟨_ | a, w'⟩ <;> rw [hx] at h
  · rw [Eval.bind_none hx, Eval.bind_none h]
  · obtain ⟨cells', hr, hag, hpost⟩ := h
    rw [Eval.bind_some hx, Eval.bind_some hr]
    have h₁ := hf a cells' w' hag hpost
    unfold Delivers at h₁
    rcases hfa : f a w' with ⟨_ | a₁, w₁⟩ <;> rw [hfa] at h₁
    · exact h₁
    · obtain ⟨cells₁, hr₁, hag₁, hpost₁⟩ := h₁
      exact ⟨cells₁, hr₁, hag.trans ha hag₁, hpost₁⟩

theorem instr {i : Instr} {x : Eval W (Value R)} {post : Value R → Store R → Prop}
    (hd : ∀ dst, i.def? = some dst → ¬ Known st dst)
    (he : effect m.world (readOperand m.loc cells) i = x) (hloc : m.loc = id)
    (hp : ∀ v, post v (m.store cells i.def? v)) : Delivers m st cells w [i] x post := by
  subst he
  unfold Delivers
  simp only [Machine.runPlain]
  rcases hx : effect m.world (readOperand m.loc cells) i w with ⟨_ | v, w'⟩
  · rw [Eval.bind_none hx]
  · refine ⟨m.store cells i.def? v, by rw [Eval.bind_some hx]; rfl, fun name hn => ?_, hp v⟩
    rcases hdef : i.def? with _ | dst
    · rfl
    · have hne : name ≠ dst := fun e => hd dst hdef (e ▸ hn)
      simp [Machine.store, hloc, hne]

end Delivers

/-! ### Declared names -/

/-- The name stands for a variable or for the receiver. -/
def Context.Declares (cx : Context) (name : String) : Prop :=
  (cx.resolve name).isSome ∨ name = thisName

/-- The cells hold the values of all declared names. -/
def Context.Matches (cx : Context) (σ cells : Store R) : Prop :=
  ∀ name, cx.Declares name → cells name = σ name

/-- All declared names are known. -/
def Context.Covers (cx : Context) (st : State) : Prop := ∀ name, cx.Declares name → Known st name

theorem Context.Covers.mono {cx : Context} {st st₁ : State} (h : cx.Covers st)
    (ha : Advances st st₁) : cx.Covers st₁ := fun name hn => (h name hn).mono ha

omit [DecidableEq R] in
theorem Context.Matches.of_agree {cx : Context} {st : State} {σ cells cells' : Store R}
    (h : cx.Matches σ cells) (hc : cx.Covers st) (ha : Agree st cells cells') :
    cx.Matches σ cells' := fun name hn => (ha name (hc name hn)).trans (h name hn)

/-! ### Code of expressions -/

/-- The code made between two states computes a value into an operand, if there is one. -/
structure Computes (cx : Context) (world : World R W) (st st' : State) (value : Option Operand)
    (code : List Instr) (x : Store R → Eval W (Value R)) : Prop where
  advances : Advances st st'
  known : ∀ o, value = some o → KnownOperand st' o
  plain : ∀ i ∈ code, isPlain i = true
  delivers : ∀ whole σ cells w, cx.Matches σ cells →
    Delivers (.named world whole) st cells w code (x σ)
      fun v cells' => ∀ o, value = some o → readOperand id cells' o = v

/-- The code made between two states computes values into operands. -/
structure ComputesAll (cx : Context) (world : World R W) (st st' : State) (os : List Operand)
    (code : List Instr) (x : Store R → Eval W (List (Value R))) : Prop where
  advances : Advances st st'
  known : ∀ o ∈ os, KnownOperand st' o
  plain : ∀ i ∈ code, isPlain i = true
  delivers : ∀ whole σ cells w, cx.Matches σ cells →
    Delivers (.named world whole) st cells w code (x σ)
      fun vs cells' => os.map (readOperand id cells') = vs

variable {cx : Context} {world : World R W} {st st₁ st₂ : State} {code code₁ : List Instr}

theorem Computes.congr {value : Option Operand} {x y : Store R → Eval W (Value R)}
    (h : Computes cx world st st₁ value code x) (he : ∀ σ, y σ = x σ) :
    Computes cx world st st₁ value code y := by
  obtain rfl : y = x := funext he
  exact h

theorem Computes.of_operand {o : Operand} {v : Store R → Value R} (hk : KnownOperand st o)
    (hv : ∀ σ cells, cx.Matches σ cells → readOperand id cells o = v σ) :
    Computes cx world st st (some o) [] fun σ => pure (v σ) where
  advances := .refl st
  known := by
    rintro _ ⟨⟩
    exact hk
  plain := by simp
  delivers _ σ cells _ hm := .ret fun _ ho => by
    cases ho
    exact hv σ cells hm

theorem ComputesAll.nil : ComputesAll cx world st st [] [] fun _ => pure [] where
  advances := .refl st
  known := by simp
  plain := by simp
  delivers _ _ _ _ _ := .ret rfl

theorem Computes.cons {o : Operand} {os : List Operand} {x : Store R → Eval W (Value R)}
    {xs : Store R → Eval W (List (Value R))} (hc : cx.Covers st)
    (h : Computes cx world st st₁ (some o) code x)
    (hs : ComputesAll cx world st₁ st₂ os code₁ xs) :
    ComputesAll cx world st st₂ (o :: os) (code ++ code₁)
      fun σ => do
        let v ← x σ
        let vs ← xs σ
        return v :: vs where
  advances := h.advances.trans hs.advances
  known := by
    intro o' ho'
    rcases List.mem_cons.mp ho' with rfl | ho'
    · exact (h.known _ rfl).mono hs.advances
    · exact hs.known o' ho'
  plain := by
    intro i hi
    rcases List.mem_append.mp hi with hi | hi
    · exact h.plain i hi
    · exact hs.plain i hi
  delivers whole σ cells w hm := by
    refine (h.delivers whole σ cells w hm).bind h.advances fun v cells₁ w₁ hag hv => ?_
    have hd := hs.delivers whole σ cells₁ w₁ (hm.of_agree hc hag)
    rw [← List.append_nil code₁]
    refine hd.bind hs.advances fun vs cells₂ w₂ hag₂ hvs => .ret ?_
    rw [List.map_cons, hvs, hag₂.read_eq (h.known o rfl), hv o rfl]

/-- **One more instruction**, which puts its result into a new temporary variable. -/
theorem ComputesAll.into_temp {os : List Operand} {xs : Store R → Eval W (List (Value R))}
    {ty : ValueType} {dst : String} {i : Instr} {f : List (Value R) → Eval W (Value R)}
    (h : ComputesAll cx world st st₁ os code xs) (ht : temp ty st₁ = .ok (dst, st₂))
    (hp : isPlain i = true) (hd : i.def? = some dst)
    (he : ∀ cells : Store R,
      effect world (readOperand id cells) i = f (os.map (readOperand id cells))) :
    Computes cx world st st₂ (some (.var dst)) (code ++ [i]) fun σ => xs σ >>= f := by
  obtain ⟨ha, hnew, hdst⟩ := temp_spec ht
  refine ⟨h.advances.trans ha, ?_, ?_, fun whole σ cells w hm => ?_⟩
  · rintro _ ⟨⟩ name ⟨⟩
    exact hdst
  · intro j hj
    rcases List.mem_append.mp hj with hj | hj
    · exact h.plain j hj
    · rw [List.mem_singleton.mp hj, hp]
  · refine (h.delivers whole σ cells w hm).bind h.advances fun vs cells₁ w₁ _ hvs => ?_
    refine .instr (fun dst' hd' => ?_) ?_ rfl fun v => ?_
    · cases hd.symm.trans hd'
      exact hnew
    · rw [← hvs]
      exact he cells₁
    · rintro _ ⟨⟩
      simp [readOperand, Machine.store, Machine.named, hd]

theorem ComputesAll.for_effect {os : List Operand} {xs : Store R → Eval W (List (Value R))}
    {i : Instr} {f : List (Value R) → Eval W (Value R)}
    (h : ComputesAll cx world st st₁ os code xs) (hp : isPlain i = true) (hd : i.def? = none)
    (he : ∀ cells : Store R,
      effect world (readOperand id cells) i = f (os.map (readOperand id cells))) :
    Computes cx world st st₁ none (code ++ [i]) fun σ => xs σ >>= f := by
  refine ⟨h.advances, by simp, ?_, fun whole σ cells w hm => ?_⟩
  · intro j hj
    rcases List.mem_append.mp hj with hj | hj
    · exact h.plain j hj
    · rw [List.mem_singleton.mp hj, hp]
  · refine (h.delivers whole σ cells w hm).bind h.advances fun vs cells₁ w₁ _ hvs => ?_
    refine .instr (by simp [hd]) ?_ rfl (by simp)
    rw [← hvs]
    exact he cells₁

end Classlet.Lowering
