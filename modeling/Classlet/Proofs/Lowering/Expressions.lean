import Classlet.Proofs.Lowering.Fragments
import Classlet.Proofs.Lowering.Types

/-!
# Lowered expressions compute their values

The code of an expression computes its value, with calls passed on by the types of their receivers
(`lowerExpr_computes`), and the type lowering works out is the one `Context.valueType` says.  One
lemma for each construct that needs several instructions: names, arrays, calls.
-/

namespace Classlet.Lowering

open Classlet.Ir Classlet.Semantics

variable {R W : Type} [DecidableEq R]
variable {cx : Context} {world : World R W} {st st₁ st₂ st' : State} {code : List Instr}

/-- Everything around a method whose calls are passed on by type. -/
def Context.setting (cx : Context) (world : World R W) : Setting R W := ⟨cx, cx.typedCalls, world⟩

/-! ### Successful steps -/

theorem loaded_ok {l : Lowered} {id : NodeId} {v : Loaded}
    (h : (liftM (l.loaded id) : Lower Loaded) st = .ok (v, st')) :
    st' = st ∧ l = ⟨some v.operand, v.ty, v.code⟩ := by
  obtain ⟨a, ha, hr⟩ := lift_ok h
  cases hr
  obtain ⟨_ | o, ty, code⟩ := l
  · cases ha
  · cases ha
    exact ⟨rfl, rfl⟩

theorem intoTemp_ok {ty : ValueType} {last : String → Instr} {l : Lowered}
    (h : intoTemp ty code last st = .ok (l, st')) :
    ∃ dst, temp ty st = .ok (dst, st') ∧ l = ⟨some (.var dst), ty, code ++ [last dst]⟩ := by
  obtain ⟨dst, st₁, hd, h⟩ := bind_ok h
  cases pure_ok h
  exact ⟨dst, hd, rfl⟩

theorem packArray_ok {elements : List Operand} {array : String} {packing : List Instr}
    (h : packArray elements st = .ok ((array, packing), st')) :
    temp .intArray st = .ok (array, st') ∧
      packing = .newArray array (.const (Int32.ofNat elements.length))
        :: storeElements array 0 elements := by
  obtain ⟨dst, st₁, hd, h⟩ := bind_ok h
  cases pure_ok h
  exact ⟨hd, rfl⟩

/-! ### Arrays -/

theorem plain_storeElements (array : String) (os : List Operand) (k : Nat) :
    ∀ i ∈ storeElements array k os, isPlain i = true := by
  induction os generalizing k with
  | nil => simp [storeElements]
  | cons o os ih =>
    intro i hi
    rcases List.mem_cons.mp hi with rfl | hi
    · rfl
    · exact ih (k + 1) i hi

/-- The stores of the elements change the world only. -/
theorem storeElements_delivers {m : Machine String R W} (hloc : m.loc = id) (array : String)
    (os : List Operand) (k : Nat) (cells : Store R) (w : W) :
    Delivers m st cells w (storeElements array k os)
      (storeFrom m.world (cells array) k (os.map (readOperand id cells)))
      fun _ cells' => cells' = cells := by
  induction os generalizing k w with
  | nil => exact .ret rfl
  | cons o os ih =>
    rw [storeElements, List.map_cons, storeFrom, ← List.singleton_append]
    have hstore : Delivers m st cells w
        [.arrayStore (.var array) (.const (Int32.ofNat k)) o]
        (m.world.perform .arrayStore
          [cells array, .word (Int32.ofNat k), readOperand id cells o])
        fun _ cells' => cells' = cells :=
      .instr (by simp [Instr.def?]) (by rw [hloc]; rfl) hloc fun _ => rfl
    refine hstore.bind (.refl st) fun _ cells₁ w₁ _ hc => ?_
    subst hc
    exact ih (k + 1) w₁

/-- **A new array with its elements.** -/
theorem packArray_delivers {m : Machine String R W} (hloc : m.loc = id) {os : List Operand}
    {array : String} {packing : List Instr}
    (h : packArray os st = .ok ((array, packing), st')) (hk : ∀ o ∈ os, KnownOperand st o)
    (cells : Store R) (w : W) :
    Delivers m st cells w packing (newArrayOf m.world (os.map (readOperand id cells)))
      fun v cells' => cells' array = v := by
  obtain ⟨ht, rfl⟩ := packArray_ok h
  obtain ⟨-, hnew, -⟩ := temp_spec ht
  rw [newArrayOf, List.length_map, ← List.singleton_append]
  have hmake : Delivers m st cells w [.newArray array (.const (Int32.ofNat os.length))]
      (m.world.perform .newArray [.word (Int32.ofNat os.length)])
      fun v cells' => cells' array = v := by
    refine .instr ?_ rfl hloc fun v => ?_
    · rintro _ ⟨⟩
      exact hnew
    · simp [Instr.def?, Machine.store, hloc]
  refine hmake.bind (.refl st) fun v cells₁ w₁ hag hv => ?_
  have hd : Delivers m st cells₁ w₁ _ _ _ := storeElements_delivers hloc array os 0 cells₁ w₁
  rw [hag.map_read_eq hk, hv] at hd
  rw [← List.append_nil (storeElements array 0 os)]
  refine hd.bind (.refl st) fun _ cells₂ w₂ _ hc => .ret ?_
  rw [hc, hv]

theorem plain_packArray {os : List Operand} {array : String} {packing : List Instr}
    (h : packArray os st = .ok ((array, packing), st')) : ∀ i ∈ packing, isPlain i = true := by
  obtain ⟨-, rfl⟩ := packArray_ok h
  intro i hi
  rcases List.mem_cons.mp hi with rfl | hi
  · rfl
  · exact plain_storeElements array os 0 i hi

theorem ComputesAll.array {os : List Operand} {xs : Store R → Eval W (List (Value R))}
    {array : String} {packing : List Instr} (h : ComputesAll cx world st st₁ os code xs)
    (hp : packArray os st₁ = .ok ((array, packing), st₂)) :
    Computes cx world st st₂ (some (.var array)) (code ++ packing)
      fun σ => xs σ >>= newArrayOf world := by
  obtain ⟨ha, hnew, hdst⟩ := temp_spec (packArray_ok hp).1
  refine ⟨h.advances.trans ha, ?_, ?_, fun whole σ cells w hm => ?_⟩
  · rintro _ ⟨⟩ name ⟨⟩
    exact hdst
  · intro i hi
    rcases List.mem_append.mp hi with hi | hi
    · exact h.plain i hi
    · exact plain_packArray hp i hi
  · refine (h.delivers whole σ cells w hm).bind h.advances fun vs cells₁ w₁ _ hvs => ?_
    have hd := packArray_delivers (m := .named world whole) rfl hp h.known cells₁ w₁
    rw [hvs] at hd
    refine hd.mono fun v cells₂ _ hv => ?_
    rintro _ ⟨⟩
    exact hv

theorem ComputesAll.pack {os : List Operand} {xs : Store R → Eval W (List (Value R))} {k : Nat}
    {array : String} {packing : List Instr} (h : ComputesAll cx world st st₁ os code xs)
    (hp : packArray (os.drop k) st₁ = .ok ((array, packing), st₂)) :
    ComputesAll cx world st st₂ (os.take k ++ [.var array]) (code ++ packing)
      fun σ => xs σ >>= fun vs => passed world vs (some k) := by
  obtain ⟨ha, hnew, hdst⟩ := temp_spec (packArray_ok hp).1
  have htake : ∀ o ∈ os.take k, KnownOperand st₁ o :=
    fun o ho => h.known o (List.mem_of_mem_take ho)
  refine ⟨h.advances.trans ha, ?_, ?_, fun whole σ cells w hm => ?_⟩
  · intro o ho
    rcases List.mem_append.mp ho with ho | ho
    · exact (htake o ho).mono ha
    · rw [List.mem_singleton.mp ho]
      rintro name ⟨⟩
      exact hdst
  · intro i hi
    rcases List.mem_append.mp hi with hi | hi
    · exact h.plain i hi
    · exact plain_packArray hp i hi
  · refine (h.delivers whole σ cells w hm).bind h.advances fun vs cells₁ w₁ _ hvs => ?_
    have hd := packArray_delivers (m := .named world whole) rfl hp
      (fun o ho => h.known o (List.mem_of_mem_drop ho)) cells₁ w₁
    rw [List.map_drop, hvs] at hd
    rw [passed, ← List.append_nil packing]
    refine hd.bind (.refl _) fun v cells₂ w₂ hag hv => .ret ?_
    have hfixed := hag.map_read_eq htake
    rw [List.map_append, hfixed, List.map_take, hvs]
    simp [readOperand, hv]

/-! ### Names -/

omit [DecidableEq R] in
theorem Context.Matches.this_eq {σ cells : Store R} (h : cx.Matches σ cells) :
    cells thisName = σ thisName := h thisName (.inr rfl)

theorem computes_this (hc : cx.Covers st) :
    Computes cx world st st (some (.var thisName)) [] fun σ => pure (σ thisName) := by
  refine .of_operand ?_ fun σ cells hm => hm.this_eq
  rintro _ ⟨⟩
  exact hc thisName (.inr rfl)

theorem computes_ownField {ty ty' : ValueType} {dst name : String} (hc : cx.Covers st)
    (ht : temp ty st = .ok (dst, st')) :
    Computes cx world st st' (some (.var dst)) [.getField dst (.var thisName) name ty']
      fun σ => world.perform (.getField name) [σ thisName] := by
  have hall : ComputesAll cx world st st _ _ _ := (computes_this hc).cons hc .nil
  refine (hall.into_temp ht rfl rfl (f := world.perform (.getField name)) fun cells => rfl).congr ?_
  intro σ
  simp

theorem lowerName_computes {hint : ValueType} {name : String} {l : Lowered} (hc : cx.Covers st)
    (h : lowerName cx name st = .ok (l, st')) :
    l.ty = cx.valueType hint (.var name) ∧
      Computes cx world st st' l.value l.code fun σ => evalName (cx.setting world) σ name := by
  unfold lowerName at h
  unfold Context.valueType evalName
  simp only [Context.setting]
  rcases hr : cx.resolve name with _ | ⟨_ | _ | _, symbol⟩ <;> simp only [hr] at h ⊢
  case none =>
    by_cases hn : name = thisName
    · rw [if_pos (by simpa using hn)] at h
      cases pure_ok h
      refine ⟨rfl, ?_⟩
      simp only [if_pos hn]
      exact computes_this hc
    · rw [if_neg (by simpa using hn)] at h
      exact absurd h fail_ne_ok
  case some.field =>
    obtain ⟨dst, ht, rfl⟩ := intoTemp_ok h
    exact ⟨rfl, computes_ownField hc ht⟩
  all_goals
    have hdecl : cx.Declares name := .inl (by simp [hr])
    cases pure_ok h
    refine ⟨rfl, .of_operand ?_ fun σ cells hm => hm name hdecl⟩
    rintro _ ⟨⟩
    exact hc name hdecl

/-! ### Calls -/

/-- What a callee takes before the arguments. -/
def Callee.operands : Callee → List Operand
  | static _ => []
  | virtual object _ => [object]

/-- What a call stands for. -/
def Callee.action (method : String) : Callee → Action
  | static className => .callStatic className method
  | virtual _ className => .callVirtual className method

theorem effect_invoke (callee : Callee) (method : String) (dst : Option String)
    (args : List Operand) (ty : ValueType) (read : Operand → Value R) :
    effect world read (callee.invoke method dst args ty)
      = world.perform (callee.action method) ((callee.operands ++ args).map read) := by
  cases callee <;> rfl

theorem plain_invoke (callee : Callee) (method : String) (dst : Option String)
    (args : List Operand) (ty : ValueType) :
    isPlain (callee.invoke method dst args ty) = true := by
  cases callee <;> rfl

theorem def?_invoke (callee : Callee) (method : String) (dst : Option String)
    (args : List Operand) (ty : ValueType) : (callee.invoke method dst args ty).def? = dst := by
  cases callee <;> rfl

/-- **The instruction of a call**, whether it has a result or not. -/
theorem invoke_computes (callee : Callee) {method : String} {os : List Operand} {ty : ValueType}
    {xs : Store R → Eval W (List (Value R))} {l : Lowered}
    (h : ComputesAll cx world st st₁ (callee.operands ++ os) code xs)
    (hl : (if ty.isVoid then pure ⟨none, ty, code ++ [callee.invoke method none os ty]⟩
      else intoTemp ty code fun dst => callee.invoke method (some dst) os ty : Lower Lowered) st₁
        = .ok (l, st')) :
    l.ty = ty ∧ Computes cx world st st' l.value l.code
      fun σ => xs σ >>= world.perform (callee.action method) := by
  split at hl
  · cases pure_ok hl
    exact ⟨rfl, h.for_effect (plain_invoke ..) (def?_invoke ..) fun cells => effect_invoke ..⟩
  · obtain ⟨dst, ht, rfl⟩ := intoTemp_ok hl
    exact ⟨rfl, h.into_temp ht (plain_invoke ..) (def?_invoke ..) fun cells => effect_invoke ..⟩

theorem packArguments_ok {m : Option Signature} {args : List Loaded} {os : List Operand}
    {packing : List Instr} (h : packArguments m args st = .ok ((os, packing), st')) :
    (packedBy? m (args.map (·.ty)) = none ∧ st' = st ∧ os = args.map (·.operand) ∧ packing = []) ∨
    ∃ k array, packedBy? m (args.map (·.ty)) = some k ∧
      packArray ((args.map (·.operand)).drop k) st = .ok ((array, packing), st') ∧
      os = (args.map (·.operand)).take k ++ [.var array] := by
  cases hpacked : packedBy? m (args.map (·.ty)) with
  | none =>
    rw [packArguments_of_none hpacked] at h
    cases pure_ok h
    exact .inl ⟨rfl, rfl, rfl, rfl⟩
  | some k =>
    rw [packArguments_of_some hpacked] at h
    obtain ⟨⟨array, code⟩, st₁, ha, h⟩ := bind_ok h
    cases pure_ok h
    exact .inr ⟨k, array, rfl, ha, rfl⟩

/-- **The arguments of a call**, packed as their types say. -/
theorem packArguments_computes {m : Option Signature} {args : List Loaded} {es : List Expr}
    {os : List Operand} {packing : List Instr} {xs : Store R → Eval W (List (Value R))}
    (h : ComputesAll cx world st st₁ (args.map (·.operand)) (codeOf args) xs)
    (htys : args.map (·.ty) = cx.valueTypes (argumentHints m) es)
    (hp : packArguments m args st₁ = .ok ((os, packing), st₂)) :
    ComputesAll cx world st st₂ os (codeOf args ++ packing)
      fun σ => xs σ >>= fun vs => passed world vs (cx.packedFrom? m es) := by
  rw [cx.packedFrom?_eq, ← htys]
  rcases packArguments_ok hp with ⟨hnone, rfl, rfl, rfl⟩ | ⟨k, array, hsome, ha, rfl⟩
  · simpa [hnone, passed] using h
  · rw [hsome]
    exact h.pack ha

/-! ### Expressions -/

/-- What lowering makes of the node of an expression: its type, and code that computes its value. -/
def LowersRight (cx : Context) (world : World R W) (e : Expr) : Prop :=
  ∀ (i : NodeId) (p : Position) (cs : List Subtree) (hint : ValueType) (st : State) (l : Lowered)
    (st' : State), List.Forall₂ Subtree.IsExpr cs e.parts → cx.Covers st →
    lowerExpr cx hint (.node i e.kind p (cs.map fun c _ => c.toShape)) st = .ok (l, st') →
    l.ty = cx.valueType hint e ∧
      Computes cx world st st' l.value l.code fun σ => eval (cx.setting world) σ e

theorem LowersRight.of_isExpr {e : Expr} (h : LowersRight cx world e) {b : Subtree}
    {hint : ValueType} {l : Lowered} (hb : b.IsExpr e) (hc : cx.Covers st)
    (hl : lowerExpr cx hint b.toShape st = .ok (l, st')) :
    l.ty = cx.valueType hint e ∧
      Computes cx world st st' l.value l.code fun σ => eval (cx.setting world) σ e := by
  obtain ⟨i, p, cs, rfl, hcs⟩ := Subtree.isExpr_iff.mp hb
  rw [Subtree.toShape_node] at hl
  exact h i p cs hint st l st' hcs hc hl

/-- An expression whose value is needed by what follows. -/
theorem LowersRight.load_ok {α : Type} {e : Expr} (h : LowersRight cx world e) {b : Subtree}
    {hint : ValueType} {id : NodeId} {f : Loaded → Lower α} {r : α × State} (hb : b.IsExpr e)
    (hc : cx.Covers st)
    (hr : (lowerExpr cx hint b.toShape >>= fun l => liftM (l.loaded id) >>= f) st = .ok r) :
    ∃ v st₁, v.ty = cx.valueType hint e ∧
      Computes cx world st st₁ (some v.operand) v.code (fun σ => eval (cx.setting world) σ e) ∧
      f v st₁ = .ok r := by
  obtain ⟨l, st₁, hl, hr₁⟩ := bind_ok hr
  obtain ⟨v, st₂, hv, hr₂⟩ := bind_ok hr₁
  obtain ⟨rfl, rfl⟩ := loaded_ok hv
  obtain ⟨hty, hcomp⟩ := h.of_isExpr hb hc hl
  exact ⟨v, st₂, hty, hcomp, hr₂⟩

/-- **One operand, and one plain instruction on its value into a new temporary.**  The type of the
temporary may depend on that of the operand. -/
theorem LowersRight.into_temp {e : Expr} (he : LowersRight cx world e) (ty : ValueType → ValueType)
    (last : Loaded → String → Instr) {f : List (Value R) → Eval W (Value R)} {b : Subtree}
    {hint : ValueType} {i : NodeId} {l : Lowered} (hb : b.IsExpr e) (hc : cx.Covers st)
    (hplain : ∀ v dst, isPlain (last v dst) = true)
    (hdef : ∀ v dst, (last v dst).def? = some dst)
    (heffect : ∀ v dst (cells : Store R), effect world (readOperand id cells) (last v dst)
      = f [readOperand id cells v.operand])
    (h : (lowerExpr cx hint b.toShape >>= fun l => liftM (l.loaded i) >>= fun v =>
      intoTemp (ty v.ty) v.code (last v)) st = .ok (l, st')) :
    l.ty = ty (cx.valueType hint e) ∧
      Computes cx world st st' l.value l.code
        fun σ => eval (cx.setting world) σ e >>= fun v => f [v] := by
  obtain ⟨v, st₁, hty, hv, h⟩ := he.load_ok hb hc h
  obtain ⟨dst, ht, rfl⟩ := intoTemp_ok h
  have hall := hv.cons hc .nil
  rw [List.append_nil] at hall
  rw [← hty]
  refine ⟨rfl, (hall.into_temp ht (hplain v dst) (hdef v dst) (heffect v dst)).congr fun σ => ?_⟩
  simp

/-- **Two operands, and one plain instruction on their values into a new temporary.** -/
theorem LowersRight.pair_into_temp {e₁ e₂ : Expr} (h₁ : LowersRight cx world e₁)
    (h₂ : LowersRight cx world e₂) (ty : ValueType → ValueType)
    (last : Loaded → Loaded → String → Instr) {f : List (Value R) → Eval W (Value R)}
    {b₁ b₂ : Subtree} {hint₁ : ValueType} {hint₂ : Loaded → ValueType} {i j : NodeId} {l : Lowered}
    (hb₁ : b₁.IsExpr e₁) (hb₂ : b₂.IsExpr e₂) (hc : cx.Covers st)
    (hplain : ∀ v₁ v₂ dst, isPlain (last v₁ v₂ dst) = true)
    (hdef : ∀ v₁ v₂ dst, (last v₁ v₂ dst).def? = some dst)
    (heffect : ∀ v₁ v₂ dst (cells : Store R), effect world (readOperand id cells) (last v₁ v₂ dst)
      = f [readOperand id cells v₁.operand, readOperand id cells v₂.operand])
    (h : (lowerExpr cx hint₁ b₁.toShape >>= fun l₁ => liftM (l₁.loaded i) >>= fun v₁ =>
      lowerExpr cx (hint₂ v₁) b₂.toShape >>= fun l₂ => liftM (l₂.loaded j) >>= fun v₂ =>
      intoTemp (ty v₁.ty) (v₁.code ++ v₂.code) (last v₁ v₂)) st = .ok (l, st')) :
    l.ty = ty (cx.valueType hint₁ e₁) ∧
      Computes cx world st st' l.value l.code
        fun σ => eval (cx.setting world) σ e₁ >>= fun a =>
          eval (cx.setting world) σ e₂ >>= fun b => f [a, b] := by
  obtain ⟨v₁, st₁, hty, hv₁, h⟩ := h₁.load_ok hb₁ hc h
  have hc₁ := hc.mono hv₁.advances
  obtain ⟨v₂, st₂, -, hv₂, h⟩ := h₂.load_ok hb₂ hc₁ h
  obtain ⟨dst, ht, rfl⟩ := intoTemp_ok h
  have hall := hv₁.cons hc (hv₂.cons hc₁ .nil)
  rw [List.append_nil] at hall
  rw [← hty]
  refine ⟨rfl, (hall.into_temp ht (hplain v₁ v₂ dst) (hdef v₁ v₂ dst)
    (heffect v₁ v₂ dst)).congr fun σ => ?_⟩
  simp

/-- **Expressions from left to right.** -/
theorem lowerArgs_computes {es : List Expr} (hes : ∀ e ∈ es, LowersRight cx world e) :
    ∀ {cs : List Subtree} {hints : List ValueType} {st st' : State} {args : List Loaded},
      List.Forall₂ Subtree.IsExpr cs es → cx.Covers st →
      lowerArgs cx hints (cs.map fun c _ => c.toShape) st = .ok (args, st') →
      args.map (·.ty) = cx.valueTypes hints es ∧
        ComputesAll cx world st st' (args.map (·.operand)) (codeOf args)
          fun σ => evalAll (cx.setting world) σ es := by
  induction es with
  | nil =>
    intro cs hints st st' args hcs hc h
    cases hcs
    cases pure_ok h
    exact ⟨rfl, .nil⟩
  | cons e es ih =>
    intro cs hints st st' args hcs hc h
    obtain ⟨c, cs, hce, hrest, rfl⟩ := List.forall₂_cons_right_iff.mp hcs
    simp only [List.map_cons, lowerArgs] at h
    obtain ⟨v, st₁, hty, hcomp, h⟩ := (hes e (by simp)).load_ok hce hc h
    obtain ⟨rest, st₂, hr, h⟩ := bind_ok h
    cases pure_ok h
    obtain ⟨htys, hall⟩ := ih (fun e he => hes e (by simp [he])) hrest (hc.mono hcomp.advances) hr
    refine ⟨by simp [Context.valueTypes, hty, htys], ?_⟩
    have hcons := hcomp.cons hc hall
    simpa only [evalAll, List.map_cons, codeOf, List.flatMap_cons] using hcons

theorem finishCall_static {className method : String} {hint : ValueType} {args : List Loaded}
    {xs : Store R → Eval W (List (Value R))} {l : Lowered}
    (h : ComputesAll cx world st st₁ (args.map (·.operand)) (codeOf args) xs)
    (hl : finishCall cx method hint (.static className) [] args st₁ = .ok (l, st')) :
    l.ty = hint ∧ Computes cx world st st' l.value l.code
      fun σ => xs σ >>= world.perform (.callStatic className method) := by
  unfold finishCall at hl
  obtain ⟨⟨os, packing⟩, st₂, hp, hl₁⟩ := bind_ok hl
  cases pure_ok hp
  simp only [List.nil_append, List.append_nil] at hl₁
  exact invoke_computes (.static className) h hl₁

theorem finishCall_virtual {o : Operand} {owner : ValueType} {method : String} {hint : ValueType}
    {args : List Loaded} {es : List Expr} {x : Store R → Eval W (Value R)}
    {xs : Store R → Eval W (List (Value R))} {l : Lowered} (hc : cx.Covers st)
    (ho : Computes cx world st st₁ (some o) code x)
    (h : ComputesAll cx world st₁ st₂ (args.map (·.operand)) (codeOf args) xs)
    (htys : args.map (·.ty)
      = cx.valueTypes (argumentHints (cx.declaredOn? owner method)) es)
    (hl : finishCall cx method hint (.virtual o (ownerName owner)) code args st₂ = .ok (l, st')) :
    l.ty = resultType (cx.declaredOn? owner method) hint ∧
      Computes cx world st st' l.value l.code (fun σ => do
        let object ← x σ
        let values ← xs σ
        let values ← passed world values (cx.packedFrom? (cx.declaredOn? owner method) es)
        world.perform (.callVirtual (ownerName owner) method) (object :: values)) := by
  have hsig : Callee.signature? cx method (.virtual o (ownerName owner))
      = cx.declaredOn? owner method := rfl
  unfold finishCall at hl
  rw [hsig] at hl
  obtain ⟨⟨os, packing⟩, st₃, hp, hl₁⟩ := bind_ok hl
  have hall := ho.cons hc (packArguments_computes h htys hp)
  rw [← List.append_assoc] at hall
  obtain ⟨hty, hcomp⟩ := invoke_computes (.virtual o (ownerName owner)) hall hl₁
  refine ⟨hty, hcomp.congr fun σ => ?_⟩
  simp [Callee.action]

/-- An operator of two operands, given their values. -/
def binaryOn (op : BinaryOp) : List (Value R) → Eval W (Value R)
  | [a, b] => .ofOption (applyBinary op a b)
  | _ => .trap

/-- An operator of one operand, given its value. -/
def unaryOn (op : UnaryOp) : List (Value R) → Eval W (Value R)
  | [a] => .ofOption (applyUnary op a)
  | _ => .trap

/-- Whatever is expected of the left operand is found without a step. -/
theorem lowerExpr_binary_ok {op : BinaryOp} {hint : ValueType} {i : NodeId} {p : Position}
    {lhs rhs : Unit → Shape} {rest : Shapes} {l : Lowered}
    (h : lowerExpr cx hint (.node i (.binary op) p (lhs :: rhs :: rest)) st = .ok (l, st')) :
    ∃ lhsHint, (lowerExpr cx lhsHint (lhs ()) >>= fun l₁ =>
      liftM (l₁.loaded (lhs ()).id) >>= fun v₁ =>
      lowerExpr cx ((operandHint? op).getD v₁.ty) (rhs ()) >>= fun l₂ =>
      liftM (l₂.loaded (rhs ()).id) >>= fun v₂ =>
      intoTemp (binaryType op) (v₁.code ++ v₂.code) fun dst =>
        .binary dst op v₁.operand v₂.operand) st = .ok (l, st') := by
  simp only [lowerExpr] at h
  cases ho : operandHint? op with
  | none =>
    rw [ho] at h
    obtain ⟨known, st₁, hk, h⟩ := bind_ok h
    obtain ⟨_, -, hst⟩ := lift_ok hk
    cases hst
    exact ⟨_, h⟩
  | some ty =>
    rw [ho] at h
    exact ⟨_, h⟩

theorem lowersRight_binary (op : BinaryOp) {lhs rhs : Expr} (hl : LowersRight cx world lhs)
    (hr : LowersRight cx world rhs) : LowersRight cx world (.binary op lhs rhs) := by
  intro i p cs hint st l st' hcs hc h
  obtain ⟨bl, br, rfl, hbl, hbr⟩ := Subtree.forall₂_two hcs
  rw [Expr.kind, List.map_cons, List.map_cons] at h
  obtain ⟨lhsHint, h⟩ := lowerExpr_binary_ok h
  simp only [eval, Context.valueType]
  exact hl.pair_into_temp hr (fun _ => binaryType op)
    (fun v₁ v₂ dst => .binary dst op v₁.operand v₂.operand) (f := binaryOn op) hbl hbr hc
    (fun _ _ _ => rfl) (fun _ _ _ => rfl) (fun _ _ _ _ => rfl) h

theorem lowersRight_unary (op : UnaryOp) {e : Expr} (he : LowersRight cx world e) :
    LowersRight cx world (.unary op e) := by
  intro i p cs hint st l st' hcs hc h
  obtain ⟨c, rfl, hce⟩ := Subtree.forall₂_one hcs
  simp only [Expr.kind, List.map_cons, lowerExpr] at h
  simp only [eval, Context.valueType]
  exact he.into_temp (fun _ => unaryType op) (fun v dst => .unary dst op v.operand)
    (f := unaryOn op) hce hc (fun _ _ => rfl) (fun _ _ => rfl) (fun _ _ _ => rfl) h

theorem lowersRight_call (method : String) {receiver : Expr} {args : List Expr}
    (hr : LowersRight cx world receiver) (ha : ∀ e ∈ args, LowersRight cx world e) :
    LowersRight cx world (.call receiver method args) := by
  intro i p cs hint st l st' hcs hc h
  obtain ⟨c, ds, hce, hds, rfl⟩ := List.forall₂_cons_right_iff.mp hcs
  simp only [Expr.kind, List.map_cons, lowerExpr] at h
  rw [importedReceiver?_eq cx hce] at h
  rcases hi : importName? cx receiver with _ | className <;> rw [hi] at h
  · have h₁ : (liftM (cx.receiverHint c.toShape) >>= fun hint' =>
        lowerExpr cx hint' c.toShape >>= fun l => liftM (l.loaded c.toShape.id) >>= fun v =>
        lowerArgs cx (argumentHints (cx.declaredOn? v.ty method)) (ds.map fun c _ => c.toShape)
          >>= finishCall cx method hint (.virtual v.operand (ownerName v.ty)) v.code) st
        = .ok (l, st') := h
    rw [receiverHint_eq cx hce] at h₁
    obtain ⟨v, st₁, hty, hv, h₂⟩ := hr.load_ok hce hc h₁
    obtain ⟨loaded, st₂, hl, h₃⟩ := bind_ok h₂
    obtain ⟨htys, hall⟩ := lowerArgs_computes ha hds (hc.mono hv.advances) hl
    obtain ⟨hty', hcomp⟩ := finishCall_virtual hc hv hall htys h₃
    simp only [Context.valueType, hi, eval, Context.setting]
    rw [hty', hty]
    refine ⟨rfl, hcomp.congr fun σ => ?_⟩
    rw [hty]
    rfl
  · have h₁ : (lowerArgs cx [] (ds.map fun c _ => c.toShape)
        >>= finishCall cx method hint (.static className) []) st = .ok (l, st') := h
    obtain ⟨loaded, st₁, hl, h₂⟩ := bind_ok h₁
    obtain ⟨htys, hall⟩ := lowerArgs_computes ha hds hc hl
    obtain ⟨hty, hcomp⟩ := finishCall_static hall h₂
    simp only [Context.valueType, hi, eval, Context.setting]
    exact ⟨hty, hcomp⟩

theorem lowersRight_field (name : String) {object : Expr} (he : LowersRight cx world object) :
    LowersRight cx world (.field object name) := by
  intro i p cs hint st l st' hcs hc h
  obtain ⟨c, rfl, hce⟩ := Subtree.forall₂_one hcs
  simp only [Expr.kind, List.map_cons, lowerExpr] at h
  rw [receiverHint_eq cx hce] at h
  simp only [eval, Context.valueType]
  exact he.into_temp (fieldType cx name · hint)
    (fun v dst => .getField dst v.operand name (fieldType cx name v.ty hint))
    (f := world.perform (.getField name)) hce hc (fun _ _ => rfl) (fun _ _ => rfl)
    (fun _ _ _ => rfl) h

theorem lowersRight_index {array position : Expr} (ha : LowersRight cx world array)
    (hp : LowersRight cx world position) : LowersRight cx world (.index array position) := by
  intro i p cs hint st l st' hcs hc h
  obtain ⟨ba, bp, rfl, hba, hbp⟩ := Subtree.forall₂_two hcs
  simp only [Expr.kind, List.map_cons, lowerExpr] at h
  simp only [eval, Context.valueType]
  exact ha.pair_into_temp hp elementType
    (fun v₁ v₂ dst => .arrayLoad dst v₁.operand v₂.operand) (f := world.perform .arrayLoad) hba hbp
    hc (fun _ _ _ => rfl) (fun _ _ _ => rfl) (fun _ _ _ _ => rfl) h

theorem lowersRight_length {array : Expr} (he : LowersRight cx world array) :
    LowersRight cx world (.length array) := by
  intro i p cs hint st l st' hcs hc h
  obtain ⟨c, rfl, hce⟩ := Subtree.forall₂_one hcs
  simp only [Expr.kind, List.map_cons, lowerExpr] at h
  simp only [eval, Context.valueType]
  exact he.into_temp (fun _ => .int) (fun v dst => .arrayLength dst v.operand)
    (f := world.perform .arrayLength) hce hc (fun _ _ => rfl) (fun _ _ => rfl) (fun _ _ _ => rfl) h

theorem lowersRight_newArray {size : Expr} (he : LowersRight cx world size) :
    LowersRight cx world (.newArray size) := by
  intro i p cs hint st l st' hcs hc h
  obtain ⟨c, rfl, hce⟩ := Subtree.forall₂_one hcs
  simp only [Expr.kind, List.map_cons, lowerExpr] at h
  simp only [eval, Context.valueType]
  exact he.into_temp (fun _ => .intArray) (fun v dst => .newArray dst v.operand)
    (f := world.perform .newArray) hce hc (fun _ _ => rfl) (fun _ _ => rfl) (fun _ _ _ => rfl) h

theorem lowersRight_arrayLit {elements : List Expr} (he : ∀ e ∈ elements, LowersRight cx world e) :
    LowersRight cx world (.arrayLit elements) := by
  intro i p cs hint st l st' hcs hc h
  simp only [Expr.kind, lowerExpr] at h
  obtain ⟨loaded, st₁, hl, h⟩ := bind_ok h
  obtain ⟨-, hall⟩ := lowerArgs_computes he hcs hc hl
  obtain ⟨⟨array, packing⟩, st₂, hp, h⟩ := bind_ok h
  cases pure_ok h
  refine ⟨rfl, (hall.array hp).congr fun σ => ?_⟩
  simp [eval, Context.setting]

theorem lowersRight_newObject (className : String) :
    LowersRight cx world (.newObject className) := by
  intro i p cs hint st l st' hcs hc h
  simp only [Expr.kind, lowerExpr] at h
  obtain ⟨dst, _, ht, h⟩ := bind_ok h
  cases pure_ok h
  have hnil : ComputesAll cx world st st [] [] _ := .nil
  have hmake := hnil.into_temp (i := .newObject dst className) ht rfl rfl
    (f := world.perform (.newObject className)) fun cells => rfl
  refine ⟨rfl, hmake.advances, hmake.known, by simp [isPlain], fun whole σ cells w hm => ?_⟩
  have hd := hmake.delivers whole σ cells w hm
  rw [pure_bind] at hd
  simp only [eval, Context.setting]
  refine hd.bind hmake.advances fun object cells₁ w₁ _ hobject => ?_
  have hinit : Delivers (.named world whole) st' cells₁ w₁
      [.invokeSpecial (.var dst) className "<init>"]
      (world.perform (.construct className "<init>") [object])
      fun _ cells' => cells' = cells₁ := by
    refine .instr (by simp [Instr.def?]) ?_ rfl fun _ => rfl
    rw [← hobject _ rfl]
    rfl
  rw [← List.append_nil [_]]
  refine hinit.bind (.refl st') fun _ cells₂ w₂ _ hcells => .ret ?_
  rw [hcells]
  exact hobject

/-- **The code of an expression computes its value.** -/
theorem lowerExpr_computes (cx : Context) (world : World R W) (e : Expr) :
    LowersRight cx world e := by
  induction e with
  | int n | bool v =>
    intro i p cs hint st l st' hcs hc h
    simp only [Expr.kind, lowerExpr] at h
    cases pure_ok h
    exact ⟨rfl, .of_operand (by rintro _ ⟨⟩) fun _ _ _ => rfl⟩
  | var name =>
    intro i p cs hint st l st' hcs hc h
    simp only [Expr.kind, lowerExpr] at h
    exact lowerName_computes hc h
  | this =>
    intro i p cs hint st l st' hcs hc h
    simp only [Expr.kind, lowerExpr] at h
    cases pure_ok h
    exact ⟨rfl, computes_this hc⟩
  | paren inner ih =>
    intro i p cs hint st l st' hcs hc h
    obtain ⟨c, rfl, hce⟩ := Subtree.forall₂_one hcs
    rw [Expr.kind, List.map_cons, lowerExpr_paren] at h
    simp only [eval_paren]
    exact ih.of_isExpr hce hc h
  | binary op lhs rhs ihl ihr => exact lowersRight_binary op ihl ihr
  | unary op e ih => exact lowersRight_unary op ih
  | call receiver method args ihr iha => exact lowersRight_call method ihr iha
  | field object name ih => exact lowersRight_field name ih
  | index array position iha ihp => exact lowersRight_index iha ihp
  | length array ih => exact lowersRight_length ih
  | newArray size ih => exact lowersRight_newArray ih
  | arrayLit elements ih => exact lowersRight_arrayLit ih
  | newObject className => exact lowersRight_newObject className

end Classlet.Lowering
