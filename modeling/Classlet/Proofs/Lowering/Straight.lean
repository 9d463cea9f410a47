import Classlet.Proofs.Analysis.FailFast
import Classlet.Proofs.Lowering.Bodies

/-!
# Straight code

Whatever the tree, an expression becomes *straight* code: plain instructions, of which each either
changes no variable but a declared one or fills the temporary variable made just before it, and
reads only declared variables and what the straight code itself has written (`Straight`).  After it
the operand of the expression can be read (`Prepares`).  Properties of such code are then proved by
induction on `Straight`, without a look at the trees.

Main statement: `lowerExpr_prepares`, for every shape.
-/

namespace Classlet.Lowering

open Classlet.Ir Classlet.Semantics

/-! ### Straight code -/

/-- The names of the variables declared around a method, which no temporary variable gets. -/
def Context.reserved (cx : Context) : List String := cx.start.names.reserved

/-- The names given out so far keep clear of the declared ones. -/
def Context.Reserves (cx : Context) (st : State) : Prop := st.names.reserved = cx.reserved

/-- The variable is declared or written by the code. -/
def Readable (cx : Context) (code : List Instr) (x : String) : Prop :=
  x ∈ cx.reserved ∨ x ∈ code.filterMap Instr.def?

/-- Code without jumps that is emitted between two states. -/
inductive Straight (cx : Context) : State → List Instr → State → Prop
  | nil {st : State} (h : cx.Reserves st) : Straight cx st [] st
  /-- An instruction that leaves the temporary variables as they are. -/
  | effect {st st' : State} {code : List Instr} {i : Instr} (h : Straight cx st code st')
      (hp : isPlain i = true) (hd : ∀ x, i.def? = some x → x ∈ cx.reserved)
      (hu : ∀ x, .var x ∈ i.uses → Readable cx code x) : Straight cx st (code ++ [i]) st'
  /-- An instruction that fills a new temporary variable. -/
  | temp {st st₁ st' : State} {code : List Instr} {i : Instr} {ty : ValueType} {dst : String}
      (h : Straight cx st code st₁) (ht : temp ty st₁ = .ok (dst, st')) (hd : i.def? = some dst)
      (hu : ∀ x, .var x ∈ i.uses → Readable cx code x) : Straight cx st (code ++ [i]) st'

variable {cx : Context} {st st₁ st₂ st₃ st' : State} {a b code : List Instr}

theorem Context.Reserves.mono (h : cx.Reserves st) (ha : Advances st st') : cx.Reserves st' :=
  ha.reserved_eq.trans h

theorem Readable.append_left {x : String} (h : Readable cx a x) : Readable cx (a ++ b) x :=
  h.imp_right fun hx => by rw [List.filterMap_append]; exact List.mem_append_left _ hx

theorem Readable.append_right {x : String} (h : Readable cx b x) : Readable cx (a ++ b) x :=
  h.imp_right fun hx => by rw [List.filterMap_append]; exact List.mem_append_right _ hx

theorem isPlain_of_def? {i : Instr} {x : String} (h : i.def? = some x) : isPlain i = true := by
  cases i <;> first | rfl | cases h

namespace Straight

theorem advances (h : Straight cx st code st') : Advances st st' := by
  induction h with
  | nil => exact .refl _
  | effect _ _ _ _ ih => exact ih
  | temp _ ht _ _ ih => exact ih.trans (temp_spec ht).1

theorem reserves (h : Straight cx st code st') : cx.Reserves st := by
  induction h with
  | nil h => exact h
  | effect _ _ _ _ ih | temp _ _ _ _ ih => exact ih

theorem reserves_end (h : Straight cx st code st') : cx.Reserves st' := h.reserves.mono h.advances

theorem plain (h : Straight cx st code st') : ∀ i ∈ code, isPlain i = true := by
  induction h with
  | nil => exact List.forall_mem_nil _
  | effect _ hp _ _ ih => exact List.forall_mem_append.mpr ⟨ih, List.forall_mem_singleton.mpr hp⟩
  | temp _ _ hd _ ih =>
    exact List.forall_mem_append.mpr ⟨ih, List.forall_mem_singleton.mpr (isPlain_of_def? hd)⟩

theorem append (h : Straight cx st a st₁) (h' : Straight cx st₁ b st') :
    Straight cx st (a ++ b) st' := by
  -- along the second part, since code grows at its end
  induction h' with
  | nil =>
    rw [List.append_nil]
    exact h
  | effect _ hp hd hu ih =>
    rw [← List.append_assoc]
    exact .effect ih hp hd fun x hx => (hu x hx).append_right
  | temp _ ht hd hu ih =>
    rw [← List.append_assoc]
    exact .temp ih ht hd fun x hx => (hu x hx).append_right

end Straight

/-! ### Straight code for operands -/

/-- Straight code after which some operands can be read. -/
structure Prepares (cx : Context) (st : State) (os : List Operand) (code : List Instr)
    (st' : State) : Prop where
  straight : Straight cx st code st'
  readable : ∀ x, .var x ∈ os → Readable cx code x

namespace Prepares

variable {os os' : List Operand} {i : Instr}

theorem nil (h : cx.Reserves st) : Prepares cx st [] [] st := ⟨.nil h, fun _ hx => by cases hx⟩

theorem const (h : cx.Reserves st) (n : Int32) : Prepares cx st [.const n] [] st :=
  ⟨.nil h, fun _ hx => by simp at hx⟩

theorem var (h : cx.Reserves st) {x : String} (hx : x ∈ cx.reserved) :
    Prepares cx st [.var x] [] st := by
  refine ⟨.nil h, fun y hy => .inl ?_⟩
  cases List.mem_singleton.mp hy
  exact hx

theorem mono (h : Prepares cx st os code st') (hsub : os' ⊆ os) : Prepares cx st os' code st' :=
  ⟨h.straight, fun x hx => h.readable x (hsub hx)⟩

theorem append (h : Prepares cx st os a st₁) (h' : Prepares cx st₁ os' b st') :
    Prepares cx st (os ++ os') (a ++ b) st' := by
  refine ⟨h.straight.append h'.straight, fun x hx => ?_⟩
  rcases List.mem_append.mp hx with hx | hx
  · exact (h.readable x hx).append_left
  · exact (h'.readable x hx).append_right

theorem effect (h : Prepares cx st os code st') (hp : isPlain i = true)
    (hd : ∀ x, i.def? = some x → x ∈ cx.reserved) (hu : ∀ x, .var x ∈ i.uses → .var x ∈ os) :
    Prepares cx st os (code ++ [i]) st' :=
  ⟨h.straight.effect hp hd fun x hx => h.readable x (hu x hx),
    fun x hx => (h.readable x hx).append_left⟩

theorem temp {ty : ValueType} {dst : String} (h : Prepares cx st os code st₁)
    (ht : temp ty st₁ = .ok (dst, st')) (hd : i.def? = some dst)
    (hu : ∀ x, .var x ∈ i.uses → .var x ∈ os) :
    Prepares cx st (.var dst :: os) (code ++ [i]) st' := by
  refine ⟨h.straight.temp ht hd fun x hx => h.readable x (hu x hx), fun x hx => ?_⟩
  rcases List.mem_cons.mp hx with hx | hx
  · cases hx
    exact .inr (by simp [hd])
  · exact (h.readable x hx).append_left

theorem intoTemp {ty : ValueType} {last : String → Instr} {l : Lowered}
    (h : Prepares cx st os code st₁) (hl : intoTemp ty code last st₁ = .ok (l, st'))
    (hd : ∀ dst, (last dst).def? = some dst)
    (hu : ∀ dst x, .var x ∈ (last dst).uses → .var x ∈ os) :
    Prepares cx st l.value.toList l.code st' := by
  obtain ⟨dst, ht, rfl⟩ := intoTemp_ok hl
  exact (h.temp ht (hd dst) (hu dst)).mono (by simp)

end Prepares

/-! ### Names, arrays and calls -/

theorem thisName_mem_reserved (cx : Context) : thisName ∈ cx.reserved :=
  List.mem_append_right _ (List.mem_singleton.mpr rfl)

theorem mem_reserved_of_declared {x : String} (h : cx.Declared x) : x ∈ cx.reserved := by
  obtain ⟨s, hs, rfl⟩ := h
  exact List.mem_append_left _ (List.mem_map_of_mem (List.mem_append_left _ hs))

theorem prepares_ownField {ty ty' : ValueType} {dst name : String} (hr : cx.Reserves st)
    (ht : temp ty st = .ok (dst, st')) :
    Prepares cx st [.var dst] [.getField dst (.var thisName) name ty'] st' :=
  ((Prepares.var hr (thisName_mem_reserved cx)).temp (i := .getField dst (.var thisName) name ty')
    ht rfl fun _ hx => hx).mono (by simp)

theorem lowerName_prepares {name : String} {l : Lowered} (hr : cx.Reserves st)
    (h : lowerName cx name st = .ok (l, st')) : Prepares cx st l.value.toList l.code st' := by
  unfold lowerName at h
  rcases hn : cx.resolve name with _ | ⟨_ | _ | _, symbol⟩ <;> simp only [hn] at h
  case none =>
    split at h
    · cases pure_ok h
      exact .var hr (thisName_mem_reserved cx)
    · exact absurd h fail_ne_ok
  case some.field =>
    obtain ⟨dst, ht, rfl⟩ := intoTemp_ok h
    exact prepares_ownField hr ht
  all_goals
    cases pure_ok h
    exact .var hr (mem_reserved_of_declared (cx.declared_of_resolve hn (by decide)))

theorem storeElements_prepares {array : String} {os values : List Operand}
    (h : Prepares cx st os code st') (ha : .var array ∈ os) (hv : values ⊆ os) (k : Nat) :
    Prepares cx st os (code ++ storeElements array k values) st' := by
  induction values generalizing code k with
  | nil => rwa [storeElements, List.append_nil]
  | cons v values ih =>
    rw [List.cons_subset] at hv
    rw [storeElements, List.append_cons]
    refine ih (h.effect rfl (by simp [Instr.def?]) fun x hx => ?_) hv.2 (k + 1)
    simp only [Instr.uses, List.mem_cons, reduceCtorEq, List.not_mem_nil, or_false, false_or] at hx
    rcases hx with hx | hx
    · rwa [hx]
    · exact hx ▸ hv.1

theorem packArray_prepares {os values : List Operand} {array : String} {packing : List Instr}
    (h : Prepares cx st os code st₁) (hv : values ⊆ os)
    (hp : packArray values st₁ = .ok ((array, packing), st')) :
    Prepares cx st (.var array :: os) (code ++ packing) st' := by
  obtain ⟨ht, rfl⟩ := packArray_ok hp
  rw [List.append_cons]
  exact storeElements_prepares (h.temp ht rfl (by simp [Instr.uses])) List.mem_cons_self
    (List.subset_cons_of_subset _ hv) 0

theorem packArguments_prepares {m : Option Signature} {args : List Loaded}
    {os os' : List Operand} {packing : List Instr}
    (h : Prepares cx st (os ++ args.map (·.operand)) code st₁)
    (hp : packArguments m args st₁ = .ok ((os', packing), st')) :
    Prepares cx st (os ++ os') (code ++ packing) st' := by
  rcases packArguments_ok hp with ⟨-, rfl, rfl, rfl⟩ | ⟨k, array, -, ha, rfl⟩
  · rwa [List.append_nil]
  · have hdrop : (args.map (·.operand)).drop k ⊆ os ++ args.map (·.operand) :=
      List.subset_append_of_subset_right _ (List.drop_subset k _)
    refine (packArray_prepares h hdrop ha).mono ?_
    have htake : (args.map (·.operand)).take k ⊆ args.map (·.operand) := List.take_subset k _
    intro o ho
    simp only [List.mem_append, List.mem_cons, List.not_mem_nil, or_false] at ho ⊢
    rcases ho with ho | ho | ho
    · exact .inr (.inl ho)
    · exact .inr (.inr (htake ho))
    · exact .inl ho

theorem finishCall_prepares (callee : Callee) {method : String} {hint : ValueType}
    {args : List Loaded} {l : Lowered}
    (h : Prepares cx st (callee.operands ++ args.map (·.operand)) (code ++ codeOf args) st₁)
    (hl : finishCall cx method hint callee code args st₁ = .ok (l, st')) :
    Prepares cx st l.value.toList l.code st' := by
  unfold finishCall at hl
  obtain ⟨⟨os, packing⟩, st₂, hp, hl⟩ := bind_ok hl
  have hall := packArguments_prepares h hp
  simp only at hl
  split at hl
  · cases pure_ok hl
    exact (hall.effect (plain_invoke ..) (by simp [def?_invoke]) (by simp [uses_invoke])).mono
      (by simp)
  · exact hall.intoTemp hl (fun dst => def?_invoke ..) (by simp [uses_invoke])

/-! ### Expressions -/

/-- Lowering the expression emits straight code for its value. -/
def LowersStraight (cx : Context) (s : Shape) : Prop :=
  ∀ (hint : ValueType) (st : State) (l : Lowered) (st' : State), cx.Reserves st →
    lowerExpr cx hint s st = .ok (l, st') → Prepares cx st l.value.toList l.code st'

theorem LowersStraight.load_ok {α : Type} {s : Shape} {hint : ValueType} {id : NodeId}
    {f : Loaded → Lower α} {r : α × State} (hs : LowersStraight cx s) (hr : cx.Reserves st)
    (h : (lowerExpr cx hint s >>= fun l => liftM (l.loaded id) >>= f) st = .ok r) :
    ∃ v st₁, Prepares cx st [v.operand] v.code st₁ ∧ f v st₁ = .ok r := by
  obtain ⟨l, st₁, hl, h⟩ := bind_ok h
  obtain ⟨v, st₂, hv, h⟩ := bind_ok h
  obtain ⟨rfl, rfl⟩ := loaded_ok hv
  exact ⟨v, st₂, hs hint st _ _ hr hl, h⟩

theorem lowerArgs_prepares {children : Shapes} (ih : ∀ c ∈ children, LowersStraight cx (c ()))
    {hints : List ValueType} {args : List Loaded} (hr : cx.Reserves st)
    (h : lowerArgs cx hints children st = .ok (args, st')) :
    Prepares cx st (args.map (·.operand)) (codeOf args) st' := by
  induction children generalizing hints args st with
  | nil =>
    rw [lowerArgs] at h
    cases pure_ok h
    exact .nil hr
  | cons c rest ihrest =>
    rw [List.forall_mem_cons] at ih
    rw [lowerArgs] at h
    obtain ⟨v, st₁, hv, h⟩ := ih.1.load_ok hr h
    obtain ⟨more, st₂, hmore, h⟩ := bind_ok h
    cases pure_ok h
    exact hv.append (ihrest ih.2 hv.straight.reserves_end hmore)

theorem LowersStraight.intoTemp {s : Shape} {hint : ValueType} {id : NodeId} {l : Lowered}
    {ty : Loaded → ValueType} {last : Loaded → String → Instr} (hs : LowersStraight cx s)
    (hr : cx.Reserves st) (hd : ∀ v dst, (last v dst).def? = some dst)
    (hu : ∀ v dst, (last v dst).uses = [v.operand])
    (h : (lowerExpr cx hint s >>= fun l => liftM (l.loaded id) >>= fun v =>
      Lowering.intoTemp (ty v) v.code (last v)) st = .ok (l, st')) :
    Prepares cx st l.value.toList l.code st' := by
  obtain ⟨v, st₁, hv, h⟩ := hs.load_ok hr h
  exact hv.intoTemp h (hd v) (by simp [hu])

theorem lowersStraight_binary {id : NodeId} {op : BinaryOp} {p : Position} {children : Shapes}
    (ih : ∀ c ∈ children, LowersStraight cx (c ())) :
    LowersStraight cx (.node id (.binary op) p children) := by
  intro hint st l st' hr h
  rcases children with _ | ⟨lhs, _ | ⟨rhs, rest⟩⟩
  · simp only [lowerExpr] at h
    exact absurd h fail_ne_ok
  · simp only [lowerExpr] at h
    exact absurd h fail_ne_ok
  simp only [List.forall_mem_cons] at ih
  obtain ⟨lhsHint, h⟩ := lowerExpr_binary_ok h
  obtain ⟨v₁, st₁, hv₁, h⟩ := ih.1.load_ok hr h
  obtain ⟨v₂, st₂, hv₂, h⟩ := ih.2.1.load_ok hv₁.straight.reserves_end h
  exact (hv₁.append hv₂).intoTemp h (fun _ => rfl) (by simp [Instr.uses])

theorem lowersStraight_index {id : NodeId} {p : Position} {children : Shapes}
    (ih : ∀ c ∈ children, LowersStraight cx (c ())) :
    LowersStraight cx (.node id .arrayAccess p children) := by
  intro hint st l st' hr h
  rcases children with _ | ⟨array, _ | ⟨index, rest⟩⟩ <;> simp only [lowerExpr] at h
  · exact absurd h fail_ne_ok
  · rw [List.forall_mem_singleton] at ih
    obtain ⟨v, st₁, -, h⟩ := ih.load_ok hr h
    exact absurd h fail_ne_ok
  simp only [List.forall_mem_cons] at ih
  obtain ⟨v₁, st₁, hv₁, h⟩ := ih.1.load_ok hr h
  obtain ⟨v₂, st₂, hv₂, h⟩ := ih.2.1.load_ok hv₁.straight.reserves_end h
  exact (hv₁.append hv₂).intoTemp h (fun _ => rfl) (by simp [Instr.uses])

theorem lowersStraight_call {id : NodeId} {method : String} {p : Position} {children : Shapes}
    (ih : ∀ c ∈ children, LowersStraight cx (c ())) :
    LowersStraight cx (.node id (.methodCall method) p children) := by
  intro hint st l st' hr h
  rcases children with _ | ⟨receiver, args⟩ <;> simp only [lowerExpr] at h
  · exact absurd h fail_ne_ok
  rw [List.forall_mem_cons] at ih
  obtain ⟨imported, st₀, hi, h⟩ := bind_ok h
  obtain ⟨_, -, hst⟩ := lift_ok hi
  cases hst
  rcases imported with _ | className
  · obtain ⟨receiverHint, st₀, hh, h⟩ := bind_ok h
    obtain ⟨_, -, hst⟩ := lift_ok hh
    cases hst
    obtain ⟨v, st₁, hv, h⟩ := ih.1.load_ok hr h
    obtain ⟨loaded, st₂, hl, h⟩ := bind_ok h
    exact finishCall_prepares (.virtual v.operand (ownerName v.ty))
      (hv.append (lowerArgs_prepares ih.2 hv.straight.reserves_end hl)) h
  · obtain ⟨loaded, st₁, hl, h⟩ := bind_ok h
    have hargs : Prepares cx st ((Callee.static className).operands ++ loaded.map (·.operand))
      ([] ++ codeOf loaded) st₁ := lowerArgs_prepares ih.2 hr hl
    exact finishCall_prepares (.static className) hargs h

theorem lowersStraight_arrayLit {id : NodeId} {p : Position} {children : Shapes}
    (ih : ∀ c ∈ children, LowersStraight cx (c ())) :
    LowersStraight cx (.node id .arrayLit p children) := by
  intro hint st l st' hr h
  simp only [lowerExpr] at h
  obtain ⟨elements, st₁, hl, h⟩ := bind_ok h
  obtain ⟨⟨array, packing⟩, st₂, hp, h⟩ := bind_ok h
  cases pure_ok h
  exact (packArray_prepares (lowerArgs_prepares ih hr hl) (List.Subset.refl _) hp).mono (by simp)

theorem lowersStraight_newObject {id : NodeId} {className : String} {p : Position}
    {children : Shapes} : LowersStraight cx (.node id (.newObject className) p children) := by
  intro hint st l st' hr h
  simp only [lowerExpr] at h
  obtain ⟨dst, _, ht, h⟩ := bind_ok h
  cases pure_ok h
  have hmake := (Prepares.nil hr).temp (i := .newObject dst className) ht rfl (by simp [Instr.uses])
  exact hmake.effect (i := .invokeSpecial (.var dst) className "<init>") rfl (by simp [Instr.def?])
    fun _ hx => hx

/-- **Expressions become straight code.** -/
theorem lowerExpr_prepares (cx : Context) (s : Shape) : LowersStraight cx s := by
  induction s using Shape.ind with
  | broken id fault =>
    intro hint st l st' hr h
    rw [lowerExpr] at h
    cases h
  | node id kind p children ih =>
    cases kind with
    | binary op => exact lowersStraight_binary ih
    | methodCall method => exact lowersStraight_call ih
    | arrayAccess => exact lowersStraight_index ih
    | arrayLit => exact lowersStraight_arrayLit ih
    | newObject className => exact lowersStraight_newObject
    | intLit value | boolLit value =>
      intro hint st l st' hr h
      simp only [lowerExpr] at h
      cases pure_ok h
      exact .const hr _
    | this =>
      intro hint st l st' hr h
      simp only [lowerExpr] at h
      cases pure_ok h
      exact .var hr (thisName_mem_reserved cx)
    | varRef name =>
      intro hint st l st' hr h
      simp only [lowerExpr] at h
      exact lowerName_prepares hr h
    | paren =>
      intro hint st l st' hr h
      rcases children with _ | ⟨c, rest⟩ <;> simp only [lowerExpr] at h
      · exact absurd h fail_ne_ok
      · exact ih c List.mem_cons_self hint st l st' hr h
    | fieldAccess field =>
      intro hint st l st' hr h
      rcases children with _ | ⟨c, rest⟩ <;> simp only [lowerExpr] at h
      · exact absurd h fail_ne_ok
      obtain ⟨receiverHint, st₀, hh, h⟩ := bind_ok h
      obtain ⟨_, -, hst⟩ := lift_ok hh
      cases hst
      exact (ih c List.mem_cons_self).intoTemp hr (fun _ _ => rfl) (fun _ _ => rfl) h
    | unary op | arrayLength | newArray =>
      intro hint st l st' hr h
      rcases children with _ | ⟨c, rest⟩ <;> simp only [lowerExpr] at h
      · exact absurd h fail_ne_ok
      · exact (ih c List.mem_cons_self).intoTemp hr (fun _ _ => rfl) (fun _ _ => rfl) h
    | _ =>
      intro hint st l st' hr h
      simp only [lowerExpr] at h
      exact absurd h fail_ne_ok

end Classlet.Lowering
