import Classlet.Proofs.Ir.VarTable
import Classlet.Proofs.Lowering.Emission
import Classlet.Proofs.Lowering.Meaning

/-!
# Temporary variables of lowered code

The table of a lowered method starts with the receiver, the parameters and the local variables, and
goes on with the temporary variables in the order in which they are made (`Makes`).  Each of these
has a name of its own, is written by one instruction only, and is read only behind that instruction
with neither label nor jump in between (`ReadsLocally`, `BlockLocal`).

Main statement: `lower_temporaries`, for every tree and every table.
-/

namespace Classlet

theorem eraseDups_of_nodup {l : List String} (h : l.Nodup) : l.eraseDups = l := by
  induction l with
  | nil => rfl
  | cons a l ih =>
    rw [List.nodup_cons] at h
    have hfilter : l.filter (fun b => !b == a) = l := by
      refine List.filter_eq_self.mpr fun b hb => ?_
      have hne : b ≠ a := fun e => h.1 (e ▸ hb)
      simpa using hne
    rw [List.eraseDups_cons, hfilter, ih h.2]

namespace Ir.VarTable

/-! ### Tables of several symbols -/

/-- Symbols are entered in their order, each name where it comes first. -/
theorem names_foldl_insert {t : VarTable} (h : t.InOrder) (symbols : List Symbol) :
    (symbols.foldl (fun vars s => (vars.insert s.name (.ofTy s.ty)).2) t).names
      = (t.names ++ symbols.map (·.name)).eraseDups := by
  induction symbols generalizing t with
  | nil => rw [List.foldl_nil, List.map_nil, List.append_nil, eraseDups_of_nodup h.nodup]
  | cons s symbols ih =>
    rw [List.foldl_cons, ih (h.insert _ _), names_insert, List.map_cons]
    split
    · next hc =>
      rw [contains_iff_mem_names] at hc
      rw [List.eraseDups_append, List.eraseDups_append]
      simp [List.removeAll, hc]
    · rw [← List.append_cons]

theorem InOrder.foldl_insert {t : VarTable} (h : t.InOrder) (symbols : List Symbol) :
    (symbols.foldl (fun vars s => (vars.insert s.name (.ofTy s.ty)).2) t).InOrder :=
  List.foldlRecOn symbols _ h fun _ ht s _ => ht.insert s.name (.ofTy s.ty)

end Ir.VarTable

namespace Lowering

open Ir Semantics

variable {cx : Context} {st st₁ st' : State} {a b code : List Instr} {x : String}

/-! ### Temporary variables in the order in which they are made -/

/-- The variables of a method itself: the receiver unless it is static, the parameters and the local
variables. -/
def Context.own (cx : Context) : List String :=
  (if cx.signature.isStatic then [] else [thisName])
    ++ (cx.signature.params ++ cx.signature.locals).map (·.name)

/-- The variables that some code writes and that are not declared around it. -/
def Context.temporaries (cx : Context) (code : List Instr) : List String :=
  (code.filterMap Instr.def?).filter (· ∉ cx.reserved)

/-- The table is in order, and its names are reserved or made before. -/
structure Tidy (st : State) : Prop where
  inOrder : st.vars.InOrder
  known : ∀ x ∈ st.vars.names, Known st x

/-- Temporary variables of the given names are made between two states, one after the other. -/
structure Makes (st : State) (names : List String) (st' : State) : Prop where
  advances : Advances st st'
  numbered : ∃ ks : List Nat, names = ks.map (fun k => "tmp" ++ toString k) ∧
    ks.Pairwise (· < ·) ∧ ∀ k ∈ ks, st.names.peek "tmp" ≤ k ∧ k < st'.names.peek "tmp"
  table : Tidy st → Tidy st' ∧ st'.vars.names = st.vars.names ++ names

theorem Makes.of_vars_eq (ha : Advances st st') (hv : st'.vars = st.vars) : Makes st [] st' where
  advances := ha
  numbered := ⟨[], rfl, .nil, fun _ hk => by cases hk⟩
  table h := by
    rw [List.append_nil, hv]
    exact ⟨⟨hv ▸ h.inOrder, fun x hx => (h.known x (hv ▸ hx)).mono ha⟩, rfl⟩

theorem Makes.append {names names' : List String} (h : Makes st names st₁)
    (h' : Makes st₁ names' st') : Makes st (names ++ names') st' where
  advances := h.advances.trans h'.advances
  numbered := by
    obtain ⟨ks, rfl, hks, hb⟩ := h.numbered
    obtain ⟨ks', rfl, hks', hb'⟩ := h'.numbered
    have hle := h.advances.peek_le "tmp"
    have hle' := h'.advances.peek_le "tmp"
    refine ⟨ks ++ ks', List.map_append.symm, ?_, fun k hk => ?_⟩
    · refine List.pairwise_append.mpr ⟨hks, hks', fun k hk k' hk' => ?_⟩
      exact Nat.lt_of_lt_of_le (hb k hk).2 (hb' k' hk').1
    · rcases List.mem_append.mp hk with hk | hk
      · exact ⟨(hb k hk).1, Nat.lt_of_lt_of_le (hb k hk).2 hle'⟩
      · exact ⟨Nat.le_trans hle (hb' k hk).1, (hb' k hk).2⟩
  table ht := by
    obtain ⟨ht₁, hn⟩ := h.table ht
    obtain ⟨ht', hn'⟩ := h'.table ht₁
    exact ⟨ht', by rw [hn', hn, List.append_assoc]⟩

/-- **A temporary variable gets the next place in the table.** -/
theorem makes_temp {ty : ValueType} {dst : String} (h : temp ty st = .ok (dst, st')) :
    Makes st [dst] st' := by
  obtain ⟨ha, hnew, hknown⟩ := temp_spec h
  have hvars : st'.vars = (st.vars.insert dst ty).2 := by
    cases h
    rfl
  refine ⟨ha, ?_, fun ht => ⟨⟨hvars ▸ ht.inOrder.insert dst ty, fun x hx => ?_⟩, ?_⟩⟩
  · obtain hr | ⟨k, hk, rfl⟩ := hknown
    · exact absurd (.inl (ha.reserved_eq ▸ hr)) hnew
    · refine ⟨[k], rfl, List.pairwise_singleton _ _, fun j hj => ?_⟩
      cases List.mem_singleton.mp hj
      exact ⟨Nat.le_of_not_lt fun hlt => hnew (.inr ⟨k, hlt, rfl⟩), hk⟩
  · rw [hvars, VarTable.mem_names_insert] at hx
    rcases hx with hx | rfl
    · exact (ht.known x hx).mono ha
    · exact hknown
  · have hc : ¬ st.vars.contains dst = true := fun hc =>
      hnew (ht.known dst ((VarTable.contains_iff_mem_names ..).mp hc))
    rw [hvars, VarTable.names_insert, if_neg hc]

theorem makes_nextNumber {stem : String} {n : Nat} (h : nextNumber stem st = .ok (n, st')) :
    Makes st [] st' := by
  refine .of_vars_eq (nextNumber_advances h) ?_
  cases h
  rfl

theorem Makes.nodup {names : List String} (h : Makes st names st') : names.Nodup := by
  obtain ⟨ks, rfl, hks, -⟩ := h.numbered
  exact (hks.imp Nat.ne_of_lt).map _ fun _ _ hne e => hne (numbered_injective e)

@[simp]
theorem Context.temporaries_append (cx : Context) (a b : List Instr) :
    cx.temporaries (a ++ b) = cx.temporaries a ++ cx.temporaries b := by
  simp [temporaries]

theorem Context.temporaries_singleton_of_reserved {i : Instr}
    (h : ∀ x, i.def? = some x → x ∈ cx.reserved) : cx.temporaries [i] = [] := by
  cases hd : i.def? with
  | none => simp [temporaries, hd]
  | some x => simp [temporaries, hd, h x hd]

theorem Context.temporaries_singleton_of_new {i : Instr} (hd : i.def? = some x)
    (h : x ∉ cx.reserved) : cx.temporaries [i] = [x] := by
  simp [temporaries, hd, h]

/-- **Straight code writes the temporary variables in the order in which they are made.** -/
theorem Straight.makes (h : Straight cx st code st') : Makes st (cx.temporaries code) st' := by
  induction h with
  | nil => exact .of_vars_eq (.refl _) rfl
  | effect _ _ hd _ ih =>
    rwa [cx.temporaries_append, Context.temporaries_singleton_of_reserved hd, List.append_nil]
  | temp h ht hd _ ih =>
    have hnew := (temp_spec ht).2.1
    have hres := h.reserves_end
    rw [cx.temporaries_append,
      Context.temporaries_singleton_of_new hd fun hx => hnew (.inl (hres ▸ hx))]
    exact ih.append (makes_temp ht)

theorem temporaries_conditionalCode (cx : Context) (n : Nat) (cond : Loaded)
    (body otherwise : List Instr) : cx.temporaries (conditionalCode n cond body otherwise)
      = cx.temporaries cond.code ++ (cx.temporaries body ++ cx.temporaries otherwise) := by
  simp [conditionalCode, Context.temporaries, List.filterMap_cons, Instr.def?]

theorem temporaries_loopCode (cx : Context) (n : Nat) (cond : Loaded) (body : List Instr) :
    cx.temporaries (loopCode n cond body) = cx.temporaries cond.code ++ cx.temporaries body := by
  simp [loopCode, Context.temporaries, List.filterMap_cons, Instr.def?]

theorem Emits.makes (h : Emits cx st code st') : Makes st (cx.temporaries code) st' := by
  induction h with
  | straight h => exact h.makes
  | ret h =>
    rw [cx.temporaries_append, Context.temporaries_singleton_of_reserved (by simp [Instr.def?]),
      List.append_nil]
    exact h.straight.makes
  | append _ _ ih ih' =>
    rw [cx.temporaries_append]
    exact ih.append ih'
  | conditional hn hc _ _ ihb iho =>
    rw [temporaries_conditionalCode]
    exact (makes_nextNumber hn).append (hc.straight.makes.append (ihb.append iho))
  | loop hn hc _ ihb =>
    rw [temporaries_loopCode]
    exact (makes_nextNumber hn).append (hc.straight.makes.append ihb)

/-! ### Reads -/

/-- The variable is written by the code, with neither label nor jump behind. -/
def Recent (code : List Instr) (x : String) : Prop :=
  ∃ front i block, code = front ++ i :: block ∧ i.def? = some x ∧ ∀ j ∈ block, isPlain j = true

/-- Every instruction reads declared variables and recent ones only. -/
def ReadsLocally (cx : Context) (code : List Instr) : Prop :=
  ∀ before i after, code = before ++ i :: after →
    ∀ x, .var x ∈ i.uses → x ∈ cx.reserved ∨ Recent before x

theorem Recent.append_right (h : Recent b x) : Recent (a ++ b) x := by
  obtain ⟨front, i, block, rfl, hd, hp⟩ := h
  exact ⟨a ++ front, i, block, by rw [List.append_assoc], hd, hp⟩

theorem recent_of_plain (hp : ∀ i ∈ code, isPlain i = true) (h : x ∈ code.filterMap Instr.def?) :
    Recent code x := by
  obtain ⟨i, hi, hd⟩ := List.mem_filterMap.mp h
  obtain ⟨front, block, rfl⟩ := List.append_of_mem hi
  exact ⟨front, i, block, rfl, hd, fun j hj => hp j (by simp [hj])⟩

namespace ReadsLocally

theorem of_uses_eq_nil (h : ∀ i ∈ code, i.uses = []) : ReadsLocally cx code := by
  rintro before i after rfl x hx
  rw [h i (by simp)] at hx
  cases hx

theorem append_of_recent (ha : ReadsLocally cx a) (hb : ∀ before i after,
    b = before ++ i :: after → ∀ x, .var x ∈ i.uses → x ∈ cx.reserved ∨ Recent (a ++ before) x) :
    ReadsLocally cx (a ++ b) := by
  intro before i after hcode x hx
  rcases List.append_eq_append_iff.mp hcode with ⟨front, rfl, hrest⟩ | ⟨back, rfl, hrest⟩
  · exact hb front i after hrest x hx
  · rcases back with _ | ⟨j, back⟩
    -- the instruction is the first one of the second part
    · have hlast := hb [] i after hrest.symm x hx
      simpa using hlast
    · cases hrest
      exact ha before i back rfl x hx

theorem append (ha : ReadsLocally cx a) (hb : ReadsLocally cx b) : ReadsLocally cx (a ++ b) :=
  ha.append_of_recent fun before i after hcode x hx =>
    (hb before i after hcode x hx).imp_right .append_right

theorem concat {i : Instr} (h : ReadsLocally cx code)
    (hi : ∀ x, .var x ∈ i.uses → x ∈ cx.reserved ∨ Recent code x) :
    ReadsLocally cx (code ++ [i]) := by
  refine h.append_of_recent fun before j after hcode x hx => ?_
  rcases before with _ | ⟨_, before⟩
  · cases hcode
    rw [List.append_nil]
    exact hi x hx
  · simp at hcode

end ReadsLocally

theorem Readable.recent (h : Straight cx st code st') (hx : Readable cx code x) :
    x ∈ cx.reserved ∨ Recent code x := hx.imp_right (recent_of_plain h.plain)

theorem Straight.readsLocally (h : Straight cx st code st') : ReadsLocally cx code := by
  induction h with
  | nil => exact .of_uses_eq_nil (List.forall_mem_nil _)
  | effect h _ _ hu ih | temp h _ _ hu ih => exact ih.concat fun x hx => (hu x hx).recent h

theorem Prepares.readsLocally_concat {os : List Operand} {i : Instr}
    (h : Prepares cx st os code st') (hi : i.uses = os) : ReadsLocally cx (code ++ [i]) :=
  h.straight.readsLocally.concat fun x hx => (h.readable x (hi ▸ hx)).recent h.straight

theorem Prepares.readsLocally_test {o : Operand} (h : Prepares cx st [o] code st')
    (target other : String) :
    ReadsLocally cx (code ++ [.jumpIf o target, .jump other, .label target]) := by
  have htest := (h.readsLocally_concat (i := .jumpIf o target) rfl).append
    (b := [.jump other, .label target]) (.of_uses_eq_nil (by simp [Instr.uses]))
  rwa [List.append_assoc] at htest

/-- **Lowered code reads a temporary variable only in the block that writes it.** -/
theorem Emits.readsLocally (h : Emits cx st code st') : ReadsLocally cx code := by
  induction h with
  | straight h => exact h.readsLocally
  | ret h => exact h.readsLocally_concat rfl
  | append _ _ ih ih' => exact ih.append ih'
  | conditional _ hc _ _ ihb iho =>
    refine ((((hc.readsLocally_test _ _).append ihb).append ?_).append iho).append ?_ <;>
      exact .of_uses_eq_nil (by simp [Instr.uses])
  | loop _ hc _ ihb =>
    simp only [loopCode]
    rw [List.append_assoc [_]]
    refine ((ReadsLocally.append ?_ (hc.readsLocally_test _ _)).append ihb).append ?_ <;>
      exact .of_uses_eq_nil (by simp [Instr.uses])

/-! ### One place for each temporary variable -/

/-- The instruction at place `p` is the only one that writes the variable, and those that read it
come behind, with neither label nor jump in between. -/
structure BlockLocal (code : List Instr) (x : String) (p : Nat) : Prop where
  writes_iff : ∀ q : Nat, code[q]?.bind Instr.def? = some x ↔ q = p
  reads : ∀ (q : Nat) (i : Instr), code[q]? = some i → .var x ∈ i.uses →
    p < q ∧ ∀ (r : Nat) (j : Instr), p < r → r < q → code[r]? = some j → isPlain j = true

/-- Of variables that are written once each, every one has its place. -/
theorem exists_writes_iff (h : (cx.temporaries code).Nodup) (hx : x ∈ cx.temporaries code) :
    ∃ p, ∀ q : Nat, code[q]?.bind Instr.def? = some x ↔ q = p := by
  obtain ⟨hdef, hfree⟩ := List.mem_filter.mp hx
  obtain ⟨i, hi, hd⟩ := List.mem_filterMap.mp hdef
  obtain ⟨front, back, rfl⟩ := List.append_of_mem hi
  -- a second write would repeat the name among the temporary variables
  have hmem : ∀ (part : List Instr) (q : Nat), part[q]?.bind Instr.def? = some x →
      x ∈ cx.temporaries part := by
    intro part q hq
    obtain ⟨j, hj, hjd⟩ := Option.bind_eq_some_iff.mp hq
    exact List.mem_filter.mpr
      ⟨List.mem_filterMap.mpr ⟨j, List.mem_of_getElem? hj, hjd⟩, hfree⟩
  rw [← List.singleton_append, cx.temporaries_append, cx.temporaries_append,
    Context.temporaries_singleton_of_new hd (by simpa using hfree), List.singleton_append,
    List.nodup_middle, List.nodup_cons, List.mem_append, not_or] at h
  obtain ⟨⟨hfront, hback⟩, -⟩ := h
  refine ⟨front.length, fun q => ⟨fun hq => ?_, ?_⟩⟩
  · rcases Nat.lt_trichotomy q front.length with hlt | rfl | hlt
    · rw [List.getElem?_append_left hlt] at hq
      exact absurd (hmem front q hq) hfront
    · rfl
    · rw [List.getElem?_append_right (Nat.le_of_lt hlt), List.getElem?_cons,
        if_neg (Nat.sub_ne_zero_of_lt hlt)] at hq
      exact absurd (hmem back _ hq) hback
  · rintro rfl
    simpa using hd

theorem ReadsLocally.blockLocal {p : Nat} (h : ReadsLocally cx code) (hx : x ∉ cx.reserved)
    (hp : ∀ q : Nat, code[q]?.bind Instr.def? = some x ↔ q = p) : BlockLocal code x p := by
  refine ⟨hp, fun q i hi hread => ?_⟩
  obtain ⟨hq, rfl⟩ := List.getElem?_eq_some_iff.mp hi
  have hsplit : code = code.take q ++ code[q] :: code.drop (q + 1) := by
    rw [List.getElem_cons_drop, List.take_append_drop]
  obtain ⟨front, w, block, hw, hd, hplain⟩ := (h _ _ _ hsplit x hread).resolve_left hx
  have hlen := congrArg List.length hw
  rw [List.length_take_of_le (Nat.le_of_lt hq), List.length_append, List.length_cons] at hlen
  have hget : ∀ r, r < q → code[r]? = (front ++ w :: block)[r]? := by
    intro r hr
    rw [← hw, List.getElem?_take_of_lt hr]
  -- the write that the read goes back to is the only one
  obtain rfl : front.length = p := by
    rw [← hp, hget _ (by omega)]
    simpa using hd
  refine ⟨by omega, fun r j hpr hrq hj => ?_⟩
  rw [hget r hrq, List.getElem?_append_right (Nat.le_of_lt hpr)] at hj
  obtain ⟨s, hs⟩ := Nat.exists_eq_add_of_lt hpr
  rw [hs, show front.length + s + 1 - front.length = s + 1 by omega,
    List.getElem?_cons_succ] at hj
  exact hplain j (List.mem_of_getElem? hj)

/-! ### Methods -/

theorem inOrder_start (cx : Context) : cx.start.vars.InOrder := by
  unfold Context.start
  refine VarTable.InOrder.foldl_insert ?_ _
  split
  · exact .empty
  · exact .insert .empty _ _

theorem names_start (cx : Context) : cx.start.vars.names = cx.own.eraseDups := by
  unfold Context.start Context.own
  simp only
  split
  · rw [VarTable.names_foldl_insert .empty]
    rfl
  · rw [VarTable.names_foldl_insert (.insert .empty _ _)]
    rfl

theorem own_subset_reserved (cx : Context) : cx.own ⊆ cx.reserved := by
  intro x hx
  rcases List.mem_append.mp hx with hx | hx
  · split at hx
    · cases hx
    · cases List.mem_singleton.mp hx
      exact thisName_mem_reserved cx
  · obtain ⟨s, hs, rfl⟩ := List.mem_map.mp hx
    exact mem_reserved_of_declared ⟨s, hs, rfl⟩

theorem tidy_start (cx : Context) : Tidy cx.start := by
  refine ⟨inOrder_start cx, fun x hx => .inl ?_⟩
  rw [names_start, List.mem_eraseDups] at hx
  exact own_subset_reserved cx hx

theorem temporaries_endWithReturn (cx : Context) (ty : ValueType) (code : List Instr) :
    cx.temporaries (endWithReturn ty code) = cx.temporaries code := by
  unfold endWithReturn
  split
  · rw [cx.temporaries_append, Context.temporaries_singleton_of_reserved (by simp [Instr.def?]),
      List.append_nil]
  · rfl

theorem ReadsLocally.endWithReturn (h : ReadsLocally cx code) (ty : ValueType) :
    ReadsLocally cx (endWithReturn ty code) := by
  unfold Lowering.endWithReturn
  split
  · exact h.concat (by simp [Instr.uses])
  · exact h

/-- The table of a lowered method: its own variables, each where it comes first, then the temporary
ones in the order in which they are made and written. -/
structure Tabled (cx : Context) (m : MethodCode) : Prop where
  inOrder : m.vars.InOrder
  names_eq : m.vars.names = cx.own.eraseDups ++ cx.temporaries m.instructions
  numbered : ∃ ks : List Nat, ks.Pairwise (· < ·) ∧
    cx.temporaries m.instructions = ks.map fun k => "tmp" ++ toString k

theorem tabled_of_lowerMethod {members : Shapes} {m : MethodCode}
    (h : lowerMethod cx members = .ok m) : Tabled cx m := by
  obtain ⟨body, final, hbody, -, hcode, hvars⟩ := emits_of_lowerMethod h
  obtain ⟨hfinal, hnames⟩ := hbody.makes.table (tidy_start cx)
  obtain ⟨ks, hks, hlt, -⟩ := hbody.makes.numbered
  have htemps : cx.temporaries m.instructions = cx.temporaries body := by
    rw [hcode, temporaries_endWithReturn]
  exact ⟨hvars ▸ hfinal.inOrder, by rw [hvars, hnames, names_start, htemps],
    ks, hlt, htemps.trans hks⟩

theorem exists_blockLocal {members : Shapes} {m : MethodCode}
    (h : lowerMethod cx members = .ok m) (hx : x ∈ cx.temporaries m.instructions) :
    ∃ p, BlockLocal m.instructions x p := by
  obtain ⟨body, final, hbody, -, hcode, -⟩ := emits_of_lowerMethod h
  have hnodup : (cx.temporaries m.instructions).Nodup := by
    rw [hcode, temporaries_endWithReturn]
    exact hbody.makes.nodup
  have hreads : ReadsLocally cx m.instructions := by
    rw [hcode]
    exact hbody.readsLocally.endWithReturn _
  obtain ⟨p, hp⟩ := exists_writes_iff hnodup hx
  exact ⟨p, hreads.blockLocal (by simpa using (List.mem_filter.mp hx).2) hp⟩

/-- **Temporary variables are fresh, written once, and read in the block that writes them.**
Whatever the tree and the table, the table of every lowered method is in order; and a variable of it
that is neither the receiver nor a parameter nor a local variable has no name of a declaration, is
written by one instruction, and is read only behind it with neither label nor jump in between. -/
theorem lower_temporaries {t : Tree} {table : SymbolTable} {code : ClassCode}
    (h : t.lower table = .ok code) {k : Nat} {m : MethodCode} (hm : code.methods[k]? = some m) :
    ∃ s, table.signatures[k]? = some s ∧ Tabled ⟨table, s⟩ m ∧
      ∀ x ∈ m.vars.names, x ∉ Context.own ⟨table, s⟩ →
        (x ≠ thisName ∧ ∀ v ∈ s.params ++ s.locals ++ table.fields, v.name ≠ x) ∧
          ∃ p, BlockLocal m.instructions x p := by
  obtain ⟨s, members, hs, hl⟩ := exists_of_lower h hm
  have htable := tabled_of_lowerMethod hl
  refine ⟨s, hs, htable, fun x hx hown => ?_⟩
  rw [htable.names_eq, List.mem_append, List.mem_eraseDups] at hx
  have htemp := hx.resolve_left hown
  refine ⟨?_, exists_blockLocal hl htemp⟩
  have hfree : x ∉ Context.reserved ⟨table, s⟩ := by simpa using (List.mem_filter.mp htemp).2
  refine ⟨fun hthis => hfree (hthis ▸ thisName_mem_reserved _), ?_⟩
  rintro v hv rfl
  exact hfree (List.mem_append_left _ (List.mem_map_of_mem hv))

/-- A class whose declarations have names of the kind temporary variables get. -/
def crowdedUnit : Program where
  imports := []
  classes := [{
    name := "Crowded"
    superclass := none
    fields := [("tmp1", ⟨"int", false, false⟩)]
    methods := [{
      name := "run"
      isPublic := true
      isStatic := false
      returnType := some ⟨"int", false, false⟩
      params := [("tmp0", ⟨"int", false, false⟩)]
      locals := [("tmp3", ⟨"int", false, false⟩)]
      body := [
        .assign "tmp3" (.binary .add (.var "tmp1") (.int 1)),
        .whileDo (.binary .lt (.var "tmp3") (.var "tmp0")) (.block [
          .ifThen (.binary .gt (.var "tmp1") (.int 100)) (.ret (some (.var "tmp3"))),
          .assign "tmp3" (.binary .mul (.var "tmp3") (.int 2))]),
        .ret (some (.var "tmp3"))] }] }]

/-- The temporary variables of its method keep clear of them. -/
theorem lower_temporaries_crowded : ∃ table code m,
    crowdedUnit.build.lower table = .ok code ∧ code.methods[0]? = some m ∧
      m.vars.names = ["this", "tmp0", "tmp3", "tmp2", "tmp4", "tmp5", "tmp6", "tmp7", "tmp8"] ∧
      ∃ s, table.signatures[0]? = some s ∧ Tabled ⟨table, s⟩ m ∧
        ∀ x ∈ m.vars.names, x ∉ Context.own ⟨table, s⟩ →
          (x ≠ thisName ∧ ∀ v ∈ s.params ++ s.locals ++ table.fields, v.name ≠ x) ∧
            ∃ p, BlockLocal m.instructions x p := by
  have hok : (cleanTable? crowdedUnit.build.symbolTable).any (fun table =>
      match crowdedUnit.build.lower table with
      | .ok code => code.methods[0]?.any fun m => m.vars.names
          = ["this", "tmp0", "tmp3", "tmp2", "tmp4", "tmp5", "tmp6", "tmp7", "tmp8"]
      | .error _ => false) = true := by decide +kernel
  obtain ⟨table, -, hok⟩ := (Option.any_eq_true _ _).mp hok
  rcases hl : crowdedUnit.build.lower table with e | code <;> rw [hl] at hok
  · cases hok
  · obtain ⟨m, hm, hnames⟩ := (Option.any_eq_true _ _).mp hok
    exact ⟨table, code, m, hl, hm, by simpa using hnames, lower_temporaries hl hm⟩

end Lowering

end Classlet
