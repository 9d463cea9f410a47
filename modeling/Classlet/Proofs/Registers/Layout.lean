import Classlet.Proofs.Registers.Coloring
import Classlet.Registers.Allocation

/-!
# Register layouts

The receiver and the parameters have fixed registers in front, the local and temporary variables
those of their colors behind them.  A parameter whose name is repeated has the register of its last
occurrence.

* `get?_registers_layout`: the register of every variable.
* `allocate_respects_interference`: variables that meet in an instruction have different registers.
-/

namespace Classlet.Registers

open Classlet.Ir

variable {m : MethodCode} {colors : Bindings Nat} {x y : String} {r : Nat}

/-! ### Pieces of a layout -/

theorem placeParams_of_not_mem {names : List String} (registers : Bindings Nat) (next : Nat)
    (h : x ∉ names) : (placeParams registers next names).get? x = registers.get? x := by
  induction names generalizing registers next with
  | nil => rfl
  | cons name rest ih =>
    rw [List.mem_cons, not_or] at h
    rw [placeParams, ih _ _ h.2, Bindings.get?_put, if_neg h.1]

theorem placeParams_of_mem {names : List String} (registers : Bindings Nat) (next : Nat)
    (h : x ∈ names) :
    ∃ i, names[i]? = some x ∧ (placeParams registers next names).get? x = some (next + i) := by
  induction names generalizing registers next with
  | nil => cases h
  | cons name rest ih =>
    rw [placeParams]
    by_cases hx : x ∈ rest
    · obtain ⟨i, hi, hget⟩ := ih (registers.put name next) (next + 1) hx
      exact ⟨i + 1, hi, by rw [hget, Nat.add_assoc, Nat.add_comm 1]⟩
    · have hname : x = name := (List.mem_cons.mp h).resolve_right hx
      refine ⟨0, by rw [hname]; rfl, ?_⟩
      rw [placeParams_of_not_mem _ _ hx, Bindings.get?_put, if_pos hname]
      rfl

theorem foldl_put_of_not_mem (offset : Nat) {pairs : List (String × Nat)} (registers : Bindings Nat)
    (h : ∀ c, (x, c) ∉ pairs) :
    (pairs.foldl (fun found (name, c) => found.put name (offset + c)) registers).get? x
      = registers.get? x := by
  induction pairs generalizing registers with
  | nil => rfl
  | cons pair pairs ih =>
    have hne : x ≠ pair.1 := fun e => h pair.2 (by simp [e])
    rw [List.foldl_cons, ih _ fun c hc => h c (List.mem_cons_of_mem _ hc), Bindings.get?_put,
      if_neg hne]

theorem foldl_put_of_mem (offset : Nat) {pairs : List (String × Nat)} (registers : Bindings Nat)
    {c : Nat} (h : (x, c) ∈ pairs) (hunique : ∀ d, (x, d) ∈ pairs → d = c) :
    (pairs.foldl (fun found (name, c) => found.put name (offset + c)) registers).get? x
      = some (offset + c) := by
  induction pairs generalizing registers with
  | nil => cases h
  | cons pair pairs ih =>
    rw [List.foldl_cons]
    by_cases hx : (x, c) ∈ pairs
    · exact ih _ hx fun d hd => hunique d (List.mem_cons_of_mem _ hd)
    · have hpair : (x, c) = pair := (List.mem_cons.mp h).resolve_right hx
      have hrest : ∀ d, (x, d) ∉ pairs := fun d hd =>
        hx (hunique d (List.mem_cons_of_mem _ hd) ▸ hd)
      rw [foldl_put_of_not_mem offset _ hrest, Bindings.get?_put, ← hpair, if_pos rfl]

theorem mem_pairs {b : Bindings Nat} {c : Nat} : (x, c) ∈ b.pairs ↔ b.get? x = some c :=
  Std.TreeMap.mem_toList_iff_getElem?_eq_some

theorem mem_bound {b : Bindings Nat} {c : Nat} : c ∈ b.bound ↔ ∃ x, b.get? x = some c := by
  simp [Bindings.bound, ← mem_pairs]

theorem lt_colorCount {l : List Nat} {c : Nat} (h : c ∈ l) : c < colorCount l := by
  have hmono : ∀ (l : List Nat) (n : Nat), n ≤ l.foldl (fun n c => max n (c + 1)) n := by
    intro l
    induction l with
    | nil => exact fun n => Nat.le_refl n
    | cons d l ih => exact fun n => Nat.le_trans (Nat.le_max_left n (d + 1)) (ih _)
  have hfold : ∀ n, c < l.foldl (fun n c => max n (c + 1)) n := by
    induction l with
    | nil => cases h
    | cons d l ih =>
      intro n
      rcases List.mem_cons.mp h with rfl | h
      · exact Nat.lt_of_lt_of_le (Nat.lt_of_lt_of_le (Nat.lt_succ_self c) (Nat.le_max_right n _))
          (hmono l _)
      · exact ih h _
  exact hfold 0

/-! ### The register of every variable -/

/-- The register of the first parameter. -/
def firstParam (m : MethodCode) : Nat := if m.isStatic then 0 else 1

/-- The number of registers in front of those for local variables. -/
def pinnedCount (m : MethodCode) : Nat := firstParam m + m.params.length

/-- The registers of the receiver and the parameters. -/
def pinnedRegisters (m : MethodCode) : Bindings Nat :=
  placeParams (if m.isStatic then .none else Bindings.none.put thisName 0) (firstParam m)
    (m.params.map (·.name))

/-- **The register of a variable** is behind those in front if it is colored, else one of them. -/
theorem get?_registers_layout (m : MethodCode) (colors : Bindings Nat) (x : String) :
    (layout m colors).registers.get? x
      = match colors.get? x with
        | some c => some (pinnedCount m + c)
        | none => (pinnedRegisters m).get? x := by
  cases h : colors.get? x with
  | some c =>
    refine foldl_put_of_mem _ _ (mem_pairs.mpr h) fun d hd => ?_
    rw [mem_pairs, h] at hd
    exact (Option.some.inj hd).symm
  | none =>
    refine foldl_put_of_not_mem _ _ fun c hc => ?_
    rw [mem_pairs, h] at hc
    cases hc

theorem isPinned_iff : m.isPinned x = true ↔ x = thisName ∨ x ∈ m.params.map (·.name) := by
  simp [MethodCode.isPinned]

theorem pinnedRegisters_param (h : x ∈ m.params.map (·.name)) :
    ∃ i, (m.params.map (·.name))[i]? = some x ∧
      (pinnedRegisters m).get? x = some (firstParam m + i) :=
  placeParams_of_mem _ _ h

theorem pinnedRegisters_not_param (h : x ∉ m.params.map (·.name)) :
    (pinnedRegisters m).get? x = if m.isStatic = false ∧ x = thisName then some 0 else none := by
  rw [pinnedRegisters, placeParams_of_not_mem _ _ h]
  cases m.isStatic <;> simp

theorem pinnedRegisters_cases (h : (pinnedRegisters m).get? x = some r) :
    (∃ i, (m.params.map (·.name))[i]? = some x ∧ r = firstParam m + i) ∨
      x ∉ m.params.map (·.name) ∧ m.isStatic = false ∧ x = thisName ∧ r = 0 := by
  by_cases hx : x ∈ m.params.map (·.name)
  · obtain ⟨i, hi, hr⟩ := pinnedRegisters_param hx
    rw [hr, Option.some.injEq] at h
    exact .inl ⟨i, hi, h.symm⟩
  · rw [pinnedRegisters_not_param hx] at h
    split at h
    · next hthis =>
      cases h
      exact .inr ⟨hx, hthis.1, hthis.2, rfl⟩
    · cases h

theorem pinnedRegisters_lt (h : (pinnedRegisters m).get? x = some r) : r < pinnedCount m := by
  unfold pinnedCount
  rcases pinnedRegisters_cases h with ⟨i, hi, rfl⟩ | ⟨-, hs, -, rfl⟩
  · have hlt := (List.getElem?_eq_some_iff.mp hi).1
    rw [List.length_map] at hlt
    omega
  · simp only [firstParam, hs, Bool.false_eq_true, if_false]
    omega

theorem pinnedRegisters_injective (hx : (pinnedRegisters m).get? x = some r)
    (hy : (pinnedRegisters m).get? y = some r) : x = y := by
  have hfirst : m.isStatic = false → firstParam m = 1 := fun h => by simp [firstParam, h]
  rcases pinnedRegisters_cases hx with ⟨i, hi, rfl⟩ | ⟨-, hs, rfl, rfl⟩ <;>
    rcases pinnedRegisters_cases hy with ⟨j, hj, hr⟩ | ⟨-, hs', rfl, hr⟩
  · obtain rfl : i = j := by omega
    rw [hi] at hj
    exact Option.some.inj hj
  · have := hfirst hs'
    omega
  · have := hfirst hs
    omega
  · rfl

/-! ### Allocation -/

theorem get?_localColors_isSome (h : m.verifyVars = .ok ()) :
    ((localColors m).get? x).isSome = true ↔ x ∈ m.vars.names ∧ m.isPinned x = false := by
  have hthis : m.isPinned x = false → x ≠ thisName := fun hp e => by
    rw [isPinned_iff.mpr (.inl e)] at hp
    cases hp
  rw [localColors, isSome_color, List.mem_filter, Graph.mem_nodes_ofMethod h, Bool.not_eq_true']
  exact ⟨fun ⟨⟨hx, _⟩, hp⟩ => ⟨hx, hp⟩, fun ⟨hx, hp⟩ => ⟨⟨hx, hthis hp⟩, hp⟩⟩

theorem simple_ofMethod (h : m.verifyVars = .ok ()) : Simple (Graph.ofMethod m) where
  symm := by
    intro x y hxy
    obtain ⟨i, hi, hne, hx, hy, hix, hiy⟩ := (Graph.interferes_ofMethod h).mp hxy
    exact (Graph.interferes_ofMethod h).mpr ⟨i, hi, hne.symm, hy, hx, hiy, hix⟩
  irrefl := by
    intro x
    rw [Bool.eq_false_iff]
    intro hx
    obtain ⟨i, -, hne, -⟩ := (Graph.interferes_ofMethod h).mp hx
    exact hne rfl

/-- Local and temporary variables that meet in an instruction have different colors. -/
theorem localColors_ne (h : m.verifyVars = .ok ()) {i : Instr} (hi : i ∈ m.instructions)
    (hx : x ∈ i.vars) (hy : y ∈ i.vars) (hne : x ≠ y) {c : Nat}
    (hcx : (localColors m).get? x = some c) : (localColors m).get? y ≠ some c := by
  intro hcy
  have hthis : ∀ z c, (localColors m).get? z = some c → z ≠ thisName := by
    intro z c hz e
    have hp := ((get?_localColors_isSome h).mp (by rw [hz]; rfl)).2
    rw [isPinned_iff.mpr (.inl e)] at hp
    cases hp
  have hmeet : (Graph.ofMethod m).interferes x y = true :=
    (Graph.interferes_ofMethod h).mpr ⟨i, hi, hne, hthis x c hcx, hthis y c hcy, hx, hy⟩
  exact proper_color (simple_ofMethod h) _ x y c hmeet hcx hcy

theorem layout_of_allocate {mode : Mode} {a : RegisterAssignment}
    (h : allocate mode m = .ok (some a)) : a = layout m (localColors m) := by
  cases mode with
  | disabled => cases h
  | minimize => cases h; rfl
  | limit available =>
    rw [allocate] at h
    split at h
    · cases h
    · cases h; rfl

/-! ### Soundness -/

theorem get?_registers_cases (hv : m.verifyVars = .ok ())
    (hr : (layout m (localColors m)).registers.get? x = some r) :
    (m.isPinned x = false ∧ ∃ c, (localColors m).get? x = some c ∧ r = pinnedCount m + c) ∨
      m.isPinned x = true ∧ (pinnedRegisters m).get? x = some r := by
  rw [get?_registers_layout] at hr
  cases hc : (localColors m).get? x with
  | some c =>
    rw [hc] at hr
    exact .inl ⟨((get?_localColors_isSome hv).mp (by rw [hc]; rfl)).2, c, rfl,
      (Option.some.inj hr).symm⟩
  | none =>
    rw [hc] at hr
    refine .inr ⟨?_, hr⟩
    rcases pinnedRegisters_cases hr with ⟨i, hi, -⟩ | ⟨-, -, hx, -⟩
    · exact isPinned_iff.mpr (.inr (List.mem_of_getElem? hi))
    · exact isPinned_iff.mpr (.inl hx)

theorem get?_registers_pinned (hv : m.verifyVars = .ok ()) (hp : m.isPinned x = true) :
    (layout m (localColors m)).registers.get? x = (pinnedRegisters m).get? x := by
  rw [get?_registers_layout]
  cases hc : (localColors m).get? x with
  | none => rfl
  | some c =>
    have hnot := ((get?_localColors_isSome hv).mp (by rw [hc]; rfl)).2
    rw [hp] at hnot
    cases hnot

theorem exists_register (hv : m.verifyVars = .ok ()) (hname : x ∈ m.vars.names)
    (hthis : x = thisName → m.isStatic = true → x ∈ m.params.map (·.name)) :
    ∃ r, (layout m (localColors m)).registers.get? x = some r := by
  cases hp : m.isPinned x with
  | false =>
    obtain ⟨c, hc⟩ := Option.isSome_iff_exists.mp ((get?_localColors_isSome hv).mpr ⟨hname, hp⟩)
    exact ⟨pinnedCount m + c, by rw [get?_registers_layout, hc]⟩
  | true =>
    rw [get?_registers_pinned hv hp]
    by_cases hparam : x ∈ m.params.map (·.name)
    · obtain ⟨i, -, hi⟩ := pinnedRegisters_param hparam
      exact ⟨_, hi⟩
    · have hx : x = thisName := (isPinned_iff.mp hp).resolve_right hparam
      have hs : m.isStatic = false := Bool.eq_false_iff.mpr fun hs => hparam (hthis hx hs)
      exact ⟨0, by rw [pinnedRegisters_not_param hparam, if_pos ⟨hs, hx⟩]⟩

/-- **Variables that meet in an instruction have different registers.** -/
theorem registers_apart (hv : m.verifyVars = .ok ()) {i : Instr} (hi : i ∈ m.instructions)
    (hx : x ∈ i.vars) (hy : y ∈ i.vars) (hne : x ≠ y)
    (hrx : (layout m (localColors m)).registers.get? x = some r) :
    (layout m (localColors m)).registers.get? y ≠ some r := by
  intro hry
  rcases get?_registers_cases hv hrx with ⟨-, c, hc, rfl⟩ | ⟨-, hpx⟩ <;>
    rcases get?_registers_cases hv hry with ⟨-, d, hd, hr⟩ | ⟨-, hpy⟩
  · obtain rfl : c = d := by omega
    exact localColors_ne hv hi hx hy hne hc hd
  · have := pinnedRegisters_lt hpy
    omega
  · have := pinnedRegisters_lt hpx
    omega
  · exact hne (pinnedRegisters_injective hpx hpy)

theorem get?_registers_param (hv : m.verifyVars = .ok ()) (hnodup : (m.params.map (·.name)).Nodup)
    {k : Nat} {p : Variable} (hk : m.params[k]? = some p) :
    (layout m (localColors m)).registers.get? p.name = some (firstParam m + k) := by
  have hk' : (m.params.map (·.name))[k]? = some p.name := by rw [List.getElem?_map, hk]; rfl
  have hmem := List.mem_of_getElem? hk'
  obtain ⟨i, hi, hget⟩ := pinnedRegisters_param hmem
  obtain rfl : k = i := by
    obtain ⟨hklt, hke⟩ := List.getElem?_eq_some_iff.mp hk'
    obtain ⟨hilt, hie⟩ := List.getElem?_eq_some_iff.mp hi
    exact hnodup.getElem_inj_iff.mp (hke.trans hie.symm)
  rw [get?_registers_pinned hv (isPinned_iff.mpr (.inr hmem)), hget]

theorem registers_locals (hv : m.verifyVars = .ok ()) (hpx : m.isPinned x = false)
    (hpy : m.isPinned y = true) (hrx : (layout m (localColors m)).registers.get? x = some r) :
    (layout m (localColors m)).registers.get? y ≠ some r := by
  intro hry
  rcases get?_registers_cases hv hrx with ⟨-, c, -, rfl⟩ | ⟨hp, -⟩
  · rw [get?_registers_pinned hv hpy] at hry
    have := pinnedRegisters_lt hry
    omega
  · rw [hp] at hpx
    cases hpx

theorem registers_lt (hv : m.verifyVars = .ok ())
    (hr : (layout m (localColors m)).registers.get? x = some r) :
    r < (layout m (localColors m)).registerCount := by
  have hcount : (layout m (localColors m)).registerCount
      = pinnedCount m + colorCount (localColors m).bound := rfl
  rcases get?_registers_cases hv hr with ⟨-, c, hc, rfl⟩ | ⟨-, hp⟩
  · have := lt_colorCount (mem_bound.mpr ⟨x, hc⟩)
    omega
  · have := pinnedRegisters_lt hp
    omega

/-- The registers suit the method. -/
structure RespectsInterference (m : MethodCode) (a : RegisterAssignment) : Prop where
  /-- Every variable has a register, but for the receiver that a static method does not have. -/
  allocated : ∀ x, (x ∈ m.vars.names ∨ ∃ i ∈ m.instructions, x ∈ i.vars) →
    (x = thisName → m.isStatic = true → x ∈ m.params.map (·.name)) →
    ∃ r, a.registers.get? x = some r
  /-- Variables of one instruction have different registers. -/
  apart : ∀ i ∈ m.instructions, ∀ x ∈ i.vars, ∀ y ∈ i.vars, x ≠ y →
    ∀ r, a.registers.get? x = some r → a.registers.get? y ≠ some r
  receiver : m.isStatic = false → thisName ∉ m.params.map (·.name) →
    a.registers.get? thisName = some 0
  /-- Parameters of different names follow in their order. -/
  params : (m.params.map (·.name)).Nodup → ∀ k p, m.params[k]? = some p →
    a.registers.get? p.name = some ((if m.isStatic then 0 else 1) + k)
  /-- Local and temporary variables share no register with the receiver or a parameter. -/
  locals : ∀ x y, m.isPinned x = false → m.isPinned y = true →
    ∀ r, a.registers.get? x = some r → a.registers.get? y ≠ some r
  bounded : ∀ x r, a.registers.get? x = some r → r < a.registerCount

/-- **Allocated registers suit the method**, whatever its instructions, its parameters and its table
are, as long as the table has the variables of the instructions. -/
theorem allocate_respects_interference {mode : Mode} {a : RegisterAssignment}
    (hv : m.verifyVars = .ok ()) (h : allocate mode m = .ok (some a)) :
    RespectsInterference m a := by
  obtain rfl := layout_of_allocate h
  refine ⟨fun x hx hthis => ?_, fun i hi x hx y hy hne r => registers_apart hv hi hx hy hne,
    fun hs hthis => ?_, fun hnodup k p hk => get?_registers_param hv hnodup hk,
    fun x y hpx hpy r => registers_locals hv hpx hpy, fun x r => registers_lt hv⟩
  · rcases hx with hx | ⟨i, hi, hx⟩
    · exact exists_register hv hx hthis
    · exact exists_register hv (mem_names_of_verifyVars hv hi hx) hthis
  · rw [get?_registers_pinned hv (isPinned_iff.mpr (.inl rfl)), pinnedRegisters_not_param hthis,
      if_pos ⟨hs, rfl⟩]

/-- A method with a repeated parameter and a table with a repeated name. -/
def repeatedNames : MethodCode where
  name := "mix"
  isPublic := true
  isStatic := false
  params := [⟨"a", .int⟩, ⟨"b", .int⟩, ⟨"a", .int⟩]
  returnType := .int
  instructions := [
    .binary "t" .add (.var "a") (.var "b"),
    .getField "u" (.var "this") "f" .int,
    .binary "t" .mul (.var "t") (.var "u"),
    .ret (some (.var "t"))]
  vars := .ofEntries [("this", ⟨0, .object "C"⟩), ("a", ⟨1, .int⟩), ("b", ⟨2, .int⟩),
    ("a", ⟨3, .int⟩), ("t", ⟨4, .int⟩), ("u", ⟨5, .int⟩), ("t", ⟨6, .int⟩)]
  registers := none

theorem allocate_respects_interference_repeatedNames :
    repeatedNames.verifyVars = .ok () ∧
      ∃ a, allocate (.limit 2) repeatedNames = .ok (some a) ∧ RespectsInterference repeatedNames a := by
  have hv : repeatedNames.verifyVars = .ok () := by decide +kernel
  have hsome : ∃ a, allocate (.limit 2) repeatedNames = .ok (some a) := by
    have hlt : ¬ 2 < colorCount (localColors repeatedNames).bound := by decide +kernel
    refine ⟨layout repeatedNames (localColors repeatedNames), ?_⟩
    simp only [allocate, hlt, if_false]
    rfl
  obtain ⟨a, ha⟩ := hsome
  exact ⟨hv, a, ha, allocate_respects_interference hv ha⟩

end Classlet.Registers
