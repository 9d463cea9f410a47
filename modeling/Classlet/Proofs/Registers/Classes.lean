import Classlet.Proofs.Registers.Greedy

/-!
# Registers of classes

Every method of a class gets the registers it would get alone.  The number a limit is compared with
is the number of colors that are used, and an instruction of more local and temporary variables than
the limit cannot get by with fewer colors.

* `length_le_colorCount`: the variables of one instruction need as many colors as they are.
* `allocateClass_methodwise`: registers of a class, method by method.
-/

namespace Classlet.Registers

open Classlet.Ir

variable {m : MethodCode}

theorem mem_bound_localColors_iff {k : Nat} :
    k ∈ (localColors m).bound ↔ k < colorCount (localColors m).bound :=
  mem_bound_color_iff ((Graph.listed_ofMethod m).nodup.filter _)

/-! ### Variables of one instruction -/

/-- **The local and temporary variables of one instruction need as many colors as they are.** -/
theorem length_le_colorCount (h : m.verifyVars = .ok ()) {i : Instr} (hi : i ∈ m.instructions)
    {xs : List String} (hnodup : xs.Nodup)
    (hxs : ∀ x ∈ xs, x ∈ i.vars ∧ m.isPinned x = false) :
    xs.length ≤ colorCount (localColors m).bound := by
  have hcolor : ∀ x ∈ xs, ∃ c, (localColors m).get? x = some c := fun x hx =>
    Option.isSome_iff_exists.mp ((get?_localColors_isSome h).mpr
      ⟨mem_names_of_verifyVars h hi (hxs x hx).1, (hxs x hx).2⟩)
  -- different variables have different colors, and all of them are below the number of colors
  have hcolors : (xs.map fun x => ((localColors m).get? x).getD 0).Nodup := by
    refine List.Nodup.map_on (fun x hx y hy he => ?_) hnodup
    obtain ⟨c, hc⟩ := hcolor x hx
    obtain ⟨d, hd⟩ := hcolor y hy
    rw [hc, hd, Option.getD_some, Option.getD_some] at he
    by_contra hne
    exact localColors_ne h hi (hxs x hx).1 (hxs y hy).1 hne hc (he ▸ hd)
  have hrange : (xs.map fun x => ((localColors m).get? x).getD 0)
      ⊆ List.range (colorCount (localColors m).bound) := by
    intro k hk
    obtain ⟨x, hx, rfl⟩ := List.mem_map.mp hk
    obtain ⟨c, hc⟩ := hcolor x hx
    rw [hc, Option.getD_some, List.mem_range]
    exact lt_colorCount (mem_bound.mpr ⟨x, hc⟩)
  have hle := (hcolors.subperm hrange).length_le
  rwa [List.length_map, List.length_range] at hle

/-! ### Limits -/

theorem allocate_minimize (m : MethodCode) :
    allocate .minimize m = .ok (some (layout m (localColors m))) := rfl

/-- Under a limit a method has the registers of the fewest colors, or none if these are too many. -/
theorem allocate_limit (available : Nat) (m : MethodCode) :
    allocate (.limit available) m
      = if available < colorCount (localColors m).bound then
          .error (.registerBudget m.name (colorCount (localColors m).bound) available)
        else .ok (some (layout m (localColors m))) := rfl

/-- A coloring of the local and temporary variables of a method with `n` colors in which neighbors
have different colors. -/
structure ColorsLocals (m : MethodCode) (n : Nat) (colors : Bindings Nat) : Prop where
  colored : ∀ x, (∃ c, colors.get? x = some c) ↔
    x ∈ (Graph.ofMethod m).nodes ∧ m.isPinned x = false
  proper : Proper (Graph.ofMethod m) colors
  lt : ∀ x c, colors.get? x = some c → c < n

theorem colorsLocals_of_allocate (h : m.verifyVars = .ok ()) {available : Nat}
    {a : RegisterAssignment} (ha : allocate (.limit available) m = .ok (some a)) :
    ColorsLocals m available a.localColors := by
  rw [allocate_limit] at ha
  split at ha
  · cases ha
  · next hle =>
    cases ha
    refine ⟨fun x => ?_, proper_color (simple_ofMethod h) _, fun x c hc => ?_⟩
    · show (∃ c, (localColors m).get? x = some c) ↔ _
      rw [← Option.isSome_iff_exists, localColors, isSome_color, List.mem_filter, Bool.not_eq_true']
    · exact Nat.lt_of_lt_of_le (lt_colorCount (mem_bound.mpr ⟨x, hc⟩)) (Nat.le_of_not_lt hle)

/-! ### Classes -/

/-- The registers a method gets alone: none where that fails. -/
def granted? (mode : Mode) (m : MethodCode) : Option RegisterAssignment :=
  (allocate mode m).toOption.join

/-- The report of a method that gets no registers because that fails. -/
def failure? (mode : Mode) (m : MethodCode) : Option Report :=
  match allocate mode m with
  | .ok _ => none
  | .error e => some (.ofError .optimization .unknown e)

theorem allocateMethod_eq (mode : Mode) (m : MethodCode) :
    allocateMethod mode m
      = ({ m with registers := granted? mode m }, (failure? mode m).toList) := by
  unfold allocateMethod granted? failure?
  cases allocate mode m <;> rfl

theorem allocateClass_eq (mode : Mode) (c : ClassCode) :
    allocateClass mode c
      = ({ c with methods := c.methods.map fun m => { m with registers := granted? mode m } },
        c.methods.filterMap (failure? mode)) := by
  unfold allocateClass
  simp only [List.map_map, List.flatMap_map, Function.comp_def, allocateMethod_eq]
  induction c.methods with
  | nil => rfl
  | cons m ms ih =>
    obtain ⟨hmethods, hreports⟩ := Prod.mk.inj ih
    rw [List.flatMap_cons, hreports, List.filterMap_cons]
    cases failure? mode m <;> rfl

theorem allocate_registers (mode : Mode) (m : MethodCode) (registers : Option RegisterAssignment) :
    allocate mode { m with registers } = allocate mode m := by
  cases mode <;> rfl

theorem granted?_registers (mode : Mode) (m : MethodCode)
    (registers : Option RegisterAssignment) :
    granted? mode { m with registers } = granted? mode m := by
  rw [granted?, allocate_registers, granted?]

theorem failure?_registers (mode : Mode) (m : MethodCode)
    (registers : Option RegisterAssignment) :
    failure? mode { m with registers } = failure? mode m := by
  rw [failure?, allocate_registers, failure?]

/-- Allocation is idempotent, with its reports. -/
theorem allocateClass_allocateClass (mode : Mode) (c : ClassCode) :
    allocateClass mode (allocateClass mode c).1 = allocateClass mode c := by
  simp only [allocateClass_eq, List.map_map, List.filterMap_map, Function.comp_def,
    granted?_registers, failure?_registers]

theorem error_of_allocate {mode : Mode} {e : Error} (h : allocate mode m = .error e) :
    ∃ available, mode = .limit available ∧ available < colorCount (localColors m).bound ∧
      e = .registerBudget m.name (colorCount (localColors m).bound) available := by
  cases mode with
  | disabled => cases h
  | minimize => cases h
  | limit available =>
    rw [allocate_limit] at h
    split at h
    · next hlt =>
      cases h
      exact ⟨available, rfl, hlt, rfl⟩
    · cases h

/-- **A class is allocated method by method.**  Nothing but the registers changes: every method gets
those it would get alone, or none where that fails, and each failure is reported once, in the order
of the methods, as one of too few registers.

Without a limit every method gets registers, whose colors are those below their number.  Under a
limit it gets the same ones, unless they use more colors: then it fails, and the error names their
number.

If the table has the variables of the instructions, then success under a limit means a coloring of
the local and temporary variables within the limit in which neighbors differ; so an instruction of
more of them than the limit makes the method fail.

A second allocation changes nothing and reports the same. -/
theorem allocateClass_methodwise (mode : Mode) (c : ClassCode) :
    ((allocateClass mode c).1
        = { c with methods := c.methods.map fun m => { m with registers := granted? mode m } } ∧
      (allocateClass mode c).2 = c.methods.filterMap (failure? mode) ∧
      ∀ m e, allocate mode m = .error e →
        ∃ required available, e = .registerBudget m.name required available) ∧
    (∀ m, ∃ a, allocate .minimize m = .ok (some a) ∧
      (∀ k, k ∈ a.localColors.bound ↔ k < a.colorsUsed) ∧
      ∀ n, allocate (.limit n) m = if n < a.colorsUsed then
        .error (.registerBudget m.name a.colorsUsed n) else .ok (some a)) ∧
    (∀ m, m.verifyVars = .ok () → ∀ n,
      (∀ a, allocate (.limit n) m = .ok (some a) → ColorsLocals m n a.localColors) ∧
      ∀ i ∈ m.instructions, ∀ xs : List String, xs.Nodup →
        (∀ x ∈ xs, x ∈ i.vars ∧ m.isPinned x = false) → n < xs.length →
        ∃ required, xs.length ≤ required ∧
          allocate (.limit n) m = .error (.registerBudget m.name required n)) ∧
    allocateClass mode (allocateClass mode c).1 = allocateClass mode c := by
  refine ⟨⟨by rw [allocateClass_eq], by rw [allocateClass_eq], fun m e he => ?_⟩,
    fun m => ⟨_, allocate_minimize m, fun k => mem_bound_localColors_iff, fun n => ?_⟩,
    fun m hv n => ⟨fun a => colorsLocals_of_allocate hv, fun i hi xs hnodup hxs hlt => ?_⟩, ?_⟩
  · obtain ⟨available, -, -, rfl⟩ := error_of_allocate he
    exact ⟨_, available, rfl⟩
  · exact allocate_limit n m
  · have hle := length_le_colorCount hv hi hnodup hxs
    exact ⟨_, hle, by rw [allocate_limit, if_pos (Nat.lt_of_lt_of_le hlt hle)]⟩
  · exact allocateClass_allocateClass mode c

/-- One color is too few for the two local variables of a multiplication. -/
theorem allocateClass_methodwise_repeatedNames :
    repeatedNames.verifyVars = .ok () ∧ ∃ required, 2 ≤ required ∧
      allocate (.limit 1) repeatedNames = .error (.registerBudget "mix" required 1) := by
  have hv : repeatedNames.verifyVars = .ok () := by decide +kernel
  obtain ⟨-, -, hlimit, -⟩ :=
    allocateClass_methodwise (.limit 1) ⟨"C", "Object", [], [], [repeatedNames]⟩
  have hvars : ∀ x ∈ ["t", "u"], x ∈ (Instr.binary "t" .mul (.var "t") (.var "u")).vars ∧
      repeatedNames.isPinned x = false := by decide
  exact ⟨hv, (hlimit repeatedNames hv 1).2 (.binary "t" .mul (.var "t") (.var "u"))
    (by simp [repeatedNames]) ["t", "u"] (by decide) hvars (by decide)⟩

end Classlet.Registers
