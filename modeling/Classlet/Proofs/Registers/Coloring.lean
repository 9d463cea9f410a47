import Classlet.Proofs.Registers.Interference
import Classlet.Registers.Coloring
import Mathlib.Data.List.Nodup
import Mathlib.Data.List.Perm.Subperm

/-!
# Proper colorings

In a graph without loops whose edges have both directions, the greedy coloring gives every variable
it is asked to color a color, and different ones to neighbors (`proper_color`).  Each step keeps the
coloring so far proper: the color of the new variable is none that a colored neighbor has.
-/

namespace Classlet.Registers

variable {g : Graph} {colors : Bindings Nat} {names : List String} {x y : String} {c : Nat}

/-! ### The order of falling degree -/

theorem insertByKey_perm (entry : Nat × String) (l : List (Nat × String)) :
    (insertByKey entry l).Perm (entry :: l) := by
  induction l with
  | nil => exact .refl _
  | cons other rest ih =>
    rw [insertByKey]
    split
    · exact .refl _
    · exact (ih.cons other).trans (.swap entry other rest)

theorem sortByKey_perm (l : List (Nat × String)) : (sortByKey l).Perm l := by
  induction l with
  | nil => exact .refl _
  | cons entry rest ih => exact (insertByKey_perm entry _).trans (ih.cons entry)

theorem byDegree_perm (g : Graph) (names : List String) : (byDegree g names).Perm names := by
  have h := (sortByKey_perm (names.map fun name => (g.degree name, name))).map (·.2)
  rwa [List.map_map, show (fun e : Nat × String => e.2) ∘ (fun name => (g.degree name, name)) = id
    from rfl, List.map_id] at h

theorem mem_byDegree : x ∈ byDegree g names ↔ x ∈ names := (byDegree_perm g names).mem_iff

/-! ### The lowest free color -/

theorem le_length_of_forall_mem {l : List Nat} (h : ∀ d < c, d ∈ l) : c ≤ l.length := by
  have hsub : List.range c ⊆ l := fun d hd => h d (List.mem_range.mp hd)
  have hle := (List.nodup_range.subperm hsub).length_le
  rwa [List.length_range] at hle

theorem lowestFree_not_mem (taken : List Nat) : lowestFree taken ∉ taken := by
  rw [lowestFree_eq]
  cases h : (List.range (taken.length + 1)).find? fun c => !taken.contains c with
  | some c =>
    have hc := List.find?_some h
    simpa using hc
  | none =>
    -- more colors are looked at than can be taken
    rw [List.find?_eq_none] at h
    have hle := le_length_of_forall_mem (c := taken.length + 1) fun d hd => by
      simpa using h d (List.mem_range.mpr hd)
    omega

theorem mem_of_lt_lowestFree {taken : List Nat} {d : Nat} (h : d < lowestFree taken) :
    d ∈ taken := by
  rw [lowestFree_eq] at h
  cases hfind : (List.range (taken.length + 1)).find? fun c => !taken.contains c with
  | none =>
    rw [hfind] at h
    exact absurd h (Nat.not_lt_zero d)
  | some c =>
    rw [hfind, Option.getD_some] at h
    simpa using (List.find?_range_eq_some.mp hfind).2.2 d h

theorem mem_takenColors :
    c ∈ takenColors g colors x ↔ ∃ y, g.interferes x y = true ∧ colors.get? y = some c := by
  simp [takenColors, Graph.mem_neighbors]

/-! ### Coloring -/

/-- Neighbors have different colors. -/
def Proper (g : Graph) (colors : Bindings Nat) : Prop :=
  ∀ x y c, g.interferes x y = true → colors.get? x = some c → colors.get? y ≠ some c

/-- The edges of the graph have both directions, and join different nodes. -/
structure Simple (g : Graph) : Prop where
  symm : ∀ x y, g.interferes x y = true → g.interferes y x = true
  irrefl : ∀ x, g.interferes x x = false

theorem Proper.colorOne (h : Proper g colors) (hg : Simple g) (name : String) :
    Proper g (colorOne g colors name) := by
  have hfree : ∀ y, g.interferes name y = true →
      colors.get? y ≠ some (lowestFree (takenColors g colors name)) := by
    intro y hy hc
    exact lowestFree_not_mem _ (mem_takenColors.mpr ⟨y, hy, hc⟩)
  intro x y c hxy hx hy
  unfold Registers.colorOne at hx hy
  rw [Bindings.get?_put] at hx hy
  split at hx
  · next hxn =>
    cases hx
    subst hxn
    rw [if_neg fun e => by rw [e, hg.irrefl] at hxy; cases hxy] at hy
    exact hfree y hxy hy
  · split at hy
    · next hyn =>
      cases hy
      subst hyn
      exact hfree x (hg.symm x y hxy) hx
    · exact h x y c hxy hx hy

theorem proper_foldl_colorOne (h : Proper g colors) (hg : Simple g) (order : List String) :
    Proper g (order.foldl (colorOne g) colors) := by
  induction order generalizing colors with
  | nil => exact h
  | cons name order ih => exact ih (h.colorOne hg name)

theorem isSome_foldl_colorOne (order : List String) :
    ((order.foldl (colorOne g) colors).get? x).isSome = true ↔
      (colors.get? x).isSome = true ∨ x ∈ order := by
  induction order generalizing colors with
  | nil => simp
  | cons name order ih =>
    rw [List.foldl_cons, ih, colorOne, Bindings.get?_put, List.mem_cons]
    by_cases hx : x = name <;> simp [hx]

/-- **The greedy coloring is proper.** -/
theorem proper_color (hg : Simple g) (names : List String) : Proper g (color g names) :=
  proper_foldl_colorOne (fun x y c _ hx => by simp at hx) hg _

theorem isSome_color : ((color g names).get? x).isSome = true ↔ x ∈ names := by
  rw [color, isSome_foldl_colorOne, mem_byDegree]
  simp

end Classlet.Registers
