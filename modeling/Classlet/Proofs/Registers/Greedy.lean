import Classlet.Proofs.Registers.Layout
import Mathlib.Data.List.MinMax
import Mathlib.Order.Bounds.Defs

/-!
# Greedy coloring

The variables are colored one after the other by falling degree, and variables of one degree in the
order they are given in.  The color of a variable is the lowest that no neighbor colored before it
has.  So neighbors before it have all the colors below, which are no more than there are variables
before it and no more than it has neighbors; and no color is left out.

* `sortsByDegree_byDegree`: the order in which variables are colored.
* `color_isLeast`: the color of a variable in terms of those before it.
* `mem_bound_color_iff`: the colors that are used are those below their number.
* `color_greedy`: the coloring of different variables of any graph, with the bound of Welsh and
  Powell.
-/

namespace Classlet.Registers

open Classlet.Ir

variable {g : Graph} {colors : Bindings Nat} {names : List String} {x : String} {c : Nat}

/-! ### The order -/

/-- The names in the order of falling degree, those of one degree in the order they had. -/
structure SortsByDegree (g : Graph) (names order : List String) : Prop where
  perm : order.Perm names
  falling : order.Pairwise fun x y => g.degree y ≤ g.degree x
  stable : ∀ d, order.filter (fun x => g.degree x == d) = names.filter fun x => g.degree x == d

theorem pairwise_insertByKey {entry : Nat × String} {l : List (Nat × String)}
    (h : l.Pairwise fun e f => f.1 ≤ e.1) :
    (insertByKey entry l).Pairwise fun e f => f.1 ≤ e.1 := by
  induction l with
  | nil => exact List.pairwise_singleton _ _
  | cons other rest ih =>
    obtain ⟨hother, hrest⟩ := List.pairwise_cons.mp h
    rw [insertByKey]
    split
    · next hle =>
      refine List.pairwise_cons.mpr ⟨fun e he => ?_, h⟩
      rcases List.mem_cons.mp he with rfl | he
      · exact hle
      · exact (hother e he).trans hle
    · next hlt =>
      refine List.pairwise_cons.mpr ⟨fun e he => ?_, ih hrest⟩
      rcases List.mem_cons.mp ((insertByKey_perm entry rest).mem_iff.mp he) with rfl | he
      · exact (Nat.lt_of_not_le hlt).le
      · exact hother e he

theorem pairwise_sortByKey (l : List (Nat × String)) :
    (sortByKey l).Pairwise fun e f => f.1 ≤ e.1 := by
  induction l with
  | nil => exact .nil
  | cons entry rest ih => exact pairwise_insertByKey ih

theorem filter_insertByKey (d : Nat) (entry : Nat × String) (l : List (Nat × String)) :
    (insertByKey entry l).filter (·.1 == d) = (entry :: l).filter (·.1 == d) := by
  induction l with
  | nil => rfl
  | cons other rest ih =>
    rw [insertByKey]
    split
    · rfl
    · next hlt =>
      have hne : entry.1 ≠ d ∨ other.1 ≠ d := by omega
      rw [List.filter_cons, ih, List.filter_cons, List.filter_cons, List.filter_cons]
      rcases hne with hne | hne <;> simp [hne]

theorem filter_sortByKey (d : Nat) (l : List (Nat × String)) :
    (sortByKey l).filter (·.1 == d) = l.filter (·.1 == d) := by
  induction l with
  | nil => rfl
  | cons entry rest ih => rw [sortByKey, filter_insertByKey, List.filter_cons, List.filter_cons, ih]

/-- **Variables are colored in a stable order of falling degree.** -/
theorem sortsByDegree_byDegree (g : Graph) (names : List String) :
    SortsByDegree g names (byDegree g names) := by
  have hkey : ∀ e ∈ sortByKey (names.map fun name => (g.degree name, name)),
      e.1 = g.degree e.2 := by
    intro e he
    obtain ⟨name, -, rfl⟩ := List.mem_map.mp ((sortByKey_perm _).mem_iff.mp he)
    rfl
  refine ⟨byDegree_perm g names, ?_, fun d => ?_⟩
  · refine List.pairwise_map.mpr ((pairwise_sortByKey _).imp_of_mem fun he hf h => ?_)
    rwa [← hkey _ he, ← hkey _ hf]
  · have hfilter := filter_sortByKey d (names.map fun name => (g.degree name, name))
    rw [byDegree, List.filter_map, List.filter_congr (q := (·.1 == d)) fun e he => by
      rw [Function.comp_apply, hkey e he], hfilter, List.filter_map, List.map_map]
    exact List.map_id _

/-! ### One variable after the other -/

theorem get?_foldl_colorOne_of_notMem {order : List String} (hx : x ∉ order) :
    (order.foldl (colorOne g) colors).get? x = colors.get? x := by
  induction order generalizing colors with
  | nil => rfl
  | cons name order ih =>
    rw [List.mem_cons, not_or] at hx
    rw [List.foldl_cons, ih hx.2, colorOne, Bindings.get?_put, if_neg hx.1]

theorem get?_foldl_colorOne_append {before after : List String} (h : (before ++ after).Nodup) :
    (before.foldl (colorOne g) .none).get? x = some c ↔
      x ∈ before ∧ ((before ++ after).foldl (colorOne g) .none).get? x = some c := by
  rw [List.foldl_append]
  by_cases hx : x ∈ before
  · have hafter : x ∉ after := fun ha => List.disjoint_of_nodup_append h hx ha
    rw [get?_foldl_colorOne_of_notMem hafter, and_iff_right hx]
  · rw [get?_foldl_colorOne_of_notMem hx]
    simp [hx]

/-- The variable has the lowest color that none of its neighbors among the given ones has. -/
def LeastColored (g : Graph) (colors : Bindings Nat) (before : List String) (x : String) (c : Nat) :
    Prop :=
  IsLeast {c | ∀ y ∈ before, g.interferes x y = true → colors.get? y ≠ some c} c

theorem LeastColored.exists_of_lt {before : List String} (h : LeastColored g colors before x c)
    {d : Nat} (hd : d < c) : ∃ y ∈ before, g.interferes x y = true ∧ colors.get? y = some d := by
  by_contra hnone
  refine Nat.not_le_of_lt hd (h.2 fun y hy hxy hcolor => ?_)
  exact hnone ⟨y, hy, hxy, hcolor⟩

/-- **A color is at most the number of variables before and the number of neighbors.** -/
theorem LeastColored.le_min {before : List String} (h : LeastColored g colors before x c) :
    c ≤ min before.length (g.degree x) := by
  refine Nat.le_min.mpr ⟨?_, ?_⟩
  · refine (le_length_of_forall_mem (l := before.filterMap colors.get?) fun d hd => ?_).trans
      (List.length_filterMap_le _ _)
    obtain ⟨y, hy, -, hcolor⟩ := h.exists_of_lt hd
    exact List.mem_filterMap.mpr ⟨y, hy, hcolor⟩
  · refine (le_length_of_forall_mem (l := takenColors g colors x) fun d hd => ?_).trans
      ((List.length_filterMap_le _ _).trans_eq Std.TreeSet.length_toList)
    obtain ⟨y, -, hxy, hcolor⟩ := h.exists_of_lt hd
    exact mem_takenColors.mpr ⟨y, hxy, hcolor⟩

theorem isLeast_lowestFree (taken : List Nat) : IsLeast {c | c ∉ taken} (lowestFree taken) :=
  ⟨lowestFree_not_mem taken, fun _ hc => Nat.le_of_not_lt fun hlt => hc (mem_of_lt_lowestFree hlt)⟩

/-- **The color of a variable** is the lowest that no neighbor before it has. -/
theorem color_isLeast (h : names.Nodup) {i : Nat} (hx : (byDegree g names)[i]? = some x) :
    ∃ c, (color g names).get? x = some c ∧
      LeastColored g (color g names) ((byDegree g names).take i) x c := by
  have hnodup : (byDegree g names).Nodup := (byDegree_perm g names).nodup_iff.mpr h
  rw [color]
  generalize byDegree g names = order at hx hnodup ⊢
  have horder : order.take i ++ x :: order.drop (i + 1) = order := by
    obtain ⟨hi, rfl⟩ := List.getElem?_eq_some_iff.mp hx
    rw [List.getElem_cons_drop, List.take_append_drop]
  generalize order.take i = before, order.drop (i + 1) = after at horder
  subst horder
  refine ⟨lowestFree (takenColors g (before.foldl (colorOne g) .none) x), ?_, ?_⟩
  · have hafter : x ∉ after :=
      (List.nodup_cons.mp (List.nodup_append.mp hnodup).2.1).1
    rw [List.foldl_append, List.foldl_cons, get?_foldl_colorOne_of_notMem hafter, colorOne,
      Bindings.get?_put, if_pos rfl]
  · have hfree : {c | ∀ y ∈ before, g.interferes x y = true →
        ((before ++ x :: after).foldl (colorOne g) .none).get? y ≠ some c}
        = {c | c ∉ takenColors g (before.foldl (colorOne g) .none) x} := by
      ext c
      simp only [Set.mem_ofPred_eq, mem_takenColors, get?_foldl_colorOne_append hnodup]
      constructor
      · rintro hc ⟨y, hxy, hy, hcolor⟩
        exact hc y hy hxy hcolor
      · exact fun hc y hy hxy hcolor => hc ⟨y, hxy, hy, hcolor⟩
    rw [LeastColored, hfree]
    exact isLeast_lowestFree _

/-! ### The colors that are used -/

theorem exists_of_lt_colorCount {l : List Nat} {k : Nat} (h : k < colorCount l) :
    ∃ c ∈ l, k ≤ c := by
  have hfold : ∀ (l : List Nat) (n : Nat), k < l.foldl (fun n c => max n (c + 1)) n →
      k < n ∨ ∃ c ∈ l, k ≤ c := by
    intro l
    induction l with
    | nil => exact fun n h => .inl h
    | cons d l ih =>
      intro n h
      rcases ih _ h with h | ⟨c, hc, hk⟩
      · have h : k < max n (d + 1) := h
        rcases (by omega : k < n ∨ k ≤ d) with hn | hd
        · exact .inl hn
        · exact .inr ⟨d, List.mem_cons_self, hd⟩
      · exact .inr ⟨c, List.mem_cons_of_mem _ hc, hk⟩
  exact (hfold l 0 h).resolve_left (Nat.not_lt_zero k)

theorem exists_of_mem_bound (hc : c ∈ (color g names).bound) :
    ∃ (i : Nat) (x : String), (byDegree g names)[i]? = some x ∧
      (color g names).get? x = some c := by
  obtain ⟨x, hx⟩ := mem_bound.mp hc
  have hmem : x ∈ byDegree g names := mem_byDegree.mpr
    (isSome_color.mp (Option.isSome_iff_exists.mpr ⟨c, hx⟩))
  obtain ⟨i, hi⟩ := List.mem_iff_getElem?.mp hmem
  exact ⟨i, x, hi, hx⟩

/-- **The colors of a greedy coloring are those below their number.** -/
theorem mem_bound_color_iff (h : names.Nodup) {k : Nat} :
    k ∈ (color g names).bound ↔ k < colorCount (color g names).bound := by
  refine ⟨lt_colorCount, fun hk => ?_⟩
  obtain ⟨c, hc, hle⟩ := exists_of_lt_colorCount hk
  rcases Nat.lt_or_eq_of_le hle with hlt | rfl
  · obtain ⟨i, x, hi, hx⟩ := exists_of_mem_bound hc
    obtain ⟨d, hd, hleast⟩ := color_isLeast h hi
    obtain rfl : c = d := Option.some.inj (hx.symm.trans hd)
    obtain ⟨y, -, -, hy⟩ := hleast.exists_of_lt hlt
    exact mem_bound.mpr ⟨y, hy⟩
  · exact hc

/-- One more than the largest number, over the variables in order, that is neither more than there
are variables before nor more than there are neighbors. -/
def greedyBound (g : Graph) (order : List String) : Nat :=
  (order.mapIdx fun i x => min i (g.degree x) + 1).foldr max 0

theorem lt_greedyBound {order : List String} {i : Nat} (h : order[i]? = some x) :
    min i (g.degree x) < greedyBound g order := by
  refine List.le_max_of_le' 0 (List.mem_iff_getElem?.mpr ⟨i, ?_⟩) (Nat.le_refl _)
  rw [List.getElem?_mapIdx, h, Option.map_some]

theorem colorCount_color_le (h : names.Nodup) :
    colorCount (color g names).bound ≤ greedyBound g (byDegree g names) := by
  by_contra hlt
  obtain ⟨c, hc, hle⟩ := exists_of_lt_colorCount (Nat.lt_of_not_le hlt)
  obtain ⟨i, x, hi, hx⟩ := exists_of_mem_bound hc
  obtain ⟨d, hd, hleast⟩ := color_isLeast h hi
  obtain rfl : c = d := Option.some.inj (hx.symm.trans hd)
  have hmin := hleast.le_min
  rw [List.length_take] at hmin
  have hbound := lt_greedyBound (g := g) hi
  omega

/-- **Greedy coloring.**  Different variables of a graph are colored in the stable order of falling
degree, and no others are.  The color of the one at place `i` is at most `i` and at most its degree:
neighbors before it have every color below, and none has this one.  So the colors that are used are
those below their number, which is within the bound of Welsh and Powell.

The search for the lowest free color ends: among one more colors than are taken, one is free. -/
theorem color_greedy (g : Graph) {names : List String} (h : names.Nodup) :
    SortsByDegree g names (byDegree g names) ∧
    (∀ x, (∃ c, (color g names).get? x = some c) ↔ x ∈ names) ∧
    (∀ (i : Nat) (x : String), (byDegree g names)[i]? = some x →
      ∃ c, (color g names).get? x = some c ∧ c ≤ min i (g.degree x) ∧
      (∀ d < c, ∃ y ∈ (byDegree g names).take i, g.interferes x y = true ∧
        (color g names).get? y = some d) ∧
      ∀ y ∈ (byDegree g names).take i, g.interferes x y = true →
        (color g names).get? y ≠ some c) ∧
    (∀ k, k ∈ (color g names).bound ↔ k < colorCount (color g names).bound) ∧
    colorCount (color g names).bound ≤ greedyBound g (byDegree g names) ∧
    ∀ taken, IsLeast {c | c ∉ taken} (lowestFree taken) ∧ lowestFree taken ≤ taken.length := by
  refine ⟨sortsByDegree_byDegree g names, fun x => ?_, fun i x hx => ?_,
    fun k => mem_bound_color_iff h, colorCount_color_le h,
    fun taken => ⟨isLeast_lowestFree taken, ?_⟩⟩
  · rw [← Option.isSome_iff_exists, isSome_color]
  · obtain ⟨c, hc, hleast⟩ := color_isLeast h hx
    refine ⟨c, hc, hleast.le_min.trans ?_, fun d hd => hleast.exists_of_lt hd, hleast.1⟩
    exact min_le_min_right _ (List.length_take_le i _)
  · exact le_length_of_forall_mem fun d hd => mem_of_lt_lowestFree hd

/-- The local variables of a method that multiplies them, next to parameters without colors. -/
theorem color_greedy_repeatedNames :
    ["u", "t"].Nodup ∧ (byDegree (.ofMethod repeatedNames) ["u", "t"])[1]? = some "u" ∧
      ∃ c, (color (.ofMethod repeatedNames) ["u", "t"]).get? "u" = some c ∧
        c ≤ min 1 ((Graph.ofMethod repeatedNames).degree "u") := by
  have hnodup : ["u", "t"].Nodup := by decide
  have hplace : (byDegree (.ofMethod repeatedNames) ["u", "t"])[1]? = some "u" := by decide +kernel
  obtain ⟨-, -, hcolors, -⟩ := color_greedy (.ofMethod repeatedNames) hnodup
  obtain ⟨c, hc, hle, -⟩ := hcolors 1 "u" hplace
  exact ⟨hnodup, hplace, c, hc, hle⟩

end Classlet.Registers
