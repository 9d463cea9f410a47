import Classlet.Proofs.Registers.Interference
import Mathlib.Data.Set.Card
import Mathlib.Data.Sym.Sym2

/-!
# Counting the edges of the interference graph

A degree is a number of neighbors, and the sum of all degrees counts each edge once for each end it
is kept at.  Where every edge is kept at both ends, half of that is the number of unordered pairs of
variables that interfere.

* `degree_eq_ncard`, `edgeCount_eq`: what degrees and the number of edges count in any graph that
  lists its nodes.
* `interference_exact`: the graph of a method, whether its table has all variables or not.
* `edge_kept_at_one_end`: an edge between two variables that are not in the table.
-/

namespace Classlet.Registers.Graph

open Classlet.Ir

variable {g : Graph} {x y : String}

/-! ### Pairs -/

/-- A symmetric relation without loops holds of twice as many pairs as unordered ones. -/
theorem card_eq_two_mul_ncard {s : Finset (String × String)}
    (hsymm : ∀ x y, (x, y) ∈ s → (y, x) ∈ s) (hne : ∀ x y, (x, y) ∈ s → x ≠ y) :
    s.card = 2 * {e : Sym2 String | ∃ x y, e = s(x, y) ∧ (x, y) ∈ s}.ncard := by
  have himage : {e : Sym2 String | ∃ x y, e = s(x, y) ∧ (x, y) ∈ s}
      = s.image fun p => s(p.1, p.2) := by
    ext e
    simp [@eq_comm _ e, and_comm]
  rw [himage, Set.ncard_coe_finset, Finset.card_eq_sum_card_image (fun p => s(p.1, p.2)),
    Finset.sum_const_nat, mul_comm]
  -- the pairs of one unordered pair are its two orders
  intro e he
  obtain ⟨⟨x, y⟩, hxy, rfl⟩ := Finset.mem_image.mp he
  have hfiber : {p ∈ s | s(p.1, p.2) = s(x, y)} = {(x, y), (y, x)} := by
    ext ⟨a, b⟩
    rw [Finset.mem_filter, Sym2.eq_iff, Finset.mem_insert, Finset.mem_singleton, Prod.mk.injEq,
      Prod.mk.injEq, and_iff_right_iff_imp]
    rintro (⟨rfl, rfl⟩ | ⟨rfl, rfl⟩)
    · exact hxy
    · exact hsymm _ _ hxy
  rw [hfiber, Finset.card_pair]
  intro h
  exact hne x y hxy (Prod.mk.inj h).1

/-! ### Degrees -/

theorem nodup_neighbors (g : Graph) (x : String) : (g.neighbors x).Nodup := by
  refine Std.TreeSet.distinct_toList.imp ?_
  rintro y _ h rfl
  exact h Std.ReflCmp.compare_self

theorem length_neighbors (g : Graph) (x : String) : (g.neighbors x).length = g.degree x :=
  Std.TreeSet.length_toList

theorem degree_eq_ncard (g : Graph) (x : String) :
    g.degree x = {y | g.interferes x y = true}.ncard := by
  have hset : {y | g.interferes x y = true} = (g.neighbors x).toFinset := by
    ext y
    simp [mem_neighbors]
  rw [hset, Set.ncard_coe_finset, List.toFinset_card_of_nodup (g.nodup_neighbors x),
    length_neighbors]

/-! ### The number of edges -/

/-- The edges as the nodes have them: each edge once for every end it is kept at. -/
def edgeEnds (g : Graph) : List (String × String) :=
  g.nodes.flatMap fun x => (g.neighbors x).map fun y => (x, y)

theorem mem_edgeEnds (h : g.Listed) : (x, y) ∈ g.edgeEnds ↔ g.interferes x y = true := by
  simp only [edgeEnds, List.mem_flatMap, List.mem_map, Prod.mk.injEq, mem_neighbors]
  constructor
  · rintro ⟨_, -, _, hxy, rfl, rfl⟩
    exact hxy
  · exact fun hxy => ⟨x, (h.mem_iff x).mpr (isNode_of_interferes hxy), y, hxy, rfl, rfl⟩

theorem nodup_edgeEnds (h : g.Listed) : g.edgeEnds.Nodup := by
  refine List.nodup_flatMap.mpr ⟨fun x _ => (g.nodup_neighbors x).map fun y z e => ?_, ?_⟩
  · exact (Prod.mk.inj e).2
  · refine h.nodup.imp fun hne => ?_
    simp only [Function.onFun, List.disjoint_left, List.mem_map]
    rintro _ ⟨y, -, rfl⟩ ⟨z, -, e⟩
    exact hne (Prod.mk.inj e).1.symm

theorem length_edgeEnds (g : Graph) :
    g.edgeEnds.length = g.nodes.foldr (fun x n => g.degree x + n) 0 := by
  rw [edgeEnds]
  induction g.nodes with
  | nil => rfl
  | cons x nodes ih =>
    rw [List.flatMap_cons, List.length_append, List.length_map, length_neighbors, ih,
      List.foldr_cons]

/-- The number of edges is half the number of the ends they are kept at. -/
theorem edgeCount_eq (h : g.Listed) :
    g.edgeCount = {p : String × String | g.interferes p.1 p.2 = true}.ncard / 2 := by
  have hset : {p : String × String | g.interferes p.1 p.2 = true} = g.edgeEnds.toFinset := by
    ext ⟨x, y⟩
    simp [mem_edgeEnds h]
  rw [hset, Set.ncard_coe_finset, List.toFinset_card_of_nodup (nodup_edgeEnds h), length_edgeEnds,
    edgeCount]

theorem edgeCount_eq_ncard (h : g.Listed)
    (hsymm : ∀ x y, g.interferes x y = true → g.interferes y x = true)
    (hne : ∀ x y, g.interferes x y = true → x ≠ y) :
    g.edgeCount = {e : Sym2 String | ∃ x y, e = s(x, y) ∧ g.interferes x y = true}.ncard := by
  have hmem : ∀ x y, (x, y) ∈ g.edgeEnds.toFinset ↔ g.interferes x y = true := fun x y => by
    rw [List.mem_toFinset, mem_edgeEnds h]
  have hcard := card_eq_two_mul_ncard (s := g.edgeEnds.toFinset)
    (fun x y hxy => (hmem y x).mpr (hsymm x y ((hmem x y).mp hxy)))
    (fun x y hxy => hne x y ((hmem x y).mp hxy))
  simp only [hmem] at hcard
  rw [List.toFinset_card_of_nodup (nodup_edgeEnds h), length_edgeEnds] at hcard
  rw [edgeCount, hcard]
  omega

/-! ### The graph of a method -/

/-- Some instruction of the method refers to both variables. -/
def MeetIn (m : MethodCode) (x y : String) : Prop := ∃ i ∈ m.instructions, Meet i x y

theorem Meet.symm {i : Instr} (h : Meet i x y) : Meet i y x :=
  ⟨h.1.symm, h.2.2.1, h.2.1, h.2.2.2.2, h.2.2.2.1⟩

theorem MeetIn.symm {m : MethodCode} (h : MeetIn m x y) : MeetIn m y x := by
  obtain ⟨i, hi, hmeet⟩ := h
  exact ⟨i, hi, hmeet.symm⟩

/-- Of two members of a list, one comes before the other. -/
theorem sublist_or_sublist {l : List String} (hx : x ∈ l) (hy : y ∈ l) (hne : x ≠ y) :
    [x, y].Sublist l ∨ [y, x].Sublist l := by
  induction l with
  | nil => cases hx
  | cons a l ih =>
    rcases List.mem_cons.mp hx with rfl | hxl
    · have hyl : y ∈ l := (List.mem_cons.mp hy).resolve_left hne.symm
      exact .inl ((List.singleton_sublist.mpr hyl).cons_cons x)
    · rcases List.mem_cons.mp hy with rfl | hyl
      · exact .inr ((List.singleton_sublist.mpr hxl).cons_cons y)
      · exact (ih hxl hyl).imp (·.cons a) (·.cons a)

theorem noted_or_noted {m : MethodCode} (h : MeetIn m x y) :
    Noted (· ∈ m.vars.names) m.instructions x y ∨ Noted (· ∈ m.vars.names) m.instructions y x := by
  obtain ⟨i, hi, hmeet⟩ := h
  obtain ⟨before, after, he⟩ := List.append_of_mem hi
  obtain ⟨hne, -, -, hx, hy⟩ := id hmeet
  rcases sublist_or_sublist hx hy hne with hs | hs
  · exact .inl ⟨before, i, after, he, hmeet, .inr (.inr hs)⟩
  · exact .inr ⟨before, i, after, he, hmeet.symm, .inr (.inr hs)⟩

/-- Wherever two variables meet, each of them is known by then. -/
def Settled (m : MethodCode) : Prop :=
  ∀ x y, MeetIn m x y → Noted (· ∈ m.vars.names) m.instructions x y

theorem settled_of_verifyVars {m : MethodCode} (h : m.verifyVars = .ok ()) : Settled m :=
  fun _ _ hmeet => interferes_ofMethod_iff.mp ((interferes_ofMethod h).mpr hmeet)

/-- **The interference graph, edge by edge.**  The nodes are the variables of the table and of the
instructions without the receiver, each once.  An edge joins two variables if and only if they meet
in some instruction; it is kept at the one that is known by then, and at one of them at least.  The
degree of a variable is the number of edges kept at it, and the number of edges is half the number
of the ends at which they are kept.

Where all edges are kept at both ends, two variables interfere if and only if they meet, in either
order; the degree of a variable is the number of those it meets, and the number of edges that of
unordered pairs of variables that meet. -/
theorem interference_exact (m : MethodCode) :
    ((ofMethod m).nodes.Nodup ∧ ∀ x, x ∈ (ofMethod m).nodes ↔
      (x ∈ m.vars.names ∨ ∃ i ∈ m.instructions, x ∈ i.vars) ∧ x ≠ thisName) ∧
    (∀ x y, ((ofMethod m).interferes x y = true ↔ Noted (· ∈ m.vars.names) m.instructions x y) ∧
      ((ofMethod m).interferes x y = true ∨ (ofMethod m).interferes y x = true ↔ MeetIn m x y)) ∧
    (∀ x, (ofMethod m).degree x = {y | Noted (· ∈ m.vars.names) m.instructions x y}.ncard) ∧
    (ofMethod m).edgeCount = {p : String × String |
      Noted (· ∈ m.vars.names) m.instructions p.1 p.2}.ncard / 2 ∧
    (Settled m →
      (∀ x y, (ofMethod m).interferes x y = true ↔ MeetIn m x y) ∧
      (∀ x y, (ofMethod m).interferes x y = (ofMethod m).interferes y x) ∧
      (∀ x, (ofMethod m).degree x = {y | MeetIn m x y}.ncard) ∧
      (ofMethod m).edgeCount = {e : Sym2 String | ∃ x y, e = s(x, y) ∧ MeetIn m x y}.ncard) := by
  have hlisted := listed_ofMethod m
  refine ⟨⟨hlisted.nodup, fun x => (hlisted.mem_iff x).trans isNode_ofMethod⟩,
    fun x y => ⟨interferes_ofMethod_iff, ?_⟩, fun x => ?_, ?_, fun hsettled => ?_⟩
  · rw [interferes_ofMethod_iff, interferes_ofMethod_iff]
    exact ⟨fun h => h.elim Noted.exists_meet fun h => MeetIn.symm h.exists_meet, noted_or_noted⟩
  · simp only [degree_eq_ncard, interferes_ofMethod_iff]
  · simp only [edgeCount_eq hlisted, interferes_ofMethod_iff]
  · have hmeet : ∀ x y, (ofMethod m).interferes x y = true ↔ MeetIn m x y := fun x y =>
      interferes_ofMethod_iff.trans ⟨Noted.exists_meet, hsettled x y⟩
    have hsymm : ∀ x y, (ofMethod m).interferes x y = true → (ofMethod m).interferes y x = true :=
      fun x y h => (hmeet y x).mpr ((hmeet x y).mp h).symm
    refine ⟨hmeet, fun x y => Bool.eq_iff_iff.mpr ⟨hsymm x y, hsymm y x⟩, fun x => ?_, ?_⟩
    · simp only [degree_eq_ncard, hmeet]
    · rw [edgeCount_eq_ncard hlisted hsymm fun x y h => ?_]
      · simp only [hmeet]
      · obtain ⟨i, -, hne, -⟩ := (hmeet x y).mp h
        exact hne

/-- A method whose table has the variables of its addition, one of them twice in it. -/
def doubling : MethodCode where
  name := "double"
  isPublic := true
  isStatic := false
  params := [⟨"x", .int⟩]
  returnType := .int
  instructions := [.binary "t" .add (.var "x") (.var "x"), .ret (some (.var "t"))]
  vars := .ofEntries [("this", ⟨0, .object "C"⟩), ("x", ⟨1, .int⟩), ("t", ⟨2, .int⟩)]
  registers := none

/-- The variables of the addition meet, so each of them has the other as its neighbor. -/
theorem interference_exact_doubling :
    Settled doubling ∧ (ofMethod doubling).interferes "x" "t" = true ∧
      (ofMethod doubling).degree "t" = {y | MeetIn doubling "t" y}.ncard := by
  have hv : doubling.verifyVars = .ok () := by decide +kernel
  have hsettled := settled_of_verifyVars hv
  obtain ⟨-, -, -, -, h⟩ := interference_exact doubling
  obtain ⟨hmeet, -, hdegree, -⟩ := h hsettled
  have hxt : MeetIn doubling "x" "t" :=
    ⟨.binary "t" .add (.var "x") (.var "x"), by simp [doubling], by decide, by decide, by decide,
      by decide, by decide⟩
  exact ⟨hsettled, (hmeet "x" "t").mpr hxt, hdegree "t"⟩

/-- A method without a table that copies one variable into another. -/
def copying : MethodCode where
  name := "copy"
  isPublic := true
  isStatic := true
  params := []
  returnType := .void
  instructions := [.move "a" (.var "b")]
  vars := .empty
  registers := none

/-- The variables of the copy meet, but the second one is no node yet when the edge is added: it has
no neighbor, and no edge is counted. -/
theorem edge_kept_at_one_end :
    MeetIn copying "a" "b" ∧ MeetIn copying "b" "a" ∧
      (ofMethod copying).interferes "a" "b" = true ∧
      (ofMethod copying).interferes "b" "a" = false ∧
      (ofMethod copying).degree "b" = 0 ∧ (ofMethod copying).edgeCount = 0 := by
  have hmeet : MeetIn copying "a" "b" :=
    ⟨.move "a" (.var "b"), by simp [copying], by decide, by decide, by decide, by decide, by decide⟩
  refine ⟨hmeet, hmeet.symm, ?_⟩
  decide +kernel

end Classlet.Registers.Graph
