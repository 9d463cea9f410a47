import Classlet.Registers.Interference
import Mathlib.Data.List.Nodup

/-!
# The interference graph of a method

The graph lists the variables of the table and of the instructions, each once (`listed_ofMethod`,
`isNode_ofMethod`).  Edges are added while nodes are: an edge is kept at those of its ends that are
nodes by then, so where two variables meet, the edge is kept at one of them if it is in the table,
if an instruction before refers to it, or if this instruction names it before the other one
(`Noted`, `interferes_ofMethod_iff`).

Where all variables of the instructions are in the table, they are nodes from the start, so two
variables interfere if and only if some instruction refers to both (`interferes_ofMethod`).
-/

namespace Classlet.Registers

open Classlet.Ir

namespace Graph

variable {g : Graph} {a b x y : String}

/-- The variable is a node of the graph. -/
def IsNode (g : Graph) (x : String) : Prop := (g.adjacency.get? x).isSome = true

theorem interferes_iff : g.interferes x y = true ↔
    ∃ others, g.adjacency.get? x = some others ∧ y ∈ others := by
  unfold interferes neighborSet
  cases g.adjacency.get? x with
  | none => simp
  | some others => simp

theorem mem_neighbors : y ∈ g.neighbors x ↔ g.interferes x y = true := by
  unfold neighbors interferes
  rw [Std.TreeSet.mem_toList, Std.TreeSet.contains_iff_mem]

theorem isNode_of_interferes (h : g.interferes x y = true) : g.IsNode x := by
  obtain ⟨others, hx, -⟩ := interferes_iff.mp h
  exact Option.isSome_iff_exists.mpr ⟨others, hx⟩

/-! ### Nodes -/

theorem isNode_addNode : (g.addNode a).IsNode x ↔ g.IsNode x ∨ x = a ∧ a ≠ thisName := by
  unfold addNode IsNode
  by_cases ha : a = thisName
  · simp [ha]
  · cases h : g.adjacency.get? a with
    | some others =>
      simp only [Option.isNone_some, Bool.and_false, Bool.false_eq_true, if_false, iff_self_or]
      rintro ⟨rfl, -⟩
      rw [h]
      rfl
    | none =>
      by_cases hx : x = a <;> simp [ha, hx]

theorem interferes_addNode : (g.addNode a).interferes x y = g.interferes x y := by
  unfold addNode
  split
  · next h =>
    rw [Bool.and_eq_true, Option.isNone_iff_eq_none] at h
    unfold interferes neighborSet
    rw [Bindings.get?_put]
    split
    · next hx => rw [hx, h.2, Option.getD_some, Option.getD_none]
    · rfl
  · rfl

theorem isNode_foldl_addNode (names : List String) :
    (names.foldl addNode g).IsNode x ↔ g.IsNode x ∨ x ∈ names ∧ x ≠ thisName := by
  induction names generalizing g with
  | nil => simp
  | cons a names ih =>
    rw [List.foldl_cons, ih, isNode_addNode, List.mem_cons]
    constructor
    · rintro ((hg | ⟨rfl, ha⟩) | ⟨hx, hne⟩)
      · exact .inl hg
      · exact .inr ⟨.inl rfl, ha⟩
      · exact .inr ⟨.inr hx, hne⟩
    · rintro (hg | ⟨rfl | hx, hne⟩)
      · exact .inl (.inl hg)
      · exact .inl (.inr ⟨rfl, hne⟩)
      · exact .inr ⟨hx, hne⟩

theorem interferes_foldl_addNode (names : List String) :
    (names.foldl addNode g).interferes x y = g.interferes x y := by
  induction names generalizing g with
  | nil => rfl
  | cons a names ih => rw [List.foldl_cons, ih, interferes_addNode]

/-! ### Edges -/

@[simp]
theorem isNode_addNeighbor : (g.addNeighbor a b).IsNode x ↔ g.IsNode x := by
  unfold addNeighbor IsNode
  cases h : g.adjacency.get? a with
  | none => rfl
  | some others =>
    by_cases hx : x = a <;> simp [hx, h]

@[simp]
theorem isNode_addEdge : (g.addEdge a b).IsNode x ↔ g.IsNode x := by
  unfold addEdge
  split <;> simp

theorem isNode_foldl_addEdge (bs : List String) :
    (bs.foldl (fun g b => g.addEdge a b) g).IsNode x ↔ g.IsNode x := by
  induction bs generalizing g with
  | nil => rfl
  | cons b bs ih => rw [List.foldl_cons, ih, isNode_addEdge]

theorem interferes_addNeighbor :
    (g.addNeighbor a b).interferes x y = true ↔
      g.interferes x y = true ∨ g.IsNode x ∧ x = a ∧ y = b := by
  unfold addNeighbor
  cases h : g.adjacency.get? a with
  | none =>
    rw [iff_self_or]
    rintro ⟨hx, rfl, -⟩
    rw [IsNode, h] at hx
    cases hx
  | some others =>
    simp only [interferes_iff, Bindings.get?_put]
    by_cases hx : x = a
    · subst hx
      simp [IsNode, h, or_comm, @eq_comm _ y]
    · simp [hx]

/-- An edge is kept at those of its ends that are nodes. -/
theorem interferes_addEdge :
    (g.addEdge a b).interferes x y = true ↔
      g.interferes x y = true ∨ x ≠ y ∧ g.IsNode x ∧ (x = a ∧ y = b ∨ x = b ∧ y = a) := by
  unfold addEdge
  split
  · next hab =>
    subst hab
    rw [iff_self_or]
    rintro ⟨hne, -, ⟨rfl, rfl⟩ | ⟨rfl, rfl⟩⟩ <;> exact absurd rfl hne
  · next hab =>
    rw [interferes_addNeighbor, interferes_addNeighbor, isNode_addNeighbor, or_assoc, ← and_or_left]
    refine or_congr_right ⟨fun ⟨hx, h⟩ => ⟨?_, hx, h⟩, And.right⟩
    rcases h with ⟨rfl, rfl⟩ | ⟨rfl, rfl⟩
    · exact hab
    · exact Ne.symm hab

theorem interferes_foldl_addEdge (bs : List String) :
    (bs.foldl (fun g b => g.addEdge a b) g).interferes x y = true ↔
      g.interferes x y = true ∨ x ≠ y ∧ g.IsNode x ∧ (x = a ∧ y ∈ bs ∨ x ∈ bs ∧ y = a) := by
  induction bs generalizing g with
  | nil => simp
  | cons b bs ih =>
    rw [List.foldl_cons, ih, interferes_addEdge, isNode_addEdge, or_assoc, ← and_or_left,
      ← and_or_left, or_or_or_comm, ← and_or_left, ← or_and_right, List.mem_cons, List.mem_cons]

/-! ### The variables of one instruction -/

theorem isNode_addClique {vars : List String} (h : thisName ∉ vars) :
    (g.addClique vars).IsNode x ↔ g.IsNode x ∨ x ∈ vars := by
  induction vars generalizing g with
  | nil => simp [addClique]
  | cons a rest ih =>
    rw [List.mem_cons, not_or] at h
    rw [addClique, ih h.2, isNode_foldl_addEdge, isNode_addNode, List.mem_cons, or_assoc,
      and_iff_left (Ne.symm h.1)]

/-- **The variables of an instruction come to interfere**: each with those behind it, and with those
in front of it if it is a node before. -/
theorem interferes_addClique {vars : List String} (h : thisName ∉ vars) :
    (g.addClique vars).interferes x y = true ↔
      g.interferes x y = true ∨
        x ≠ y ∧ x ∈ vars ∧ y ∈ vars ∧ (g.IsNode x ∨ [x, y].Sublist vars) := by
  induction vars generalizing g with
  | nil => simp [addClique]
  | cons a rest ih =>
    rw [List.mem_cons, not_or] at h
    have hsub : [x, y].Sublist (a :: rest) ↔ [x, y].Sublist rest ∨ x = a ∧ y ∈ rest := by
      rw [List.sublist_cons_iff]
      simp [and_assoc]
    have hmem : [x, y].Sublist rest → x ∈ rest ∧ y ∈ rest := fun hs =>
      ⟨hs.subset List.mem_cons_self, hs.subset (by simp)⟩
    rw [addClique, ih h.2, interferes_foldl_addEdge, isNode_foldl_addEdge, interferes_addNode,
      isNode_addNode, and_iff_left (Ne.symm h.1), hsub, List.mem_cons, List.mem_cons]
    constructor
    · rintro ((hg | ⟨hne, hx, ⟨rfl, hy⟩ | ⟨hr, rfl⟩⟩) | ⟨hne, hx, hy, hn⟩)
      · exact .inl hg
      · exact .inr ⟨hne, .inl rfl, .inr hy, .inr (.inr ⟨rfl, hy⟩)⟩
      · exact .inr ⟨hne, .inr hr, .inl rfl, .inl (hx.resolve_right hne)⟩
      · refine .inr ⟨hne, .inr hx, .inr hy, ?_⟩
        rcases hn with (hn | rfl) | hn
        · exact .inl hn
        · exact .inr (.inr ⟨rfl, hy⟩)
        · exact .inr (.inl hn)
    · rintro (hg | ⟨hne, rfl | hx, rfl | hy, hn⟩)
      · exact .inl (.inl hg)
      · exact absurd rfl hne
      · exact .inl (.inr ⟨hne, .inr rfl, .inl ⟨rfl, hy⟩⟩)
      · rcases hn with hn | hn | hn
        · exact .inl (.inr ⟨hne, .inl hn, .inr ⟨hx, rfl⟩⟩)
        · exact .inr ⟨hne, hx, (hmem hn).2, .inr hn⟩
        · exact absurd hn.1 hne
      · refine .inr ⟨hne, hx, hy, ?_⟩
        rcases hn with hn | hn | ⟨rfl, -⟩
        · exact .inl (.inl hn)
        · exact .inr hn
        · exact .inl (.inr rfl)

/-! ### The instructions of a method -/

/-- The instruction refers to both variables, which are different and not the receiver. -/
def Meet (i : Instr) (x y : String) : Prop :=
  x ≠ y ∧ x ≠ thisName ∧ y ≠ thisName ∧ x ∈ i.vars ∧ y ∈ i.vars

/-- The variables meet in an instruction, and `x` is known by then: it satisfies `known`, an
instruction before refers to it, or this instruction names it before `y`. -/
def Noted (known : String → Prop) (instructions : List Instr) (x y : String) : Prop :=
  ∃ before i after, instructions = before ++ i :: after ∧ Meet i x y ∧
    (known x ∨ (∃ j ∈ before, x ∈ j.vars) ∨ [x, y].Sublist i.vars)

theorem Noted.exists_meet {known : String → Prop} {instructions : List Instr}
    (h : Noted known instructions x y) : ∃ i ∈ instructions, Meet i x y := by
  obtain ⟨before, i, after, rfl, hmeet, -⟩ := h
  exact ⟨i, by simp, hmeet⟩

theorem noted_cons {known : String → Prop} {i : Instr} {rest : List Instr} :
    Noted known (i :: rest) x y ↔
      Meet i x y ∧ (known x ∨ [x, y].Sublist i.vars) ∨
        Noted (fun x => known x ∨ x ∈ i.vars) rest x y := by
  constructor
  · rintro ⟨_ | ⟨j, before⟩, k, after, he, hmeet, hx⟩
    · cases he
      exact .inl ⟨hmeet, by simpa using hx⟩
    · cases he
      exact .inr ⟨before, k, after, rfl, hmeet, by simpa [or_assoc] using hx⟩
  · rintro (⟨hmeet, hx⟩ | ⟨before, k, after, rfl, hmeet, hx⟩)
    · exact ⟨[], i, rest, rfl, hmeet, by simpa using hx⟩
    · exact ⟨i :: before, k, after, rfl, hmeet, by simpa [or_assoc] using hx⟩

theorem isNode_addInstr (i : Instr) :
    (g.addInstr i).IsNode x ↔ g.IsNode x ∨ x ∈ i.vars ∧ x ≠ thisName := by
  rw [addInstr, isNode_addClique (by simp), List.mem_filter, bne_iff_ne]

theorem interferes_addInstr (i : Instr) :
    (g.addInstr i).interferes x y = true ↔
      g.interferes x y = true ∨ Meet i x y ∧ (g.IsNode x ∨ [x, y].Sublist i.vars) := by
  rw [addInstr, interferes_addClique (by simp)]
  simp only [List.mem_filter, bne_iff_ne]
  refine or_congr_right ?_
  constructor
  · rintro ⟨hne, ⟨hx, hx'⟩, ⟨hy, hy'⟩, hn⟩
    exact ⟨⟨hne, hx', hy', hx, hy⟩, hn.imp_right fun hs => hs.trans List.filter_sublist⟩
  · rintro ⟨⟨hne, hx', hy', hx, hy⟩, hn⟩
    refine ⟨hne, ⟨hx, hx'⟩, ⟨hy, hy'⟩, hn.imp_right fun hs => ?_⟩
    simpa [hx', hy'] using hs.filter (· != thisName)

theorem isNode_foldl_addInstr (instructions : List Instr) :
    (instructions.foldl addInstr g).IsNode x ↔
      g.IsNode x ∨ (∃ i ∈ instructions, x ∈ i.vars) ∧ x ≠ thisName := by
  induction instructions generalizing g with
  | nil => simp
  | cons i rest ih =>
    rw [List.foldl_cons, ih, isNode_addInstr]
    simp only [List.mem_cons, exists_eq_or_imp]
    rw [or_assoc, ← or_and_right]

theorem Noted.congr {known known' : String → Prop} {instructions : List Instr}
    (h : x ≠ thisName → (known x ↔ known' x)) :
    Noted known instructions x y ↔ Noted known' instructions x y := by
  unfold Noted
  refine exists_congr fun before => exists_congr fun i => exists_congr fun after => ?_
  exact and_congr_right fun _ => and_congr_right fun hmeet => or_congr_left (h hmeet.2.1)

theorem interferes_foldl_addInstr (instructions : List Instr) :
    (instructions.foldl addInstr g).interferes x y = true ↔
      g.interferes x y = true ∨ Noted g.IsNode instructions x y := by
  induction instructions generalizing g with
  | nil => simp [Noted]
  | cons i rest ih =>
    rw [List.foldl_cons, ih, interferes_addInstr, noted_cons, or_assoc]
    refine or_congr_right (or_congr_right (Noted.congr fun hx => ?_))
    rw [isNode_addInstr, and_iff_left hx]

/-! ### The list of nodes -/

/-- The nodes are listed once each. -/
structure Listed (g : Graph) : Prop where
  nodup : g.nodes.Nodup
  mem_iff : ∀ x, x ∈ g.nodes ↔ g.IsNode x

theorem Listed.addNode (h : g.Listed) (a : String) : (g.addNode a).Listed where
  nodup := by
    rw [nodes_addNode]
    split
    · exact h.nodup
    · next hnew =>
      refine List.nodup_append.mpr ⟨h.nodup, List.nodup_singleton a, ?_⟩
      rintro x hx y hy rfl
      obtain rfl := List.mem_singleton.mp hy
      exact hnew (.inr ((h.mem_iff x).mp hx))
  mem_iff x := by
    rw [isNode_addNode, nodes_addNode, ← h.mem_iff]
    by_cases ha : a = thisName
    · simp [ha]
    · by_cases hn : (g.adjacency.get? a).isSome = true
      · rw [if_pos (.inr hn), iff_self_or]
        rintro ⟨rfl, -⟩
        exact (h.mem_iff x).mpr hn
      · rw [if_neg (by simp [ha, hn])]
        simp [ha]

theorem Listed.addEdge (h : g.Listed) (a b : String) : (g.addEdge a b).Listed where
  nodup := by rw [nodes_addEdge]; exact h.nodup
  mem_iff := fun x => by rw [nodes_addEdge, isNode_addEdge, h.mem_iff]

theorem Listed.addClique (h : g.Listed) (vars : List String) : (g.addClique vars).Listed := by
  induction vars generalizing g with
  | nil => exact h
  | cons a rest ih =>
    refine ih ?_
    exact List.foldlRecOn rest _ (h.addNode a) fun g hg b _ => Listed.addEdge hg a b

/-- The graph of a method lists each variable once, whether its table has it or not. -/
theorem listed_ofMethod (m : MethodCode) : (ofMethod m).Listed := by
  have hempty : empty.Listed := ⟨.nil, fun x => by simp [empty, IsNode]⟩
  have hnames : (m.vars.names.foldl Graph.addNode empty).Listed :=
    List.foldlRecOn _ _ hempty fun g hg a _ => Listed.addNode hg a
  exact List.foldlRecOn _ _ hnames fun g hg i _ => Listed.addClique hg _

/-! ### The graph of a method -/

theorem isNode_ofNames (names : List String) :
    (names.foldl addNode empty).IsNode x ↔ x ∈ names ∧ x ≠ thisName := by
  rw [isNode_foldl_addNode, or_iff_right]
  simp [IsNode, empty]

theorem isNode_ofMethod {m : MethodCode} :
    (ofMethod m).IsNode x ↔
      (x ∈ m.vars.names ∨ ∃ i ∈ m.instructions, x ∈ i.vars) ∧ x ≠ thisName := by
  rw [ofMethod, isNode_foldl_addInstr, isNode_ofNames, or_and_right]

/-- **The neighbors of a variable** are those it meets where it is known by then. -/
theorem interferes_ofMethod_iff {m : MethodCode} :
    (ofMethod m).interferes x y = true ↔ Noted (· ∈ m.vars.names) m.instructions x y := by
  have hempty : (empty : Graph).interferes x y = false := by
    simp [interferes, neighborSet, empty]
  rw [ofMethod, interferes_foldl_addInstr, interferes_foldl_addNode, hempty]
  simp only [Bool.false_eq_true, false_or]
  exact Noted.congr fun hx => by rw [isNode_ofNames, and_iff_left hx]

theorem interferes_ofMethod_of_mem {m : MethodCode} (hx : x ∈ m.vars.names) :
    (ofMethod m).interferes x y = true ↔ ∃ i ∈ m.instructions, Meet i x y := by
  rw [interferes_ofMethod_iff]
  refine ⟨Noted.exists_meet, ?_⟩
  rintro ⟨i, hi, hmeet⟩
  obtain ⟨before, after, he⟩ := List.append_of_mem hi
  exact ⟨before, i, after, he, hmeet, .inl hx⟩

end Graph

theorem mem_names_of_verifyVars {m : MethodCode} (h : m.verifyVars = .ok ()) {i : Instr}
    (hi : i ∈ m.instructions) {x : String} (hx : x ∈ i.vars) : x ∈ m.vars.names := by
  unfold MethodCode.verifyVars at h
  split at h
  · cases h
  · next hnone =>
    rw [List.find?_eq_none] at hnone
    have hcontains := hnone x (List.mem_flatMap.mpr ⟨i, hi, hx⟩)
    rw [Bool.not_eq_true, Bool.not_eq_false'] at hcontains
    exact (m.vars.contains_iff_mem_names x).mp hcontains

namespace Graph

variable {m : MethodCode} {x y : String}

/-- **The nodes are the variables of the table.** -/
theorem mem_nodes_ofMethod (h : m.verifyVars = .ok ()) :
    x ∈ (ofMethod m).nodes ↔ x ∈ m.vars.names ∧ x ≠ thisName := by
  rw [(listed_ofMethod m).mem_iff, isNode_ofMethod, or_iff_left_of_imp]
  rintro ⟨i, hi, hx⟩
  exact mem_names_of_verifyVars h hi hx

/-- **Variables interfere where an instruction refers to both.** -/
theorem interferes_ofMethod (h : m.verifyVars = .ok ()) :
    (ofMethod m).interferes x y = true ↔ ∃ i ∈ m.instructions, Meet i x y := by
  by_cases hx : x ∈ m.vars.names
  · exact interferes_ofMethod_of_mem hx
  · have hmeets : ¬ ∃ i ∈ m.instructions, Meet i x y := fun ⟨i, hi, hmeet⟩ =>
      hx (mem_names_of_verifyVars h hi hmeet.2.2.2.1)
    rw [interferes_ofMethod_iff]
    exact iff_of_false (fun hn => hmeets hn.exists_meet) hmeets

end Graph

end Classlet.Registers
