import Classlet.Proofs.Registers.Edges
import Classlet.Proofs.Registers.Layout

/-!
# Independence of the order of instructions

Where the table of a method has all variables of its instructions, the nodes of the interference
graph are those of the table in its order (`nodes_ofMethod`), and the instructions only decide which
of them meet.  Coloring asks the graph for nothing but its neighbors (`color_congr`), so methods in
which the same variables meet have the same registers, in whatever order their instructions stand
and however often each of them occurs.

Main statement: `allocate_eq_of_meetIn`.
-/

namespace Classlet.Registers

open Classlet.Ir

namespace Graph

variable {g g' : Graph} {m m' : MethodCode} {x : String}

/-! ### Nodes -/

theorem nodes_foldl_addEdge (a : String) (bs : List String) :
    (bs.foldl (fun g b => g.addEdge a b) g).nodes = g.nodes := by
  induction bs generalizing g with
  | nil => rfl
  | cons b bs ih => rw [List.foldl_cons, ih, nodes_addEdge]

theorem nodes_addClique {vars : List String} (h : ∀ x ∈ vars, g.IsNode x) :
    (g.addClique vars).nodes = g.nodes := by
  induction vars generalizing g with
  | nil => rfl
  | cons a rest ih =>
    rw [List.forall_mem_cons] at h
    have hrest : ∀ x ∈ rest, (rest.foldl (fun g b => g.addEdge a b) (g.addNode a)).IsNode x :=
      fun x hx => (isNode_foldl_addEdge rest).mpr (isNode_addNode.mpr (.inl (h.2 x hx)))
    rw [addClique, ih hrest, nodes_foldl_addEdge, nodes_addNode, if_pos (.inr h.1)]

theorem nodes_foldl_addInstr {instructions : List Instr}
    (h : ∀ i ∈ instructions, ∀ x ∈ i.vars, x ≠ thisName → g.IsNode x) :
    (instructions.foldl addInstr g).nodes = g.nodes := by
  induction instructions generalizing g with
  | nil => rfl
  | cons i rest ih =>
    rw [List.forall_mem_cons] at h
    have hvars : ∀ x ∈ i.vars.filter (· != thisName), g.IsNode x := fun x hx => by
      rw [List.mem_filter, bne_iff_ne] at hx
      exact h.1 x hx.1 hx.2
    have hrest : ∀ j ∈ rest, ∀ x ∈ j.vars, x ≠ thisName → (g.addInstr i).IsNode x :=
      fun j hj x hx hne => (isNode_addInstr i).mpr (.inl (h.2 j hj x hx hne))
    rw [List.foldl_cons, ih hrest, addInstr, nodes_addClique hvars]

/-- **The nodes are those of the table**, in its order. -/
theorem nodes_ofMethod (h : m.verifyVars = .ok ()) :
    (ofMethod m).nodes = (m.vars.names.foldl addNode empty).nodes :=
  nodes_foldl_addInstr fun _ hi _ hx hne =>
    (isNode_ofNames m.vars.names).mpr ⟨mem_names_of_verifyVars h hi hx, hne⟩

/-! ### Neighbors -/

/-- Neighbors are listed in the order of their names, however they were added. -/
theorem neighbors_congr (h : ∀ y, g'.interferes x y = g.interferes x y) :
    g'.neighbors x = g.neighbors x :=
  (Std.TreeSet.Equiv.of_forall_contains_eq h).toList_eq

theorem degree_congr (h : ∀ y, g'.interferes x y = g.interferes x y) :
    g'.degree x = g.degree x := by
  rw [← length_neighbors, neighbors_congr h, length_neighbors]

theorem interferes_eq_of_meetIn (hv : m.verifyVars = .ok ()) (hv' : m'.verifyVars = .ok ())
    (hmeet : ∀ x y, MeetIn m' x y ↔ MeetIn m x y) (x y : String) :
    (ofMethod m').interferes x y = (ofMethod m).interferes x y := by
  rw [Bool.eq_iff_iff, interferes_ofMethod hv, interferes_ofMethod hv']
  exact hmeet x y

theorem meetIn_congr (h : ∀ i, i ∈ m'.instructions ↔ i ∈ m.instructions) (x y : String) :
    MeetIn m' x y ↔ MeetIn m x y :=
  exists_congr fun i => and_congr_left' (h i)

end Graph

/-! ### Coloring -/

section Coloring

variable {g g' : Graph} (h : ∀ x y, g'.interferes x y = g.interferes x y)
include h

theorem byDegree_congr (names : List String) : byDegree g' names = byDegree g names := by
  have hkey : (fun name => (g'.degree name, name)) = fun name => (g.degree name, name) :=
    funext fun name => by rw [Graph.degree_congr (h name)]
  rw [byDegree, byDegree, hkey]

theorem colorOne_congr : colorOne g' = colorOne g := by
  funext colors name
  rw [colorOne, colorOne, takenColors, takenColors, Graph.neighbors_congr (h name)]

/-- **Coloring asks a graph for its neighbors only.** -/
theorem color_congr (names : List String) : color g' names = color g names := by
  rw [color, color, byDegree_congr h, colorOne_congr h]

end Coloring

variable {m m' : MethodCode}

theorem isPinned_congr (hparams : m'.params = m.params) : m'.isPinned = m.isPinned := by
  funext name
  rw [MethodCode.isPinned, MethodCode.isPinned, hparams]

theorem layout_congr (hstatic : m'.isStatic = m.isStatic) (hparams : m'.params = m.params)
    (colors : Bindings Nat) : layout m' colors = layout m colors := by
  rw [layout, layout, hstatic, hparams]

/-- **The registers of a method depend on which of its variables meet.**  Take two methods of one
name, both static or both not, with the same parameters and the same table, which has all variables
of their instructions.  If the same pairs of variables meet in them, then in every mode they get the
same registers or the same error. -/
theorem allocate_eq_of_meetIn (hname : m'.name = m.name) (hstatic : m'.isStatic = m.isStatic)
    (hparams : m'.params = m.params) (hvars : m'.vars.entries = m.vars.entries)
    (hv : m.verifyVars = .ok ()) (hv' : m'.verifyVars = .ok ())
    (hmeet : ∀ x y, Graph.MeetIn m' x y ↔ Graph.MeetIn m x y) (mode : Mode) :
    allocate mode m' = allocate mode m := by
  have hnames : m'.vars.names = m.vars.names := by rw [VarTable.names, hvars, VarTable.names]
  have hnodes : (Graph.ofMethod m').nodes = (Graph.ofMethod m).nodes := by
    rw [Graph.nodes_ofMethod hv, Graph.nodes_ofMethod hv', hnames]
  have hcolors : localColors m' = localColors m := by
    rw [localColors, localColors, color_congr (Graph.interferes_eq_of_meetIn hv hv' hmeet), hnodes,
      isPinned_congr hparams]
  cases mode with
  | disabled => rfl
  | minimize => rw [allocate, allocate, hcolors, layout_congr hstatic hparams]
  | limit available => rw [allocate, allocate, hcolors, layout_congr hstatic hparams, hname]

/-- The method `repeatedNames` with its instructions turned around and some of them repeated. -/
def turnedAround : MethodCode :=
  { repeatedNames with
    instructions := repeatedNames.instructions.reverse ++ repeatedNames.instructions.take 2 }

/-- Both orders get the same registers, and the same error where one color is all there is. -/
theorem allocate_eq_of_meetIn_turnedAround :
    turnedAround.instructions ≠ repeatedNames.instructions ∧
      repeatedNames.verifyVars = .ok () ∧ turnedAround.verifyVars = .ok () ∧
      (∀ x y, Graph.MeetIn turnedAround x y ↔ Graph.MeetIn repeatedNames x y) ∧
      allocate (.limit 1) turnedAround = allocate (.limit 1) repeatedNames ∧
      allocate (.limit 2) turnedAround = allocate (.limit 2) repeatedNames := by
  have hname : turnedAround.name = repeatedNames.name := rfl
  have hstatic : turnedAround.isStatic = repeatedNames.isStatic := rfl
  have hparams : turnedAround.params = repeatedNames.params := rfl
  have hvars : turnedAround.vars.entries = repeatedNames.vars.entries := rfl
  have hv : repeatedNames.verifyVars = .ok () := by decide +kernel
  have hv' : turnedAround.verifyVars = .ok () := by decide +kernel
  have hmeet : ∀ x y, Graph.MeetIn turnedAround x y ↔ Graph.MeetIn repeatedNames x y :=
    Graph.meetIn_congr fun i => by
      rw [turnedAround, List.mem_append, List.mem_reverse, or_iff_left_iff_imp]
      exact List.mem_of_mem_take
  have hsame := allocate_eq_of_meetIn hname hstatic hparams hvars hv hv' hmeet
  exact ⟨by decide, hv, hv', hmeet, hsame (.limit 1), hsame (.limit 2)⟩

end Classlet.Registers
