import Classlet.Registers.Interference

/-!
# Coloring

Greedy coloring in the order of falling degree: every variable gets the lowest color that none of
its colored neighbors has.
-/

namespace Classlet.Registers

open Classlet.Ir

/-- Puts a name in front of the first that has no higher key. -/
def insertByKey (entry : Nat × String) : List (Nat × String) → List (Nat × String)
  | [] => [entry]
  | other :: rest =>
    if other.1 ≤ entry.1 then entry :: other :: rest else other :: insertByKey entry rest

/-- Names in the order of falling keys.  Names of one key keep their order. -/
def sortByKey : List (Nat × String) → List (Nat × String)
  | [] => []
  | entry :: rest => insertByKey entry (sortByKey rest)

/-- Names in the order of falling degree.  Names of one degree keep their order. -/
def byDegree (g : Graph) (names : List String) : List String :=
  (sortByKey (names.map fun name => (g.degree name, name))).map (·.2)

/-- The lowest color that is not taken.  One of the first `taken.length + 1` colors is free. -/
def lowestFree (taken : List Nat) : Nat :=
  let found := Std.TreeSet.ofList taken
  ((List.range (taken.length + 1)).find? fun c => !found.contains c).getD 0

/-- The lowest free color is found among the first ones. -/
theorem lowestFree_eq (taken : List Nat) : lowestFree taken
    = ((List.range (taken.length + 1)).find? fun c => !taken.contains c).getD 0 := by
  simp [lowestFree]

/-- The colors of the colored neighbors of a variable. -/
def takenColors (g : Graph) (colors : Bindings Nat) (name : String) : List Nat :=
  (g.neighbors name).filterMap colors.get?

/-- Colors one variable. -/
def colorOne (g : Graph) (colors : Bindings Nat) (name : String) : Bindings Nat :=
  colors.put name (lowestFree (takenColors g colors name))

/-- The greedy coloring of the given variables.  Others do not constrain it. -/
def color (g : Graph) (names : List String) : Bindings Nat :=
  (byDegree g names).foldl (colorOne g) .none

end Classlet.Registers
