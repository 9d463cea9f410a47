import Classlet.Bindings

/-!
# Fresh names

Numbers for names with a common stem.  Every stem has a counter of its own, and a fresh name is the
stem with the next number that makes a name which is not reserved.
-/

namespace Classlet.Ir

/-- The counters, and the names never to be given out. -/
structure NameSupply where
  counters : Bindings Nat
  reserved : List String
  deriving Inhabited

namespace NameSupply

/-- A supply that has given out nothing yet. -/
def ofReserved (reserved : List String) : NameSupply := ⟨.none, reserved⟩

/-- The next number of a stem. -/
def peek (s : NameSupply) (stem : String) : Nat := (s.counters.get? stem).getD 0

/-- Takes the next number of a stem. -/
def next (s : NameSupply) (stem : String) : Nat × NameSupply :=
  let n := s.peek stem
  (n, { s with counters := s.counters.put stem (n + 1) })

/-- Taking a number moves the counter of its stem on by one, and no other. -/
@[simp]
theorem peek_next (s : NameSupply) (stem other : String) :
    (s.next stem).2.peek other = if other = stem then s.peek stem + 1 else s.peek other := by
  simp only [next, peek, Bindings.get?_put]
  split <;> rfl

@[simp]
theorem reserved_next (s : NameSupply) (stem : String) : (s.next stem).2.reserved = s.reserved :=
  rfl

/-- Takes numbers of a stem until one makes a name that is not reserved, at most `fuel` reserved
ones before it. -/
def freshWithin (stem : String) : Nat → NameSupply → String × NameSupply
  | 0, s =>
    let (n, s) := s.next stem
    (stem ++ toString n, s)
  | fuel + 1, s =>
    let (n, s) := s.next stem
    let name := stem ++ toString n
    if s.reserved.contains name then freshWithin stem fuel s else (name, s)

/-- The next name of a stem that is not reserved.  Different numbers make different names, so at
most as many are passed over as there are reserved ones. -/
def fresh (s : NameSupply) (stem : String) : String × NameSupply :=
  freshWithin stem s.reserved.length s

end NameSupply

end Classlet.Ir
