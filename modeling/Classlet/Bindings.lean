import Std.Data.TreeMap

/-!
# Bindings

Values bound to names.  Every name that was bound holds the value it was bound to last.

* `get?_put`, `get?_unbind`: binding or unbinding a name changes the look-up of that name only.
-/

namespace Classlet

/-- Values bound to names. -/
abbrev Bindings (α : Type) := Std.TreeMap String α

namespace Bindings

variable {α : Type}

/-- No name is bound. -/
def none : Bindings α := ∅

/-- The value bound to a name. -/
def get? (b : Bindings α) (name : String) : Option α := b[name]?

/-- Binds a name to a value, in the place of the value it was bound to before. -/
def put (b : Bindings α) (name : String) (a : α) : Bindings α := b.insert name a

/-- Binds a name to nothing. -/
def unbind (b : Bindings α) (name : String) : Bindings α := b.erase name

/-- The names that are bound, in their order, with their values. -/
def pairs (b : Bindings α) : List (String × α) := b.toList

/-- The values that are bound. -/
def bound (b : Bindings α) : List α := b.pairs.map (·.2)

@[simp]
theorem get?_none (name : String) : (none : Bindings α).get? name = Option.none := by
  simp [get?, none]

/-- Binding a name changes what that name is bound to and nothing else. -/
@[simp]
theorem get?_put (b : Bindings α) (name other : String) (a : α) :
    (b.put name a).get? other = if other = name then some a else b.get? other := by
  simp only [get?, put, Std.TreeMap.getElem?_insert, Std.compare_eq_iff_eq,
    @eq_comm _ name]

@[simp]
theorem get?_unbind (b : Bindings α) (name other : String) :
    (b.unbind name).get? other = if other = name then Option.none else b.get? other := by
  simp only [get?, unbind, Std.TreeMap.getElem?_erase, Std.compare_eq_iff_eq,
    @eq_comm _ name]

end Bindings

end Classlet
