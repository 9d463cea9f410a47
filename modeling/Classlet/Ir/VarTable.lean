import Classlet.Ir.ValueType
import Std.Data.TreeMap

/-!
# Variable tables

The variables of a method in the order they were added.  A variable added to the table is also
entered into an index, so that it is found without a search; a table read from elsewhere starts
without an index, and its entries, among which a name may be repeated, are searched.
-/

namespace Classlet.Ir

/-- What a table knows about a variable. -/
structure VarInfo where
  virtualReg : Nat
  ty : ValueType
  deriving DecidableEq, Inhabited

/-- The variables of a method. -/
structure VarTable where
  entries : List (String × VarInfo)
  /-- The place of some of the names among the entries. -/
  index : Std.TreeMap String Nat
  indexed : ∀ (name : String) (i : Nat), index[name]? = some i → entries[i]?.map Prod.fst = some name

namespace VarTable

/-- The table of the given entries, without an index. -/
def ofEntries (entries : List (String × VarInfo)) : VarTable := ⟨entries, ∅, by simp⟩

/-- The table without variables. -/
def empty : VarTable := ofEntries []

/-- What the table knows about a name, by the index if it has the name, else by a search. -/
def get? (t : VarTable) (name : String) : Option VarInfo :=
  match t.index[name]? with
  | some i => t.entries[i]?.map (·.2)
  | none => (t.entries.find? (·.1 == name)).map (·.2)

/-- The name is in the table. -/
def contains (t : VarTable) (name : String) : Bool := (t.get? name).isSome

/-- The virtual register of a name. -/
def position? (t : VarTable) (name : String) : Option Nat := (t.get? name).map (·.virtualReg)

/-- The number of entries. -/
def size (t : VarTable) : Nat := t.entries.length

/-- The names in order. -/
def names (t : VarTable) : List String := t.entries.map (·.1)

/-- Adds an entry at the end. -/
def push (t : VarTable) (name : String) (info : VarInfo) : VarTable where
  entries := t.entries ++ [(name, info)]
  index := t.index.insert name t.size
  indexed := by
    intro other i h
    rw [Std.TreeMap.getElem?_insert] at h
    split at h
    · next hname =>
      cases h
      simp [size, Std.LawfulEqCmp.eq_of_compare hname]
    · have hold := t.indexed other i h
      have hlt : i < t.entries.length := by
        cases he : t.entries[i]? with
        | none => rw [he] at hold; cases hold
        | some e => exact (List.getElem?_eq_some_iff.mp he).1
      rw [List.getElem?_append_left hlt, hold]

/-- Adds a variable and returns its virtual register.  A name that is in the table keeps its
entry. -/
def insert (t : VarTable) (name : String) (ty : ValueType) : Nat × VarTable :=
  match t.get? name with
  | some info => (info.virtualReg, t)
  | none => (t.size, t.push name ⟨t.size, ty⟩)

/-- The tables have the same entries. -/
def sameEntries (a b : VarTable) : Bool := a.entries == b.entries

/-- A table without an index finds the first entry of a name. -/
@[simp]
theorem get?_ofEntries (entries : List (String × VarInfo)) (name : String) :
    (ofEntries entries).get? name = (entries.find? (·.1 == name)).map (·.2) := by
  simp [get?, ofEntries]

/-- A name is added at the end, and only if it is not in the table. -/
theorem names_insert (t : VarTable) (name : String) (ty : ValueType) :
    (t.insert name ty).2.names = if t.contains name then t.names else t.names ++ [name] := by
  unfold insert contains
  cases t.get? name <;> simp [names, push]

theorem contains_iff_mem_names (t : VarTable) (name : String) :
    t.contains name = true ↔ name ∈ t.names := by
  unfold contains get? names
  cases hi : t.index[name]? with
  | some i =>
    have hname := t.indexed name i hi
    obtain ⟨entry, he, rfl⟩ := Option.map_eq_some_iff.mp hname
    simp only [he, Option.map_some, Option.isSome_some, true_iff]
    exact List.mem_map_of_mem (List.mem_of_getElem? he)
  | none =>
    simp only [Option.isSome_map, List.find?_isSome, beq_iff_eq, List.mem_map]

end VarTable

end Classlet.Ir
