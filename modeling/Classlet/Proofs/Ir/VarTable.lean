import Classlet.Ir.VarTable
import Mathlib.Data.List.Nodup

/-!
# Variable tables answer like a search

Which way a table goes to look a name up depends on how it came about: a name that was added is in
the index, one that was read from elsewhere is not.  The answer does not depend on it.

* `get?_push`, `get?_insert`: what adding a variable means for every name.
* `Searched`: each name is looked up in its first entry; `Searched.insert`: adding keeps this.
* `InOrder`: no name is repeated, and every variable is in the virtual register of its place.

Main statement: `agrees_with_search`, for the tables that variables were added to.
-/

namespace Classlet.Ir.VarTable

variable {t : VarTable} {name : String}

/-! ### Adding a variable -/

theorem get?_eq_none_iff : t.get? name = none ↔ name ∉ t.names := by
  rw [← contains_iff_mem_names, contains, Option.not_isSome_iff_eq_none]

theorem get?_push (t : VarTable) (name : String) (info : VarInfo) (other : String) :
    (t.push name info).get? other = if other = name then some info else t.get? other := by
  unfold get? push
  simp only [Std.TreeMap.getElem?_insert]
  by_cases hname : name = other
  · subst hname
    simp [size]
  · have hcmp : ¬ compare name other = .eq := fun h => hname (Std.LawfulEqCmp.eq_of_compare h)
    rw [if_neg hcmp, if_neg (Ne.symm hname)]
    cases hi : t.index[other]? with
    | none => simp [hname]
    | some i =>
      obtain ⟨entry, hentry, -⟩ := Option.map_eq_some_iff.mp (t.indexed other i hi)
      have hlt := (List.getElem?_eq_some_iff.mp hentry).1
      simp only [List.getElem?_append_left hlt]

theorem get?_insert (t : VarTable) (name : String) (ty : ValueType) (other : String) :
    (t.insert name ty).2.get? other
      = (t.get? other).or (if other = name then some ⟨t.size, ty⟩ else none) := by
  unfold insert
  by_cases h : other = name
  · subst h
    cases hother : t.get? other with
    | some info => exact hother
    | none => simp [get?_push]
  · cases t.get? name <;> simp [get?_push, h]

theorem mem_names_insert (t : VarTable) (name : String) (ty : ValueType) {x : String} :
    x ∈ (t.insert name ty).2.names ↔ x ∈ t.names ∨ x = name := by
  rw [names_insert]
  split
  · next h =>
    rw [contains_iff_mem_names] at h
    exact ⟨.inl, fun hx => hx.elim (fun hx => hx) fun hx => hx ▸ h⟩
  · simp

/-- The table after some variables were added, one after the other. -/
def insertAll (t : VarTable) (added : List (String × ValueType)) : VarTable :=
  added.foldl (fun t v => (t.insert v.1 v.2).2) t

/-! ### Tables that answer like a search -/

/-- Each name is looked up in its first entry. -/
def Searched (t : VarTable) : Prop :=
  ∀ name, t.get? name = (t.entries.find? (·.1 == name)).map (·.2)

theorem searched_ofEntries (entries : List (String × VarInfo)) : (ofEntries entries).Searched :=
  get?_ofEntries entries

/-- A new entry is found by its name, as the only one of that name. -/
theorem Searched.push (h : t.Searched) (hname : t.get? name = none) (info : VarInfo) :
    (t.push name info).Searched := by
  intro other
  have hentries : (t.push name info).entries = t.entries ++ [(name, info)] := rfl
  rw [get?_push, hentries, List.find?_append]
  by_cases ho : other = name
  · have hnone : t.entries.find? (·.1 == name) = none :=
      Option.map_eq_none_iff.mp ((h name).symm.trans hname)
    simp [ho, hnone]
  · have hne : (name == other) = false := by simpa using Ne.symm ho
    simp [ho, h other, hne]

/-- **Adding a variable keeps the answers those of a search.** -/
theorem Searched.insert (h : t.Searched) (name : String) (ty : ValueType) :
    (t.insert name ty).2.Searched := by
  unfold VarTable.insert
  cases hname : t.get? name with
  | some info => exact h
  | none => exact h.push hname _

theorem Searched.insertAll (h : t.Searched) (added : List (String × ValueType)) :
    (t.insertAll added).Searched :=
  List.foldlRecOn added _ h fun _ ht v _ => ht.insert v.1 v.2

/-! ### Tables in order -/

/-- No name is repeated, and every variable is in the virtual register of its place. -/
structure InOrder (t : VarTable) : Prop where
  nodup : t.names.Nodup
  virtualReg_eq : ∀ (i : Nat) (entry : String × VarInfo), t.entries[i]? = some entry →
    entry.2.virtualReg = i

theorem InOrder.empty : VarTable.empty.InOrder := ⟨List.nodup_nil, fun _ _ h => by cases h⟩

theorem InOrder.insert {t : VarTable} (h : t.InOrder) (name : String) (ty : ValueType) :
    (t.insert name ty).2.InOrder := by
  refine ⟨?_, ?_⟩
  · rw [names_insert]
    split
    · exact h.nodup
    · next hc =>
      rw [contains_iff_mem_names] at hc
      exact List.nodup_append'.mpr ⟨h.nodup, List.nodup_singleton _, by simpa using hc⟩
  · intro i entry he
    unfold VarTable.insert at he
    split at he
    · exact h.virtualReg_eq i entry he
    · simp only [push] at he
      rcases Nat.lt_or_ge i t.entries.length with hi | hi
      · rw [List.getElem?_append_left hi] at he
        exact h.virtualReg_eq i entry he
      · rw [List.getElem?_append_right hi, List.getElem?_singleton] at he
        split at he
        · next hzero =>
          cases he
          exact Nat.le_antisymm hi (Nat.sub_eq_zero_iff_le.mp hzero)
        · cases he

theorem InOrder.insertAll (h : t.InOrder) (added : List (String × ValueType)) :
    (t.insertAll added).InOrder :=
  List.foldlRecOn added _ h fun _ ht v _ => ht.insert v.1 v.2

/-! ### The main statement -/

/-- **A table answers as a search among its entries does**, however many variables were added to
entries of which some may have the same name.  Each name is looked up in its first entry; a variable
that is in the table stays as it is, and its virtual register is returned; another one becomes the
last entry, in the virtual register of its place, and no other name is looked up differently.  In a
table that was empty at first no name is repeated, and each variable is in the virtual register of
its place. -/
theorem agrees_with_search (entries : List (String × VarInfo))
    (added : List (String × ValueType)) :
    (let t := (ofEntries entries).insertAll added
      ∀ name : String,
        t.get? name = (t.entries.find? (·.1 == name)).map (·.2) ∧
        (t.get? name = none ↔ name ∉ t.names) ∧
        ∀ ty : ValueType,
          (∀ info, t.get? name = some info → t.insert name ty = (info.virtualReg, t)) ∧
          (t.get? name = none → ∃ t', t.insert name ty = (t.size, t') ∧
            t'.entries = t.entries ++ [(name, ⟨t.size, ty⟩)] ∧
            ∀ other, t'.get? other = if other = name then some ⟨t.size, ty⟩ else t.get? other)) ∧
    (empty.insertAll added).InOrder := by
  refine ⟨fun name => ⟨?_, get?_eq_none_iff, fun ty => ⟨fun info h => ?_, fun h => ?_⟩⟩,
    InOrder.empty.insertAll added⟩
  · exact (searched_ofEntries entries).insertAll added name
  · rw [insert, h]
  · refine ⟨_, by rw [insert, h], rfl, fun other => get?_push ..⟩

/-- A table read with two entries for `x`, to which `i` was added, and `x` and `i` once more. -/
def repetitive : VarTable :=
  (ofEntries [("x", ⟨4, .int⟩), ("y", ⟨0, .boolean⟩), ("x", ⟨7, .boolean⟩)]).insertAll
    [("i", .int), ("x", .boolean), ("i", .boolean)]

/-- In it the first `x` counts, `i` is in the fourth place, and `j` comes into the fifth. -/
theorem agrees_with_search_repetitive :
    repetitive.get? "x" = some ⟨4, .int⟩ ∧ repetitive.insert "x" .void = (4, repetitive) ∧
      repetitive.get? "j" = none ∧ ∃ t', repetitive.insert "j" .int = (4, t') ∧
        t'.names = ["x", "y", "x", "i", "j"] ∧ t'.get? "i" = some ⟨3, .int⟩ := by
  obtain ⟨hall, -⟩ := agrees_with_search
    [("x", ⟨4, .int⟩), ("y", ⟨0, .boolean⟩), ("x", ⟨7, .boolean⟩)]
    [("i", .int), ("x", .boolean), ("i", .boolean)]
  have hx : repetitive.get? "x" = some ⟨4, .int⟩ := (hall "x").1.trans (by decide +kernel)
  have hj : repetitive.get? "j" = none := (hall "j").2.1.mpr (by decide +kernel)
  obtain ⟨t', ht', hentries, hother⟩ := ((hall "j").2.2 .int).2 hj
  refine ⟨hx, ((hall "x").2.2 .void).1 _ hx, hj, t', ht', ?_, ?_⟩
  · rw [names, hentries]
    decide +kernel
  · rw [hother, if_neg (by decide)]
    exact (hall "i").1.trans (by decide +kernel)

end Classlet.Ir.VarTable
