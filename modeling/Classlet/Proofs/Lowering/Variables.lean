import Classlet.Proofs.Lowering.Bodies

/-!
# Types of the variables of lowered code

The table of a method gives every variable one type.  Before the body that is the type of the
receiver and of the declarations (`ty?_start`); a temporary variable is entered once, under a name
that is not known yet, so that known names keep their types while the body is lowered (`Keeps`).

`Sound` is what holds of the table between the steps of lowering: a name that stands for a parameter
or local variable has the declared type, and the receiver that of the class.  This needs that
nothing else is declared under the receiver's name (`Context.Undisputed`).
-/

namespace Classlet.Ir.VarTable

/-- The type of a variable in the table. -/
def ty? (t : VarTable) (name : String) : Option ValueType := (t.get? name).map (·.ty)

theorem ty?_isSome (t : VarTable) (name : String) :
    (t.ty? name).isSome = true ↔ name ∈ t.names := by
  rw [← contains_iff_mem_names, contains, ty?, Option.isSome_map]

theorem ty?_eq_none {t : VarTable} {name : String} (h : name ∉ t.names) : t.ty? name = none := by
  rwa [← ty?_isSome, Bool.not_eq_true, Option.isSome_eq_false_iff, Option.isNone_iff_eq_none] at h

theorem ty?_insert (t : VarTable) (name : String) (ty : ValueType) (other : String) :
    (t.insert name ty).2.ty? other
      = (t.ty? other).or (if other = name then some ty else none) := by
  rw [ty?, get?_insert, Option.map_or, ty?]
  split <;> rfl

/-- Of several variables of one name the first decides the type. -/
theorem ty?_foldl_insert (symbols : List Symbol) (t : VarTable) (name : String) :
    (symbols.foldl (fun t s => (t.insert s.name (.ofTy s.ty)).2) t).ty? name
      = (t.ty? name).or ((Symbol.find? symbols name).map fun s => .ofTy s.ty) := by
  induction symbols generalizing t with
  | nil => simp [Symbol.find?]
  | cons s symbols ih =>
    rw [List.foldl_cons, ih, ty?_insert, Option.or_assoc, Symbol.find?, Symbol.find?,
      List.find?_cons]
    by_cases h : name = s.name
    · simp [h]
    · have hs : (s.name == name) = false := by simpa using Ne.symm h
      simp [h, hs]

end Classlet.Ir.VarTable

namespace Classlet.Lowering

open Classlet.Ir Classlet.Semantics

variable {cx : Context} {whole : Part} {st st' st₁ st₂ : State}

/-! ### Tables that grow -/

/-- Known names keep their types, and no other name gets one unless it is known then. -/
structure Keeps (st st' : State) : Prop where
  advances : Advances st st'
  ty?_eq : ∀ x, Known st x → st'.vars.ty? x = st.vars.ty? x
  new : ∀ x ∈ st'.vars.names, x ∈ st.vars.names ∨ Known st' x

theorem Keeps.refl (st : State) : Keeps st st := ⟨.refl st, fun _ _ => rfl, fun _ h => .inl h⟩

theorem Keeps.trans (h : Keeps st st₁) (h' : Keeps st₁ st₂) : Keeps st st₂ where
  advances := h.advances.trans h'.advances
  ty?_eq x hx := (h'.ty?_eq x (hx.mono h.advances)).trans (h.ty?_eq x hx)
  new x hx := (h'.new x hx).elim (fun hx => (h.new x hx).imp_right (·.mono h'.advances)) .inr

/-- The name is known, and if the table has it, then with this type. -/
def HasType (st : State) (x : String) (ty : ValueType) : Prop :=
  Known st x ∧ ∀ found, st.vars.ty? x = some found → found = ty

theorem HasType.mono {x : String} {ty : ValueType} (h : HasType st x ty) (hk : Keeps st st') :
    HasType st' x ty :=
  ⟨h.1.mono hk.advances, fun found hf => h.2 found (hk.ty?_eq x h.1 ▸ hf)⟩

theorem HasType.ty?_eq {x : String} {ty : ValueType} (h : HasType st x ty)
    (hx : x ∈ st.vars.names) : st.vars.ty? x = some ty := by
  obtain ⟨found, hf⟩ := Option.isSome_iff_exists.mp ((st.vars.ty?_isSome x).mpr hx)
  rw [hf, h.2 found hf]

/-- The operand is a variable of this type, or a constant of it. -/
def OperandHasType (st : State) (ty : ValueType) : Operand → Prop
  | .var x => HasType st x ty
  | .const _ => ty = .int ∨ ty = .boolean

theorem OperandHasType.mono {o : Operand} {ty : ValueType} (h : OperandHasType st ty o)
    (hk : Keeps st st') : OperandHasType st' ty o := by
  cases o with
  | var x => exact HasType.mono h hk
  | const n => exact h

/-! ### Between the steps -/

/-- What the receiver's name stands for in the table: the receiver, where the method has one or uses
it; then a parameter or local variable of this name is an object of the class, too. -/
def Context.Undisputed (cx : Context) (whole : Part) : Prop :=
  cx.signature.isStatic = false ∨ (Part.expr .this).Inside whole →
    ∀ origin s, cx.resolve thisName = some (origin, s) → origin ≠ .field → .ofTy s.ty = cx.classType

/-- What holds of names and variables while a part of a method is lowered. -/
structure Sound (cx : Context) (whole : Part) (st : State) : Prop where
  known : ∀ x ∈ st.vars.names, Known st x
  declared : ∀ {x origin s}, cx.resolve x = some (origin, s) → origin ≠ .field →
    HasType st x (.ofTy s.ty)
  receiver : (Part.expr .this).Inside whole ∨ cx.resolve thisName = none →
    HasType st thisName cx.classType

theorem Sound.mono (h : Sound cx whole st) (hk : Keeps st st') : Sound cx whole st' where
  known x hx := (hk.new x hx).elim (fun hx => (h.known x hx).mono hk.advances) id
  declared hr ho := (h.declared hr ho).mono hk
  receiver hthis := (h.receiver hthis).mono hk

/-- **A temporary variable has its type.** -/
theorem temp_keeps {ty : ValueType} {dst : String} (h : temp ty st = .ok (dst, st'))
    (hs : Sound cx whole st) : Keeps st st' ∧ HasType st' dst ty := by
  obtain ⟨hadvances, hnew, hknown⟩ := temp_spec h
  have hvars : st'.vars = (st.vars.insert dst ty).2 := by
    cases h
    rfl
  have hnone : st.vars.ty? dst = none := VarTable.ty?_eq_none fun hmem => hnew (hs.known dst hmem)
  have hty : ∀ x, st'.vars.ty? x = if x = dst then some ty else st.vars.ty? x := by
    intro x
    rw [hvars, VarTable.ty?_insert]
    by_cases hx : x = dst
    · simp [hx, hnone]
    · simp [hx]
  refine ⟨⟨hadvances, fun x hx => ?_, fun x hx => ?_⟩, hknown, fun found hf => ?_⟩
  · have hne : x ≠ dst := by
      rintro rfl
      exact hnew hx
    rw [hty, if_neg hne]
  · rw [hvars, VarTable.mem_names_insert] at hx
    refine hx.imp_right ?_
    rintro rfl
    exact hknown
  · rw [hty, if_pos rfl] at hf
    exact (Option.some.inj hf).symm

theorem nextNumber_keeps {stem : String} {n : Nat} (h : nextNumber stem st = .ok (n, st')) :
    Keeps st st' := by
  have hadvances := nextNumber_advances h
  cases h
  exact ⟨hadvances, fun _ _ => rfl, fun _ hx => .inl hx⟩

/-! ### Before the body -/

theorem Context.resolve_own_iff {x : String} {s : Symbol} :
    (∃ origin, cx.resolve x = some (origin, s) ∧ origin ≠ .field) ↔
      Symbol.find? (cx.signature.params ++ cx.signature.locals) x = some s := by
  unfold Context.resolve SymbolTable.resolveIn Signature.param? Signature.localVar? Symbol.find?
  rw [List.find?_append]
  cases hp : cx.signature.params.find? (·.name == x) with
  | some p => simp
  | none =>
    cases hl : cx.signature.locals.find? (·.name == x) with
    | some l => simp
    | none => simp

theorem ty?_start (cx : Context) (x : String) :
    cx.start.vars.ty? x
      = (if cx.signature.isStatic = false ∧ x = thisName then some cx.classType else none).or
        ((Symbol.find? (cx.signature.params ++ cx.signature.locals) x).map
          fun s => .ofTy s.ty) := by
  have hreceiver : (if cx.signature.isStatic then VarTable.empty
      else (VarTable.empty.insert thisName (.object cx.table.className)).2).ty? x
      = if cx.signature.isStatic = false ∧ x = thisName then some cx.classType else none := by
    have hempty : VarTable.empty.ty? x = none := by simp [VarTable.ty?, VarTable.empty]
    cases cx.signature.isStatic with
    | true => simpa using hempty
    | false => simp [VarTable.ty?_insert, hempty, Context.classType]
  rw [← hreceiver]
  exact VarTable.ty?_foldl_insert ..

theorem sound_start (h : cx.Undisputed whole) : Sound cx whole cx.start where
  known x hx := by
    refine .inl ?_
    simp only [Context.start, NameSupply.ofReserved, List.map_append, List.mem_append,
      List.mem_singleton]
    rcases mem_names_start.mp hx with ⟨-, rfl⟩ | ⟨s, hs, rfl⟩
    · exact .inr rfl
    · refine .inl (.inl ?_)
      rw [← List.mem_append, ← List.map_append]
      exact List.mem_map_of_mem hs
  declared := by
    intro x origin s hr ho
    refine ⟨covers_start cx x (.inl (by simp [hr])), fun found hf => ?_⟩
    rw [ty?_start, Context.resolve_own_iff.mp ⟨origin, hr, ho⟩] at hf
    split at hf
    · next hthis =>
      obtain ⟨hstatic, rfl⟩ := hthis
      cases hf
      exact (h (.inl hstatic) origin s hr ho).symm
    · cases hf
      rfl
  receiver hthis := by
    refine ⟨covers_start cx thisName (.inr rfl), fun found hf => ?_⟩
    rw [ty?_start] at hf
    split at hf
    · cases hf
      rfl
    · next hno =>
      rw [Option.none_or] at hf
      obtain ⟨s, hs, rfl⟩ := Option.map_eq_some_iff.mp hf
      obtain ⟨origin, hr, ho⟩ := Context.resolve_own_iff.mpr hs
      rcases hthis with hin | hnone
      · exact h (.inr hin) origin s hr ho
      · rw [hr] at hnone
        cases hnone

/-! ### Declared variables -/

theorem Context.exists_decl {table : SymbolTable} {m : MethodDecl} {x : String} {origin : Origin}
    {s : Symbol} (hr : Context.resolve ⟨table, .ofDecl m⟩ x = some (origin, s))
    (ho : origin ≠ .field) : ∃ decl ∈ m.params ++ m.locals, decl.1 = x ∧ s = .ofDecl decl := by
  have hfound := Context.resolve_own_iff.mp ⟨origin, hr, ho⟩
  have hname : s.name = x := by simpa using List.find?_some hfound
  have hmem := List.mem_of_find?_eq_some hfound
  simp only [Signature.ofDecl, ← List.map_append] at hmem
  obtain ⟨decl, hdecl, rfl⟩ := List.mem_map.mp hmem
  exact ⟨decl, hdecl, hname, rfl⟩

theorem Context.undisputed_of_ne {table : SymbolTable} {m : MethodDecl}
    (h : ∀ decl ∈ m.params ++ m.locals, decl.1 ≠ thisName) :
    Context.Undisputed ⟨table, .ofDecl m⟩ whole := by
  intro _ origin s hr ho
  obtain ⟨decl, hdecl, hname, -⟩ := Context.exists_decl hr ho
  exact absurd hname (h decl hdecl)

end Classlet.Lowering
