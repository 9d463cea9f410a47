import Classlet.Lowering.Method

/-!
# Names given out by lowering

Different numbers make different names, so a fresh name is never a reserved one
(`NameSupply.fresh_spec`).  Along lowering the reserved names stay and the counters only grow
(`Advances`).  A name is *known* in a state if it is reserved or made from a number that was given
out: a temporary variable is not known before it is made and known from then on (`temp_spec`).

* `bind_ok`, `pure_ok`: what a successful step of lowering consists of.
-/

namespace Classlet

theorem numbered_injective {stem : String} {a b : Nat}
    (h : stem ++ toString a = stem ++ toString b) : a = b := by
  have hl : stem.toList ++ (toString a).toList = stem.toList ++ (toString b).toList := by
    rw [← String.toList_append, ← String.toList_append, h]
  have hd : Nat.toDigits 10 a = Nat.toDigits 10 b := by
    have := List.append_cancel_left hl
    rwa [Nat.toString_eq_repr, Nat.toString_eq_repr, Nat.toList_repr, Nat.toList_repr] at this
  have := congrArg (fun digits => Nat.ofDigitChars 10 digits 0) hd
  simpa using this

namespace Ir.NameSupply

/-- The search for a fresh name ends at one that is not reserved, if `fuel` covers the reserved
names that are still to come. -/
theorem freshWithin_spec (stem : String) : ∀ (fuel : Nat) (s : NameSupply) (left : List String),
    left.length ≤ fuel →
    (∀ k, s.peek stem ≤ k → stem ++ toString k ∈ s.reserved → stem ++ toString k ∈ left) →
    ∃ k, s.peek stem ≤ k ∧ (freshWithin stem fuel s).1 = stem ++ toString k ∧
      stem ++ toString k ∉ s.reserved ∧ (freshWithin stem fuel s).2.reserved = s.reserved ∧
      ∀ other, (freshWithin stem fuel s).2.peek other
        = if other = stem then k + 1 else s.peek other
  | 0, s, left, hl, hcover => by
    have hnil : left = [] := List.length_eq_zero_iff.mp (Nat.le_zero.mp hl)
    subst hnil
    refine ⟨s.peek stem, Nat.le_refl _, rfl, fun h => ?_, rfl, fun other => s.peek_next stem other⟩
    exact absurd (hcover _ (Nat.le_refl _) h) (by simp)
  | fuel + 1, s, left, hl, hcover => by
    rw [freshWithin]
    by_cases hr : stem ++ toString (s.peek stem) ∈ s.reserved
    · have hmem := hcover _ (Nat.le_refl _) hr
      have hpos := List.length_pos_of_mem hmem
      have hlen := List.length_erase_of_mem hmem
      obtain ⟨k, hk, hname, hfree, hres, hpeek⟩ :=
        freshWithin_spec stem fuel (s.next stem).2 (left.erase (stem ++ toString (s.peek stem)))
          (by omega) (fun k hk hkr => by
            rw [peek_next, if_pos rfl] at hk
            have hne : stem ++ toString k ≠ stem ++ toString (s.peek stem) := fun e => by
              have := numbered_injective e
              omega
            exact (List.mem_erase_of_ne hne).mpr (hcover k (by omega) hkr))
      rw [peek_next, if_pos rfl] at hk
      rw [reserved_next] at hfree hres
      have hcond : (s.next stem).2.reserved.contains (stem ++ toString (s.next stem).1) = true := by
        simpa [next] using hr
      simp only [hcond, if_true]
      refine ⟨k, by omega, hname, hfree, hres, fun other => ?_⟩
      rw [hpeek, peek_next]
      split <;> rfl
    · have hcond :
          ¬ (s.next stem).2.reserved.contains (stem ++ toString (s.next stem).1) = true := by
        simpa [next] using hr
      simp only [hcond]
      exact ⟨s.peek stem, Nat.le_refl _, rfl, hr, rfl, fun other => s.peek_next stem other⟩

/-- **A fresh name is not reserved**, and the counter of its stem moves past it. -/
theorem fresh_spec (s : NameSupply) (stem : String) :
    ∃ k, s.peek stem ≤ k ∧ (s.fresh stem).1 = stem ++ toString k ∧
      stem ++ toString k ∉ s.reserved ∧ (s.fresh stem).2.reserved = s.reserved ∧
      ∀ other, (s.fresh stem).2.peek other = if other = stem then k + 1 else s.peek other :=
  freshWithin_spec stem s.reserved.length s s.reserved (Nat.le_refl _) fun _ _ h => h

end Ir.NameSupply

namespace Lowering

open Classlet.Ir

/-! ### Successful steps -/

theorem bind_ok {α β : Type} {x : Lower α} {f : α → Lower β} {st : State} {r : β × State}
    (h : (x >>= f) st = .ok r) : ∃ a st₁, x st = .ok (a, st₁) ∧ f a st₁ = .ok r := by
  have hb : (x >>= f) st = (x st).bind fun p => f p.1 p.2 := rfl
  rw [hb] at h
  rcases hx : x st with e | ⟨a, st₁⟩ <;> rw [hx] at h
  · cases h
  · exact ⟨a, st₁, rfl, h⟩

theorem pure_ok {α : Type} {a : α} {st : State} {r : α × State}
    (h : (pure a : Lower α) st = .ok r) : r = (a, st) := by
  cases h; rfl

theorem lift_ok {α : Type} {x : Except Halt α} {st : State} {r : α × State}
    (h : (liftM x : Lower α) st = .ok r) : ∃ a, x = .ok a ∧ r = (a, st) := by
  rcases x with e | a
  · cases h
  · exact ⟨a, rfl, by cases h; rfl⟩

theorem fail_ne_ok {α : Type} {e : Error} {st : State} {r : α × State} :
    (Lower.fail e : Lower α) st ≠ .ok r := fun h => by cases h

/-! ### Known names -/

/-- The reserved names stay and the counters only grow. -/
structure Advances (st st' : State) : Prop where
  reserved_eq : st'.names.reserved = st.names.reserved
  peek_le : ∀ stem, st.names.peek stem ≤ st'.names.peek stem

theorem Advances.refl (st : State) : Advances st st := ⟨rfl, fun _ => Nat.le_refl _⟩

theorem Advances.trans {st₁ st₂ st₃ : State} (h₁ : Advances st₁ st₂) (h₂ : Advances st₂ st₃) :
    Advances st₁ st₃ :=
  ⟨h₂.reserved_eq.trans h₁.reserved_eq,
    fun stem => Nat.le_trans (h₁.peek_le stem) (h₂.peek_le stem)⟩

/-- The name is reserved or that of a temporary variable made before. -/
def Known (st : State) (name : String) : Prop :=
  name ∈ st.names.reserved ∨ ∃ k < st.names.peek "tmp", name = "tmp" ++ toString k

theorem Known.mono {st st' : State} {name : String} (h : Known st name) (ha : Advances st st') :
    Known st' name := by
  rcases h with h | ⟨k, hk, rfl⟩
  · exact .inl (ha.reserved_eq ▸ h)
  · exact .inr ⟨k, Nat.lt_of_lt_of_le hk (ha.peek_le _), rfl⟩

/-- **A temporary variable is new.** -/
theorem temp_spec {ty : ValueType} {st st' : State} {dst : String}
    (h : temp ty st = .ok (dst, st')) :
    Advances st st' ∧ ¬ Known st dst ∧ Known st' dst := by
  obtain ⟨k, hk, hname, hfree, hres, hpeek⟩ := st.names.fresh_spec "tmp"
  have hd : dst = "tmp" ++ toString k ∧ st'.names = (st.names.fresh "tmp").2 := by
    cases h
    exact ⟨hname, rfl⟩
  obtain ⟨rfl, hn⟩ := hd
  refine ⟨⟨by rw [hn, hres], fun stem => ?_⟩, ?_, .inr ⟨k, ?_, rfl⟩⟩
  · rw [hn, hpeek]
    split
    · next e => subst e; omega
    · exact Nat.le_refl _
  · rintro (hr | ⟨j, hj, he⟩)
    · exact hfree hr
    · have := numbered_injective he
      omega
  · rw [hn, hpeek, if_pos rfl]
    omega

/-- A number is the next one of its stem, and only the counter of that stem moves on. -/
theorem nextNumber_spec {stem : String} {st st' : State} {n : Nat}
    (h : nextNumber stem st = .ok (n, st')) :
    n = st.names.peek stem ∧ st'.names.reserved = st.names.reserved ∧
      ∀ other, st'.names.peek other
        = if other = stem then st.names.peek stem + 1 else st.names.peek other := by
  cases h
  exact ⟨rfl, rfl, fun other => st.names.peek_next stem other⟩

theorem nextNumber_advances {stem : String} {st st' : State} {n : Nat}
    (h : nextNumber stem st = .ok (n, st')) : Advances st st' := by
  obtain ⟨-, hr, hp⟩ := nextNumber_spec h
  refine ⟨hr, fun other => ?_⟩
  rw [hp]
  split
  · next e => subst e; omega
  · exact Nat.le_refl _

end Lowering

end Classlet
