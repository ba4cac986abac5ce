import Mathlib.Data.Finset.Basic
import Mathlib.Data.Finset.Card
import Mathlib.Logic.Function.Basic
import Mathlib.Tactic

/-! Locks by name. A set holds the names that are taken, and a thread holds at most one
name. The set is exact and no name has two holders, whatever threads take and give back. -/

namespace PrimaryElection.Locks

variable {K T : Type} [DecidableEq K] [DecidableEq T]

/-- The taken names are those of the holders, one thread for each name. -/
structure Exclusive (taken : Finset K) (holder : T → Option K) : Prop where
  mem_iff : ∀ k, k ∈ taken ↔ ∃ t, holder t = some k
  unique : ∀ t u k, holder t = some k → holder u = some k → t = u

namespace Exclusive

variable {taken : Finset K} {holder : T → Option K} {t : T} {k : K}

omit [DecidableEq K] [DecidableEq T] in
theorem empty : Exclusive (∅ : Finset K) (fun _ : T => none) :=
  ⟨fun k => by simp, fun _ _ _ h => by cases h⟩

/-- A thread without a name takes one that is free. -/
theorem take (h : Exclusive taken holder) (ht : holder t = none) (hk : k ∉ taken) :
    Exclusive (insert k taken) (Function.update holder t (some k)) := by
  constructor
  · intro j
    rw [Finset.mem_insert, h.mem_iff]
    constructor
    · rintro (rfl | ⟨u, hu⟩)
      · exact ⟨t, Function.update_self _ _ _⟩
      · refine ⟨u, ?_⟩
        rw [Function.update_of_ne]
        · exact hu
        · rintro rfl
          rw [ht] at hu
          cases hu
    · rintro ⟨u, hu⟩
      rw [Function.update_apply] at hu
      split_ifs at hu
      · exact .inl (Option.some.inj hu).symm
      · exact .inr ⟨u, hu⟩
  · intro u v j hu hv
    have hfree : ∀ w, holder w ≠ some k := fun w hw => hk ((h.mem_iff k).mpr ⟨w, hw⟩)
    rw [Function.update_apply] at hu hv
    split_ifs at hu hv with hut hvt
    · rw [hut, hvt]
    · cases hu
      exact absurd hv (hfree v)
    · cases hv
      exact absurd hu (hfree u)
    · exact h.unique u v j hu hv

/-- A holder gives its name back. -/
theorem release (h : Exclusive taken holder) (ht : holder t = some k) :
    Exclusive (taken.erase k) (Function.update holder t none) := by
  constructor
  · intro j
    rw [Finset.mem_erase, h.mem_iff]
    constructor
    · rintro ⟨hj, u, hu⟩
      refine ⟨u, ?_⟩
      rw [Function.update_of_ne]
      · exact hu
      · rintro rfl
        exact hj (Option.some.inj (hu.symm.trans ht))
    · rintro ⟨u, hu⟩
      rw [Function.update_apply] at hu
      split_ifs at hu with hut
      refine ⟨?_, u, hu⟩
      rintro rfl
      exact hut (h.unique u t j hu ht)
  · intro u v j hu hv
    rw [Function.update_apply] at hu hv
    split_ifs at hu hv
    exact h.unique u v j hu hv

omit [DecidableEq K] in
theorem keep (h : Exclusive taken holder) {k : Option K} (ht : holder t = k) :
    Exclusive taken (Function.update holder t k) := by
  rwa [← ht, Function.update_eq_self]

section

variable {holder' : T → Option K}

theorem took (h : Exclusive taken holder) (ht : holder t = none) (hk : k ∉ taken) (ht' : holder' t = some k)
    (hne : ∀ u, u ≠ t → holder' u = holder u) : Exclusive (insert k taken) holder' := by
  rw [Function.eq_update_iff.mpr ⟨ht', hne⟩]
  exact h.take ht hk

theorem released (h : Exclusive taken holder) (ht : holder t = some k) (ht' : holder' t = none)
    (hne : ∀ u, u ≠ t → holder' u = holder u) : Exclusive (taken.erase k) holder' := by
  rw [Function.eq_update_iff.mpr ⟨ht', hne⟩]
  exact h.release ht

omit [DecidableEq K] in
theorem kept (h : Exclusive taken holder) (ht' : holder' t = holder t)
    (hne : ∀ u, u ≠ t → holder' u = holder u) : Exclusive taken holder' := by
  rw [Function.eq_update_iff.mpr ⟨ht', hne⟩]
  exact h.keep rfl

end

omit [DecidableEq K] [DecidableEq T] in
/-- There are no more names taken than threads. -/
theorem card_le [Fintype T] (h : Exclusive taken holder) : taken.card ≤ Fintype.card T := by
  classical
  have hsub : taken.image some ⊆ Finset.univ.image holder := by
    intro o ho
    obtain ⟨k, hk, rfl⟩ := Finset.mem_image.mp ho
    obtain ⟨t, ht⟩ := (h.mem_iff k).mp hk
    exact Finset.mem_image.mpr ⟨t, Finset.mem_univ t, ht⟩
  calc taken.card = (taken.image some).card := (Finset.card_image_of_injective _ (Option.some_injective K)).symm
    _ ≤ (Finset.univ.image holder).card := Finset.card_le_card hsub
    _ ≤ Finset.univ.card := Finset.card_image_le

end Exclusive

end PrimaryElection.Locks
