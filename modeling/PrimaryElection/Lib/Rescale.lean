import Mathlib.Tactic

/-! Weights with a sentinel, over an ordered field. The weights that are not the
sentinel are divided by their sum, or by one if the sum is not positive. -/

namespace PrimaryElection.Rescale

variable {K : Type*} [Field K] [LinearOrder K] (s : K)

/-- Sum of the weights that are not the sentinel. -/
def total (ps : List K) : K := (ps.filter (· ≠ s)).sum

def rescale (w : K) (ps : List K) : List K := ps.map fun p => if p = s then p else p / w

/-- Sum of the weights `qs` at the positions where `ps` does not hold the sentinel. -/
def totalAt (ps qs : List K) : K := (((ps.zip qs).filter (·.1 ≠ s)).map Prod.snd).sum

/-- `qs` are the weights `ps` with those that are not the sentinel divided by one
positive number, which makes them sum to one if their sum was positive. -/
structure Uniform (ps qs : List K) : Prop where
  length_eq : qs.length = ps.length
  sentinel : ∀ i : ℕ, ps[i]? = some s → qs[i]? = some s
  divided : ∃ w, 0 < w ∧ ∀ (i : ℕ) p, ps[i]? = some p → p ≠ s → qs[i]? = some (p / w)
  sum_one : 0 < total s ps → totalAt s ps qs = 1
  unchanged : total s ps ≤ 0 → qs = ps
  order : ∀ (i j : ℕ) p p' q q', ps[i]? = some p → ps[j]? = some p' → p ≠ s → p' ≠ s →
    qs[i]? = some q → qs[j]? = some q' → (p < p' ↔ q < q')

@[simp] theorem total_nil : total s ([] : List K) = 0 := rfl

theorem total_append (ps qs : List K) : total s (ps ++ qs) = total s ps + total s qs := by
  simp [total, List.filter_append, List.sum_append]

theorem total_singleton (p : K) : total s [p] = if p ≠ s then p else 0 := by
  by_cases h : p = s <;> simp [total, h]

@[simp] theorem rescale_length (w : K) (ps : List K) : (rescale s w ps).length = ps.length :=
  List.length_map _

theorem rescale_getElem? (w : K) (ps : List K) (i : ℕ) :
    (rescale s w ps)[i]? = ps[i]?.map fun p => if p = s then p else p / w := List.getElem?_map

theorem rescale_one (ps : List K) : rescale s 1 ps = ps := by
  simp [rescale]

/-- At the positions that count, the rescaled weights sum to the old sum divided. -/
theorem totalAt_rescale (w : K) (ps : List K) :
    totalAt s ps (rescale s w ps) = total s ps / w := by
  induction ps with
  | nil => simp [totalAt, rescale]
  | cons p ps ih =>
    have hcons : totalAt s (p :: ps) (rescale s w (p :: ps)) =
        (if p = s then 0 else p / w) + totalAt s ps (rescale s w ps) := by
      by_cases hp : p = s <;> simp [totalAt, rescale, hp]
    have htotal : total s (p :: ps) = (if p = s then 0 else p) + total s ps := by
      by_cases hp : p = s <;> simp [total, hp]
    rw [hcons, ih, htotal, add_div]
    split_ifs <;> simp

variable [IsStrictOrderedRing K]

/-- Division by the sum, guarded against a sum that is not positive. -/
theorem uniform_rescale (ps : List K) :
    Uniform s ps (rescale s (if total s ps ≤ 0 then 1 else total s ps) ps) := by
  generalize hw : (if total s ps ≤ 0 then 1 else total s ps) = w
  have hpos : 0 < w := by
    rw [← hw]
    split_ifs with h
    · exact one_pos
    · exact not_le.mp h
  have hdiv : ∀ (i : ℕ) p, ps[i]? = some p → p ≠ s → (rescale s w ps)[i]? = some (p / w) := by
    intro i p hi hp
    rw [rescale_getElem?, hi, Option.map_some, if_neg hp]
  refine ⟨rescale_length s w ps, ?_, ⟨w, hpos, hdiv⟩, ?_, ?_, ?_⟩
  · intro i hi
    rw [rescale_getElem?, hi, Option.map_some, if_pos rfl]
  · intro h
    rw [totalAt_rescale, ← hw, if_neg (not_le.mpr h)]
    exact div_self h.ne'
  · intro h
    rw [← hw, if_pos h]
    exact rescale_one s ps
  · intro i j p p' q q' hi hj hp hp' hq hq'
    rw [hdiv i p hi hp] at hq
    rw [hdiv j p' hj hp'] at hq'
    rw [← Option.some.inj hq, ← Option.some.inj hq']
    exact (div_lt_div_iff_of_pos_right hpos).symm

end PrimaryElection.Rescale
