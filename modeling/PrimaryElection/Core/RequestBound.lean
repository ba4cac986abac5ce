import PrimaryElection.Core.Subscription

/-! The number of items against the number requested. A subscription query caps its one
total by recommend_num. A recommendation caps videos, regional and normal news by it
one by one, so that together they may come to three times as many. -/

namespace PrimaryElection.Core

open CInt

variable {κ : Type}

/-- How many of `size` videos or regional news the loop copies, negative for none. -/
def slice (recmd : Recommend) (limit : ℤ) (size : ℕ) : ℤ := min (toInt32 size) (capOf recmd limit)

/-- What the two slices leave of max_candidate_set_size, in `int` arithmetic. -/
def leftOver (o : ModelOptions) (recmd : Recommend) (nv nr : ℕ) : ℤ :=
  toInt32 (o.maxCandidateSetSize.val - slice recmd o.maxCandidateRegionSize.val nr -
    slice recmd o.maxCandidateVideoSize.val nv)

/-- What videos and regional news leave of the number requested. -/
def spare (o : ModelOptions) (recmd : Recommend) (nv nr : ℕ) : ℤ :=
  recmd.recommendNum.val - max 0 (slice recmd o.maxCandidateVideoSize.val nv) -
    max 0 (slice recmd o.maxCandidateRegionSize.val nr)

/-- Only normal news are copied; or videos and regional news leave something of the
number requested, and the normal list, or what is left over for it, is no more than
that. A left over below 0 is as good as none, unless the list has as many entries as
its `size_t`. -/
def WithinRequest (o : ModelOptions) (recmd : Recommend) (nv nr nn : ℕ) : Prop :=
  (spare o recmd nv nr = recmd.recommendNum.val ∧ 0 ≤ leftOver o recmd nv nr) ∨
    (0 ≤ spare o recmd nv nr ∧
      ((nn : ℤ) ≤ spare o recmd nv nr ∨
        (0 ≤ leftOver o recmd nv nr ∧ leftOver o recmd nv nr ≤ spare o recmd nv nr) ∨
        (leftOver o recmd nv nr < 0 ∧
          (toInt32 nn ≤ spare o recmd nv nr ∨ toSize (leftOver o recmd nv nr) ≤ nn))))

theorem totalCapped_slice (recmd : Recommend) (maxSize : I32) (size : ℕ) :
    totalCapped recmd maxSize size = slice recmd maxSize.val size := totalCapped_eq recmd maxSize size

theorem remainder_leftOver (o : ModelOptions) (recmd : Recommend) (nv nr : ℕ) :
    remainder o recmd nv nr = capOf recmd (leftOver o recmd nv nr) := remainder_eq o recmd nv nr

theorem capOf_eq_min {recmd : Recommend} (h : 0 < recmd.recommendNum.val) (limit : ℤ) :
    capOf recmd limit = min limit recmd.recommendNum.val := if_pos h

/-- Lists of fewer than 2^31 entries, under options that are not negative: the slices are
minima of the size, the option and the number requested. -/
theorem withinRequest_iff_of_short {o : ModelOptions} {recmd : Recommend} {nv nr nn : ℕ}
    (hrn : 0 < recmd.recommendNum.val) (hmv : 0 ≤ o.maxCandidateVideoSize.val)
    (hmr : 0 ≤ o.maxCandidateRegionSize.val) (hms : 0 ≤ o.maxCandidateSetSize.val)
    (hv : nv < 2147483648) (hr : nr < 2147483648) (hn : nn < 2147483648) :
    WithinRequest o recmd nv nr nn ↔
      (share recmd o.maxCandidateVideoSize.val nv = 0 ∧
        share recmd o.maxCandidateRegionSize.val nr = 0) ∨
      share recmd o.maxCandidateVideoSize.val nv + share recmd o.maxCandidateRegionSize.val nr +
        nn ≤ recmd.recommendNum.val ∨
      (share recmd o.maxCandidateVideoSize.val nv + share recmd o.maxCandidateRegionSize.val nr ≤
        o.maxCandidateSetSize.val ∧ o.maxCandidateSetSize.val ≤ recmd.recommendNum.val) := by
  have iv : toInt32 nv = nv := toInt32_eq (by omega) (by omega)
  have ir : toInt32 nr = nr := toInt32_eq (by omega) (by omega)
  have hiv : slice recmd o.maxCandidateVideoSize.val nv =
      share recmd o.maxCandidateVideoSize.val nv := by unfold slice share; rw [iv]
  have hir : slice recmd o.maxCandidateRegionSize.val nr =
      share recmd o.maxCandidateRegionSize.val nr := by unfold slice share; rw [ir]
  have hin : toInt32 nn = nn := toInt32_eq (by omega) (by omega)
  have sv := share_nonneg recmd hmv nv
  have sr := share_nonneg recmd hmr nr
  have lv := (share_le recmd o.maxCandidateVideoSize.val nv).2
  have lr := (share_le recmd o.maxCandidateRegionSize.val nr).2
  have ms := o.maxCandidateSetSize.property.2
  have hrn' := recmd.recommendNum.property.2
  unfold WithinRequest spare leftOver
  rw [hiv, hir, hin]
  generalize share recmd o.maxCandidateVideoSize.val nv = v at *
  generalize share recmd o.maxCandidateRegionSize.val nr = r at *
  generalize recmd.recommendNum.val = rn at *
  generalize o.maxCandidateSetSize.val = m at *
  by_cases hle : v + r ≤ rn
  · have hleft : toInt32 (m - r - v) = m - r - v := toInt32_eq (by omega) (by omega)
    have hsize : m - r - v < 0 → nn < toSize (m - r - v) := by
      intro hneg
      have := toSize_neg (x := m - r - v) (by omega) hneg
      omega
    rw [hleft]
    omega
  · omega

/-! ### The count -/

/-- The three loops stay within the number requested exactly under that condition. -/
theorem counts_within_iff {o : ModelOptions} {recmd : Recommend}
    (hrn : 0 < recmd.recommendNum.val) (nv nr nn : ℕ) :
    max (totalCapped recmd o.maxCandidateVideoSize nv) 0 +
        max (totalCapped recmd o.maxCandidateRegionSize nr) 0 +
        max (totalNormal o recmd nv nr nn) 0 ≤ recmd.recommendNum.val ↔
      WithinRequest o recmd nv nr nn := by
  have hcases := totalNormal_cases o recmd nv nr nn
  have hint := toInt32_le_natCast nn
  rw [remainder_leftOver, capOf_eq_min hrn] at hcases
  rw [totalCapped_slice, totalCapped_slice]
  unfold WithinRequest spare
  generalize slice recmd o.maxCandidateVideoSize.val nv = v
  generalize slice recmd o.maxCandidateRegionSize.val nr = r
  generalize leftOver o recmd nv nr = left at *
  generalize recmd.recommendNum.val = rn at *
  by_cases hpos : 0 ≤ left
  · have hmin : 0 ≤ min left rn := le_min hpos hrn.le
    rcases hcases with ⟨-, heq⟩ | ⟨hneg, -⟩ | ⟨hneg, -⟩ <;> omega
  · have hmin : min left rn = left := min_eq_left (by omega)
    rw [hmin] at hcases
    rcases hcases with ⟨hle, -⟩ | ⟨-, hlt, heq⟩ | ⟨-, hge, heq⟩ <;> omega

theorem takeSubscribed_le (g : Glue κ) (o : ModelOptions) {recmd : Recommend}
    (hrn : 0 < recmd.recommendNum.val) (size : ℕ) (cs : List κ) :
    ((takeSubscribed g (totalSubscribed o recmd size) 0 cs).length : ℤ) ≤
      recmd.recommendNum.val := by
  have hcap : capOf recmd o.maxCandidateSetSize.val ≤ recmd.recommendNum.val := by
    rw [capOf_eq_min hrn]
    exact min_le_right _ _
  rw [takeSubscribed_eq, List.length_take, totalSubscribed, totalCapped_eq]
  omega

/-- A successful query into an empty response returns at most the number of items
requested exactly when it is for subscriptions or its slices stay within that number. -/
theorem request_bound_iff {g : Glue κ} (hg : g.Appends) (t : Tables κ) (o : ModelOptions) (now : ℤ)
    {recmd : Recommend} (hrn : 0 < recmd.recommendNum.val)
    (hok : (queryCandidateSet g t o now recmd .empty).status = .ok) :
    ∃ normal, normalSet g t recmd (timedQuery g o now recmd) = .ok normal ∧
      (((queryCandidateSet g t o now recmd .empty).cset.itemId.length : ℤ) ≤
          recmd.recommendNum.val ↔
        o.serviceType.val ≠ 0 ∨
          WithinRequest o recmd (videoSet g t recmd (timedQuery g o now recmd)).set.length
            (regionSet g t recmd (timedQuery g o now recmd)).set.length normal.set.length) := by
  unfold queryCandidateSet at hok ⊢
  by_cases hs : o.serviceType.val ≠ 0
  · simp only [if_pos hs] at hok ⊢
    obtain ⟨normal, ids, hn, -, heq⟩ := subscription_ok hok
    have hle := takeSubscribed_le g o hrn normal.set.length normal.set
    refine ⟨normal, hn, iff_of_true ?_ (.inl hs)⟩
    rw [heq]
    simp only [respond_itemId hg, setBase, CandidateSet.empty, List.nil_append, List.length_map]
    exact hle
  · simp only [if_neg hs] at hok ⊢
    obtain ⟨normal, ids, hn, -, heq⟩ := recommendation_ok hok
    have hlen := mixSets_length o recmd (videoSet g t recmd (timedQuery g o now recmd)).set
      (regionSet g t recmd (timedQuery g o now recmd)).set normal.set
    refine ⟨normal, hn, ?_⟩
    rw [heq]
    simp only [respond_itemId hg, setBase, CandidateSet.empty, List.nil_append, List.length_map]
    rw [hlen, counts_within_iff hrn]
    exact (or_iff_right hs).symm

def fiveRequest : Recommend := ⟨7, 0, i32 5, .wifi, []⟩

theorem request_bound_default : ∃ normal,
    normalSet idGlue videoTables fiveRequest (timedQuery idGlue (.default ⟨i32 3⟩) 1000 fiveRequest) =
        .ok normal ∧
      (((queryCandidateSet idGlue videoTables (.default ⟨i32 3⟩) 1000 fiveRequest
          .empty).cset.itemId.length : ℤ) ≤ fiveRequest.recommendNum.val ↔
        (ModelOptions.default ⟨i32 3⟩).serviceType.val ≠ 0 ∨
          WithinRequest (.default ⟨i32 3⟩) fiveRequest 3 0 normal.set.length) :=
  request_bound_iff idGlue_appends videoTables _ 1000 (by decide) rfl

/-- Three videos and five normal news are returned where five items are requested. -/
theorem request_exceeded :
    fiveRequest.recommendNum.val = 5 ∧
      (queryCandidateSet idGlue videoTables (.default ⟨i32 3⟩) 1000 fiveRequest .empty).status =
        .ok ∧
      (queryCandidateSet idGlue videoTables (.default ⟨i32 3⟩) 1000 fiveRequest
        .empty).cset.itemId = [11, 12, 13, 1, 2, 3, 4, 5] ∧
      ¬ ((queryCandidateSet idGlue videoTables (.default ⟨i32 3⟩) 1000 fiveRequest
        .empty).cset.itemId.length : ℤ) ≤ fiveRequest.recommendNum.val := by
  have hitems : (queryCandidateSet idGlue videoTables (.default ⟨i32 3⟩) 1000 fiveRequest
      .empty).cset.itemId = [11, 12, 13, 1, 2, 3, 4, 5] := by decide
  refine ⟨rfl, rfl, hitems, ?_⟩
  rw [hitems]
  decide

end PrimaryElection.Core
