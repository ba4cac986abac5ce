import PrimaryElection.Framework.RefillPinned

/-! The weights of the times in a refill. The pinned loop of `process_query(uid, log)`
sums the times of the unpinned documents in `one_time`, and the fusion loop divides the
time of each of them by that sum. A time may be zero, and nothing tests the sum. -/

namespace PrimaryElection.Framework.Refill

open CInt

variable {F : Type*}

/-- The times of the documents that are not pinned, summed. -/
def unpinnedTime (time : List ℤ) : ℤ := (time.filter fun t => 0 ≤ t).sum

def Scan.unpinned (s : Scan F) : List ℤ := s.docs.time.drop s.topPos

/-- The share of each unpinned document in `one_time`, without rounding. -/
def Scan.shares (s : Scan F) : List ℚ :=
  s.unpinned.map fun t : ℤ => (t : ℚ) / (s.oneTime.toNat : ℚ)

/-- The values of a reply are of the type `var_4`. -/
structure FilterReply.Ints (r : FilterReply F) : Prop where
  count : r.did.length < 2147483648
  times : ∀ t ∈ r.time, -2147483648 ≤ t ∧ t < 2147483648

/-- `one_time` is the sum of the unpinned times, the pinned documents are those below
`top_pos`, and an unpinned document makes the divisor positive and the shares one. -/
structure TimesWeighted (r : FilterReply F) (c : CalcReply F) : Prop where
  sum : ((r.scan c.num.toNat).oneTime.toNat : ℤ) = unpinnedTime r.time
  places : (r.origin c.num.toNat).Perm (List.range r.did.length)
  docs : ∀ i j : ℕ, (r.origin c.num.toNat)[i]? = some j →
    (r.scan c.num.toNat).docs.did[i]? = r.did[j]? ∧ (r.scan c.num.toNat).docs.pwr[i]? = r.pwr[j]? ∧
      (r.scan c.num.toNat).docs.time[i]? = r.time[j]?
  pinned : ∀ (i j : ℕ) (t : ℤ), (r.origin c.num.toNat)[i]? = some j → r.time[j]? = some t →
    (i < (r.scan c.num.toNat).topPos ↔ t < 0)
  nonzero : (∃ t ∈ r.time, 0 ≤ t) → (r.scan c.num.toNat).oneTime ≠ 0
  divisor : ∀ i : ℕ, (i : ℤ) < c.num → (r.scan c.num.toNat).topPos ≤ i →
    (r.scan c.num.toNat).oneTime ≠ 0
  shares : (∃ t ∈ r.time, 0 ≤ t) → (r.scan c.num.toNat).shares.sum = 1

/-! ### The sum -/

theorem unpinnedTime_concat (time : List ℤ) (t : ℤ) :
    unpinnedTime (time ++ [t]) = unpinnedTime time + if 0 ≤ t then t else 0 := by
  unfold unpinnedTime
  rw [List.filter_append, List.sum_append]
  split_ifs with h <;> simp [h]

theorem unpinnedTime_nonneg (time : List ℤ) : 0 ≤ unpinnedTime time :=
  List.sum_nonneg fun _ h => of_decide_eq_true (List.mem_filter.mp h).2

theorem unpinnedTime_le {time : List ℤ} (h : ∀ t ∈ time, t < 2147483648) :
    unpinnedTime time ≤ time.length * 2147483647 := by
  induction time using List.reverseRecOn with
  | nil => simp [unpinnedTime]
  | append_singleton time t ih =>
    have hle := ih fun t' ht' => h t' (List.mem_append_left _ ht')
    have ht := h t (by simp)
    rw [unpinnedTime_concat, List.length_append, List.length_singleton]
    push_cast
    split_ifs <;> omega

/-- The sum is zero exactly when no time is positive. -/
theorem unpinnedTime_pos_iff (time : List ℤ) : 0 < unpinnedTime time ↔ ∃ t ∈ time, 0 < t := by
  induction time using List.reverseRecOn with
  | nil => simp [unpinnedTime]
  | append_singleton time t ih =>
    have hnonneg := unpinnedTime_nonneg time
    rw [unpinnedTime_concat]
    constructor
    · intro h
      by_cases ht : 0 < t
      · exact ⟨t, by simp, ht⟩
      · have hpos : 0 < unpinnedTime time := by
          split_ifs at h <;> omega
        obtain ⟨t', hmem, ht'⟩ := ih.mp hpos
        exact ⟨t', List.mem_append_left _ hmem, ht'⟩
    · rintro ⟨t', hmem, ht'⟩
      rcases List.mem_append.mp hmem with hmem | hmem
      · have hpos := ih.mpr ⟨t', hmem, ht'⟩
        split_ifs <;> omega
      · cases List.mem_singleton.mp hmem
        rw [if_pos ht'.le]
        omega

section

variable {r : FilterReply F}

/-- The loop has not touched the times ahead of it. -/
theorem scan_time_ahead {n i : ℕ} (hn : n ≤ i) (hi : i < r.did.length) :
    (r.scan n).docs.time[i]? = r.time[i]? := by
  have hlen : n ≤ r.time.length := by
    rw [r.time_length]
    omega
  have hs := pinnedLoop_scanned r.did hlen
  have hpos := hs.ahead i hn (by rwa [r.time_length])
  have hown := hs.own i i hpos
  rw [r.time_length] at hown
  rw [(pinnedLoop_tracks r (hn.trans hi.le)).time]
  exact hown

theorem scan_succ_oneTime {n : ℕ} {t : ℤ} (ht : (r.scan n).docs.time[n]? = some t) :
    (r.scan (n + 1)).oneTime =
      (r.scan n).oneTime + if 0 ≤ t then UInt64.ofNat t.toNat else 0 := by
  unfold FilterReply.scan at ht ⊢
  rw [pinnedLoop_succ]
  unfold Scan.round
  rw [ht]
  dsimp only
  split_ifs
  · omega
  · exact (UInt64.add_zero _).symm
  · rfl
  · omega

/-- The sum of the unpinned times so far does not wrap. -/
theorem scan_oneTime (hr : r.Ints) {n : ℕ} (hn : n ≤ r.did.length) :
    ((r.scan n).oneTime.toNat : ℤ) = unpinnedTime (r.time.take n) := by
  induction n with
  | zero => rfl
  | succ n ih =>
    have hi : n < r.time.length := by
      rw [r.time_length]
      omega
    have hprev := ih (by omega)
    have hmem := hr.times _ (List.getElem_mem hi)
    have hle : unpinnedTime (r.time.take n) ≤ (r.time.take n).length * 2147483647 :=
      unpinnedTime_le fun t ht => (hr.times t (List.mem_of_mem_take ht)).2
    have hcount := hr.count
    rw [List.length_take, min_eq_left hi.le] at hle
    rw [scan_succ_oneTime ((scan_time_ahead le_rfl hn).trans (List.getElem?_eq_getElem hi)),
      List.take_succ_eq_append_getElem hi, unpinnedTime_concat, UInt64.toNat_add]
    generalize r.time[n] = t at hmem ⊢
    split_ifs with ht
    · rw [UInt64.toNat_ofNat']
      omega
    · simp only [UInt64.toNat_zero]
      omega

/-! ### The shares -/

theorem round_time (s : Scan F) (i : ℕ) : (s.round i).docs.time.Perm s.docs.time := by
  unfold Scan.round
  split
  · split
    · exact Util.swapAt_perm _ _ _
    · exact List.Perm.refl _
  · exact List.Perm.refl _

theorem pinnedLoop_time (n : ℕ) (d : Docs F) : (pinnedLoop n d).docs.time.Perm d.time := by
  induction n with
  | zero => exact List.Perm.refl _
  | succ n ih =>
    rw [pinnedLoop_succ]
    exact (round_time _ n).trans ih

theorem scan_pinned_iff {i j : ℕ} {t : ℤ} (h : (r.origin r.did.length)[i]? = some j)
    (ht : r.time[j]? = some t) : i < (r.scan r.did.length).topPos ↔ t < 0 := by
  have := topPos_le_iff h ht
  omega

theorem origin_length (r : FilterReply F) : (r.origin r.did.length).length = r.did.length :=
  (origin_scanned r).length.trans r.time_length

/-- The time at a position is negative exactly below `top_pos`. -/
theorem scan_time_iff {i : ℕ} {t : ℤ} (h : (r.scan r.did.length).docs.time[i]? = some t) :
    i < (r.scan r.did.length).topPos ↔ t < 0 := by
  have hlen := (pinnedLoop_time r.did.length r.docs).length_eq
  have hi : i < (r.origin r.did.length).length := by
    have := (List.getElem?_eq_some_iff.mp h).1
    have htime := r.time_length
    rw [origin_length]
    simp only [FilterReply.scan, FilterReply.docs] at hlen this
    omega
  have horigin := List.getElem?_eq_getElem hi
  exact scan_pinned_iff horigin ((scan_own horigin).2.2.symm.trans h)

/-- From `top_pos` on stand the unpinned times. -/
theorem scan_unpinned_perm (r : FilterReply F) :
    (r.scan r.did.length).unpinned.Perm (r.time.filter fun t => 0 ≤ t) := by
  have hperm : (r.scan r.did.length).docs.time.Perm r.time := pinnedLoop_time _ _
  have hiff := @scan_time_iff F r
  generalize r.scan r.did.length = s at hperm hiff ⊢
  have hfront : (s.docs.time.take s.topPos).filter (fun t => 0 ≤ t) = [] := by
    rw [List.filter_eq_nil_iff]
    intro t ht
    obtain ⟨i, hi, rfl⟩ := List.mem_take_iff_getElem.mp ht
    have hneg := (hiff (List.getElem?_eq_getElem (by omega))).mp (show i < s.topPos by omega)
    simpa using hneg
  have hrest : (s.docs.time.drop s.topPos).filter (fun t => 0 ≤ t) = s.unpinned := by
    rw [Scan.unpinned, List.filter_eq_self]
    intro t ht
    obtain ⟨i, hi, rfl⟩ := List.mem_drop_iff_getElem.mp ht
    have hge := (hiff (List.getElem?_eq_getElem hi)).not.mp (by omega)
    simpa [Nat.add_comm] using not_lt.mp hge
  have hsplit : s.docs.time.filter (fun t => 0 ≤ t) = s.unpinned := by
    conv_lhs => rw [← List.take_append_drop s.topPos s.docs.time]
    rw [List.filter_append, hfront, hrest, List.nil_append]
  rw [← hsplit]
  exact hperm.filter _

/-- Shares of a sum that is not zero sum to one. -/
theorem scan_shares_sum (hr : r.Ints) (hpos : 0 < unpinnedTime r.time) :
    (r.scan r.did.length).shares.sum = 1 := by
  have hsum := scan_oneTime hr le_rfl
  rw [← r.time_length, List.take_length, r.time_length] at hsum
  have hunpinned : ((r.scan r.did.length).unpinned).sum = unpinnedTime r.time :=
    (scan_unpinned_perm r).sum_eq
  have hcast : ((r.scan r.did.length).oneTime.toNat : ℚ) = (unpinnedTime r.time : ℤ) := by
    rw [← hsum]
    exact (Int.cast_natCast _).symm
  have hmap : ((r.scan r.did.length).unpinned.map fun t : ℤ => (t : ℚ)).sum =
      (unpinnedTime r.time : ℤ) := by
    rw [← hunpinned]
    exact (map_list_sum (Int.castRingHom ℚ) _).symm
  have hne : ((unpinnedTime r.time : ℤ) : ℚ) ≠ 0 := by
    exact_mod_cast hpos.ne'
  unfold Scan.shares
  simp only [div_eq_mul_inv]
  rw [List.sum_map_mul_right, hmap, hcast, mul_inv_cancel₀ hne]

end

/-- The times are weighted exactly when every document is pinned or one of the others
has a positive time. -/
theorem timesWeighted_iff {r : FilterReply F} {c : CalcReply F} (hr : r.Ints)
    (hn : c.num = r.did.length) :
    TimesWeighted r c ↔ (∀ t ∈ r.time, t < 0) ∨ ∃ t ∈ r.time, 0 < t := by
  have hnum : c.num.toNat = r.did.length := by omega
  have hsum := scan_oneTime hr le_rfl
  rw [← r.time_length, List.take_length, r.time_length] at hsum
  constructor
  · intro h
    by_contra hcon
    obtain ⟨hsome, hnone⟩ := not_or.mp hcon
    push Not at hsome
    obtain ⟨t, hmem, ht⟩ := hsome
    have hone := h.shares ⟨t, hmem, ht⟩
    have hzero : unpinnedTime r.time = 0 := by
      have hnot : ¬ 0 < unpinnedTime r.time := fun hp => hnone ((unpinnedTime_pos_iff r.time).mp hp)
      have := unpinnedTime_nonneg r.time
      omega
    have hdiv : (r.scan r.did.length).oneTime.toNat = 0 := by omega
    rw [hnum] at hone
    simp [Scan.shares, hdiv] at hone
  · intro hcond
    have hpos (hex : ∃ t ∈ r.time, 0 ≤ t) : 0 < unpinnedTime r.time := by
      rcases hcond with hall | hsome
      · obtain ⟨t, hmem, ht⟩ := hex
        have := hall t hmem
        omega
      · exact (unpinnedTime_pos_iff r.time).mpr hsome
    have hne (hex : ∃ t ∈ r.time, 0 ≤ t) : (r.scan r.did.length).oneTime ≠ 0 := by
      intro hzero
      have := hpos hex
      rw [hzero, UInt64.toNat_zero] at hsum
      omega
    constructor
    · rw [hnum]
      exact hsum
    · have hperm := (origin_scanned r).perm
      rw [r.time_length] at hperm
      rw [hnum]
      exact hperm
    · rw [hnum]
      exact fun i j hij => scan_own hij
    · rw [hnum]
      exact fun i j t hij ht => scan_pinned_iff hij ht
    · rw [hnum]
      exact hne
    · rw [hnum]
      intro i hi htop
      have hlen : i < (r.origin r.did.length).length := by
        rw [origin_length]
        omega
      have horigin := List.getElem?_eq_getElem hlen
      have hj : (r.origin r.did.length)[i] < r.time.length := by
        have := (origin_scanned r).perm.subset (List.getElem_mem hlen)
        exact List.mem_range.mp this
      have ht := (topPos_le_iff horigin (List.getElem?_eq_getElem hj)).mp htop
      exact hne ⟨_, List.getElem_mem hj, ht⟩
    · rw [hnum]
      exact fun hex => scan_shares_sum hr (hpos hex)

theorem timesWeighted_iff_example : TimesWeighted pinnedLast ⟨2, [10, 20]⟩ :=
  (timesWeighted_iff ⟨by decide, by decide⟩ rfl).mpr (.inr ⟨5, by decide, by decide⟩)

def zeroTime : FilterReply ℤ := ⟨[31], [1], [0], [], rfl, rfl⟩

theorem zeroTime_not_weighted : ¬ TimesWeighted zeroTime ⟨1, [10]⟩ := fun h =>
  h.divisor 0 (by decide) (by decide) (by decide)

end PrimaryElection.Framework.Refill
