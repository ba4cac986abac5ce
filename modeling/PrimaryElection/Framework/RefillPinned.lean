import PrimaryElection.Framework.CacheBounds
import PrimaryElection.Util.SortOrder

/-! Where the pinned loop takes the documents of a filter reply. It exchanges the ids,
the powers of the filter service and the times, but not the powers of the algorithm
machines, so a pinned document is fused with the power of the document whose place it
takes. -/

namespace PrimaryElection.Framework.Refill

open Util

variable {F : Type*}

/-- The arrays of a reply before the loop. -/
def FilterReply.docs (r : FilterReply F) : Docs F := ⟨r.did, r.pwr, r.time⟩

def FilterReply.scan (r : FilterReply F) (calcNum : ℕ) : Scan F := pinnedLoop calcNum r.docs

/-- The position that the document of each place had before the loop: the loop with the
positions in the place of the powers. -/
def FilterReply.origin (r : FilterReply F) (calcNum : ℕ) : List ℕ :=
  (pinnedLoop calcNum ⟨r.did, List.range r.did.length, r.time⟩).docs.pwr

def pinnedBefore (time : List ℤ) (i : ℕ) : ℕ := (time.take i).countP fun t => t < 0

/-- The final power from the values of one document. -/
def ownPower (fl : Floats F) (k : Config F) (oneTime : UInt64) (calcPwr p : F) (t : ℤ) : F :=
  let base := fl.add (fl.mul k.filterFactor p) calcPwr
  if 0 ≤ t then
    fl.add (fl.mul k.algorithmFactor base) (fl.div (fl.mul k.timeFactor (fl.ofInt t)) (fl.ofU64 oneTime))
  else base

/-- Every document keeps its id, its two powers and its time together, and its final
power is computed from them. -/
structure Together (fl : Floats F) (k : Config F) (r : FilterReply F) (c : CalcReply F) : Prop where
  places : (r.origin c.num.toNat).Perm (List.range r.did.length)
  docs : ∀ i j : ℕ, (r.origin c.num.toNat)[i]? = some j →
    (r.scan c.num.toNat).docs.did[i]? = r.did[j]? ∧ (r.scan c.num.toNat).docs.pwr[i]? = r.pwr[j]? ∧
      (r.scan c.num.toNat).docs.time[i]? = r.time[j]?
  calcPwr : ∀ i j : ℕ, (r.origin c.num.toNat)[i]? = some j → c.pwr[i]? = c.pwr[j]?
  power : ∀ (i j : ℕ) (q p : F) (t : ℤ), (r.origin c.num.toNat)[i]? = some j → c.pwr[j]? = some q →
    r.pwr[j]? = some p → r.time[j]? = some t →
    (fuseLoop fl k (r.scan c.num.toNat) c.pwr c.num.toNat)[i]? =
      some (ownPower fl k (r.scan c.num.toNat).oneTime q p t)

/-- Every pinned document finds its algorithm power also at the place it is taken to. -/
def PinnedAlike (r : FilterReply F) (c : CalcReply F) : Prop :=
  ∀ (i : ℕ) (t : ℤ), r.time[i]? = some t → t < 0 → c.pwr[i]? = c.pwr[pinnedBefore r.time i]?

/-! ### The loop -/

theorem pinnedBefore_succ {time : List ℤ} {i : ℕ} {t : ℤ} (h : time[i]? = some t) :
    pinnedBefore time (i + 1) = pinnedBefore time i + if t < 0 then 1 else 0 := by
  obtain ⟨hi, rfl⟩ := List.getElem?_eq_some_iff.mp h
  unfold pinnedBefore
  rw [List.take_succ_eq_append_getElem hi, List.countP_append, List.countP_singleton]
  simp

theorem pinnedBefore_le (time : List ℤ) (i : ℕ) : pinnedBefore time i ≤ i :=
  (List.countP_le_length).trans (List.length_take_le _ _)

/-- The loop on positions after `i` rounds. -/
structure Scanned (time : List ℤ) (i : ℕ) (s : Scan ℕ) : Prop where
  top : s.topPos = pinnedBefore time i
  length : s.docs.pwr.length = time.length
  times : s.docs.time.length = time.length
  perm : s.docs.pwr.Perm (List.range time.length)
  own : ∀ k j : ℕ, s.docs.pwr[k]? = some j → s.docs.time[k]? = time[j]?
  ahead : ∀ k, i ≤ k → k < time.length → s.docs.pwr[k]? = some k
  front : ∀ (p : ℕ) (t : ℤ), p < i → time[p]? = some t → t < 0 →
    s.docs.pwr[pinnedBefore time p]? = some p
  rest : ∀ (k j : ℕ) (t : ℤ), s.topPos ≤ k → k < i → s.docs.pwr[k]? = some j →
    time[j]? = some t → 0 ≤ t
  pinned : ∀ (k j : ℕ) (t : ℤ), k < s.topPos → s.docs.pwr[k]? = some j → time[j]? = some t → t < 0

theorem Scanned.init (did : List DocId) (time : List ℤ) :
    Scanned time 0 ⟨⟨did, List.range time.length, time⟩, 0, 0⟩ := by
  refine ⟨by simp [pinnedBefore], by simp, rfl, .refl _, ?_, ?_, fun p t h => by omega,
    fun k j t _ h => by omega, fun k j t h => by simp at h⟩
  · intro k j h
    obtain ⟨hk, rfl⟩ := List.getElem?_eq_some_iff.mp h
    simp
  · intro k _ hk
    simp [hk]

theorem pinnedBefore_mono (time : List ℤ) {i j : ℕ} (h : i ≤ j) :
    pinnedBefore time i ≤ pinnedBefore time j :=
  (List.take_sublist_take_left h).countP_le

theorem pinnedBefore_lt {time : List ℤ} {p i : ℕ} {t : ℤ} (hp : time[p]? = some t) (ht : t < 0)
    (h : p < i) : pinnedBefore time p < pinnedBefore time i := by
  have hs := pinnedBefore_succ hp
  rw [if_pos ht] at hs
  have := pinnedBefore_mono time (show p + 1 ≤ i from h)
  omega

theorem Scanned.swap_getElem? {time : List ℤ} {i : ℕ} {s : Scan ℕ} (h : Scanned time i s)
    (hi : i < time.length) (k : ℕ) :
    (s.docs.swap s.topPos i).pwr[k]? = (if k = i then s.docs.pwr[s.topPos]?
        else if k = s.topPos then s.docs.pwr[i]? else s.docs.pwr[k]?) ∧
      (s.docs.swap s.topPos i).time[k]? = if k = i then s.docs.time[s.topPos]?
        else if k = s.topPos then s.docs.time[i]? else s.docs.time[k]? := by
  have hle : s.topPos ≤ i := h.top ▸ pinnedBefore_le time i
  have hlen := h.length
  have htimes := h.times
  exact ⟨swapAt_getElem? (by omega) (by omega) k, swapAt_getElem? (by omega) (by omega) k⟩

/-- A pinned document is taken to `top_pos`. -/
theorem Scanned.pin {time : List ℤ} {i : ℕ} {s : Scan ℕ} {t : ℤ} (h : Scanned time i s)
    (ht : time[i]? = some t) (hneg : t < 0) :
    Scanned time (i + 1) ⟨s.docs.swap s.topPos i, s.topPos + 1, s.oneTime⟩ := by
  obtain ⟨hi, -⟩ := List.getElem?_eq_some_iff.mp ht
  have hahead := h.ahead i le_rfl hi
  have htop := pinnedBefore_succ ht
  rw [if_pos hneg] at htop
  have hle : s.topPos ≤ i := h.top ▸ pinnedBefore_le time i
  have hswap (k : ℕ) := (h.swap_getElem? hi k).1
  have hswapt (k : ℕ) := (h.swap_getElem? hi k).2
  refine ⟨by rw [h.top, htop], (swapAt_length _ _ _).trans h.length, (swapAt_length _ _ _).trans h.times,
    (swapAt_perm _ _ _).trans h.perm, ?_, ?_, ?_, ?_, ?_⟩
  · intro k j hk
    dsimp only at hk ⊢
    rw [hswap] at hk
    rw [hswapt]
    split_ifs at hk ⊢ <;> exact h.own _ _ hk
  · intro k h₁ h₂
    dsimp only
    rw [hswap, if_neg (by omega), if_neg (by omega)]
    exact h.ahead k (by omega) h₂
  · intro p t' hp hpt ht'
    dsimp only
    rw [hswap]
    rcases Nat.eq_or_lt_of_le (Nat.le_of_lt_succ hp) with rfl | hp
    · rw [← h.top]
      by_cases htop' : s.topPos = p
      · rw [if_pos htop', htop']
        exact hahead
      · rw [if_neg htop', if_pos rfl]
        exact hahead
    · have hlt := pinnedBefore_lt hpt ht' hp
      rw [← h.top] at hlt
      rw [if_neg (by omega), if_neg (by omega)]
      exact h.front p t' hp hpt ht'
  · intro k j t' h₁ h₂ hk hj
    dsimp only at h₁ hk
    rw [hswap] at hk
    split_ifs at hk
    · exact h.rest _ j t' le_rfl (by omega) hk hj
    · omega
    · exact h.rest k j t' (by omega) (by omega) hk hj
  · intro k j t' h₁ hk hj
    dsimp only at h₁ hk
    rw [hswap] at hk
    have hfirst : s.docs.pwr[i]? = some j → t' < 0 := by
      intro hk
      cases hahead.symm.trans hk
      cases ht.symm.trans hj
      exact hneg
    by_cases hki : k = i
    · obtain rfl : s.topPos = i := by omega
      rw [if_pos hki] at hk
      exact hfirst hk
    · rw [if_neg hki] at hk
      split_ifs at hk with hkt
      · exact hfirst hk
      · exact h.pinned k j t' (by omega) hk hj

/-- Another document stays where it is. -/
theorem Scanned.skip {time : List ℤ} {i : ℕ} {s : Scan ℕ} {t : ℤ} (h : Scanned time i s)
    (ht : time[i]? = some t) (hpos : ¬ t < 0) (sum : UInt64) :
    Scanned time (i + 1) ⟨s.docs, s.topPos, sum⟩ := by
  obtain ⟨hi, -⟩ := List.getElem?_eq_some_iff.mp ht
  have htop := pinnedBefore_succ ht
  rw [if_neg hpos, add_zero] at htop
  refine ⟨by rw [htop]; exact h.top, h.length, h.times, h.perm, h.own,
    fun k h₁ h₂ => h.ahead k (by omega) h₂, ?_, ?_, h.pinned⟩
  · intro p t' hp hpt ht'
    rcases Nat.eq_or_lt_of_le (Nat.le_of_lt_succ hp) with rfl | hp
    · cases ht.symm.trans hpt
      exact absurd ht' hpos
    · exact h.front p t' hp hpt ht'
  · intro k j t' h₁ h₂ hk hj
    rcases Nat.eq_or_lt_of_le (Nat.le_of_lt_succ h₂) with rfl | h₂
    · cases (h.ahead k le_rfl hi).symm.trans hk
      cases ht.symm.trans hj
      exact not_lt.mp hpos
    · exact h.rest k j t' h₁ h₂ hk hj

theorem Scanned.round {time : List ℤ} {i : ℕ} {s : Scan ℕ} (h : Scanned time i s)
    (hi : i < time.length) : Scanned time (i + 1) (s.round i) := by
  have ht := List.getElem?_eq_getElem hi
  have hown := (h.own i i (h.ahead i le_rfl hi)).trans ht
  unfold Scan.round
  rw [hown]
  dsimp only
  split_ifs with hneg
  · exact h.pin ht hneg
  · exact h.skip ht hneg _

theorem pinnedLoop_scanned (did : List DocId) {time : List ℤ} {n : ℕ} (hn : n ≤ time.length) :
    Scanned time n (pinnedLoop n ⟨did, List.range time.length, time⟩) := by
  induction n with
  | zero => exact Scanned.init did time
  | succ n ih =>
    rw [pinnedLoop_succ]
    exact (ih (by omega)).round hn

/-- The loop on a reply moves each document as it moves its position. -/
structure Tracks (d : Docs F) (s : Scan F) (o : Scan ℕ) : Prop where
  time : s.docs.time = o.docs.time
  top : s.topPos = o.topPos
  did_length : s.docs.did.length = o.docs.pwr.length
  pwr_length : s.docs.pwr.length = o.docs.pwr.length
  time_length : o.docs.time.length = o.docs.pwr.length
  own : ∀ k j : ℕ, o.docs.pwr[k]? = some j →
    s.docs.did[k]? = d.did[j]? ∧ s.docs.pwr[k]? = d.pwr[j]?

theorem Tracks.round {d : Docs F} {s : Scan F} {o : Scan ℕ} (h : Tracks d s o) {i : ℕ}
    (hi : i < o.docs.pwr.length) (ht : o.topPos ≤ i) : Tracks d (s.round i) (o.round i) := by
  unfold Scan.round
  rw [h.time]
  split
  next t hi' =>
    split
    next hneg =>
      have hswap (k : ℕ) : (o.docs.swap o.topPos i).pwr[k]? = if k = i then o.docs.pwr[o.topPos]?
          else if k = o.topPos then o.docs.pwr[i]? else o.docs.pwr[k]? :=
        swapAt_getElem? (by omega) hi k
      have hdid (k : ℕ) : (s.docs.swap o.topPos i).did[k]? = if k = i then s.docs.did[o.topPos]?
          else if k = o.topPos then s.docs.did[i]? else s.docs.did[k]? :=
        swapAt_getElem? (by rw [h.did_length]; omega) (by rwa [h.did_length]) k
      have hpwr (k : ℕ) : (s.docs.swap o.topPos i).pwr[k]? = if k = i then s.docs.pwr[o.topPos]?
          else if k = o.topPos then s.docs.pwr[i]? else s.docs.pwr[k]? :=
        swapAt_getElem? (by rw [h.pwr_length]; omega) (by rwa [h.pwr_length]) k
      rw [h.top]
      refine ⟨by simp only [Docs.swap, h.time], rfl, ?_, ?_, ?_, ?_⟩
      · simp only [Docs.swap, swapAt_length, h.did_length]
      · simp only [Docs.swap, swapAt_length, h.pwr_length]
      · simp only [Docs.swap, swapAt_length, h.time_length]
      · intro k j hk
        dsimp only at hk ⊢
        rw [hswap] at hk
        rw [hdid, hpwr]
        split_ifs at hk ⊢ <;> exact h.own _ _ hk
    next => exact ⟨h.time, h.top, h.did_length, h.pwr_length, h.time_length, h.own⟩
  next => exact h

theorem pinnedLoop_tracks (r : FilterReply F) {n : ℕ} (hn : n ≤ r.did.length) :
    Tracks r.docs (r.scan n) (pinnedLoop n ⟨r.did, List.range r.did.length, r.time⟩) := by
  induction n with
  | zero =>
    refine ⟨rfl, rfl, ?_, ?_, ?_, ?_⟩
    · simp [FilterReply.scan, FilterReply.docs, pinnedLoop]
    · simp [FilterReply.scan, FilterReply.docs, pinnedLoop, r.pwr_length]
    · simp [pinnedLoop, r.time_length]
    · intro k j hk
      obtain ⟨_, rfl⟩ := List.getElem?_eq_some_iff.mp hk
      simp [FilterReply.scan, FilterReply.docs, pinnedLoop]
  | succ n ih =>
    have hlen : n ≤ r.time.length := by
      rw [r.time_length]
      omega
    have hs := pinnedLoop_scanned r.did hlen
    rw [r.time_length] at hs
    have h := (ih (by omega)).round (i := n) (by rw [hs.length, r.time_length]; omega)
      (hs.top ▸ pinnedBefore_le _ _)
    rw [pinnedLoop_succ]
    unfold FilterReply.scan at h ⊢
    rw [pinnedLoop_succ]
    exact h

/-! ### The fusion -/

theorem fuseRound_length (fl : Floats F) (k : Config F) (s : Scan F) (calcPwr pwr : List F) (i : ℕ) :
    (fuseRound fl k s calcPwr pwr i).length = pwr.length := by
  unfold fuseRound
  split
  · exact List.length_set
  · rfl

theorem fuseRound_of_ne (fl : Floats F) (k : Config F) (s : Scan F) (calcPwr pwr : List F)
    {i j : ℕ} (h : j ≠ i) : (fuseRound fl k s calcPwr pwr i)[j]? = pwr[j]? := by
  unfold fuseRound
  split
  · exact List.getElem?_set_ne h.symm
  · rfl

theorem fuseRound_self {fl : Floats F} {k : Config F} {s : Scan F} {calcPwr pwr : List F} {i : ℕ}
    {p q : F} {t : ℤ} (hp : pwr[i]? = some p) (hq : calcPwr[i]? = some q)
    (ht : s.docs.time[i]? = some t) :
    (fuseRound fl k s calcPwr pwr i)[i]? = some (finalPower fl k s q p t i) := by
  obtain ⟨hi, -⟩ := List.getElem?_eq_some_iff.mp hp
  simp only [fuseRound, hp, hq, ht, List.getElem?_set_self hi]

theorem fuseLoop_succ (fl : Floats F) (k : Config F) (s : Scan F) (calcPwr : List F) (n : ℕ) :
    fuseLoop fl k s calcPwr (n + 1) = fuseRound fl k s calcPwr (fuseLoop fl k s calcPwr n) n :=
  Runs.foldl_range_succ _ _ _

theorem fuseLoop_length (fl : Floats F) (k : Config F) (s : Scan F) (calcPwr : List F) (n : ℕ) :
    (fuseLoop fl k s calcPwr n).length = s.docs.pwr.length := by
  induction n with
  | zero => rfl
  | succ n ih => rw [fuseLoop_succ, fuseRound_length, ih]

theorem fuseLoop_ahead (fl : Floats F) (k : Config F) (s : Scan F) (calcPwr : List F) {n i : ℕ}
    (h : n ≤ i) : (fuseLoop fl k s calcPwr n)[i]? = s.docs.pwr[i]? := by
  induction n with
  | zero => rfl
  | succ n ih => rw [fuseLoop_succ, fuseRound_of_ne fl k s calcPwr _ (by omega), ih (by omega)]

/-- The fusion loop computes each final power from the values at its own place. -/
theorem fuseLoop_getElem? {fl : Floats F} {k : Config F} {s : Scan F} {calcPwr : List F} {n i : ℕ}
    {p q : F} {t : ℤ} (hi : i < n) (hp : s.docs.pwr[i]? = some p) (hq : calcPwr[i]? = some q)
    (ht : s.docs.time[i]? = some t) :
    (fuseLoop fl k s calcPwr n)[i]? = some (finalPower fl k s q p t i) := by
  induction n with
  | zero => omega
  | succ n ih =>
    rw [fuseLoop_succ]
    rcases Nat.eq_or_lt_of_le (Nat.le_of_lt_succ hi) with rfl | hi
    · exact fuseRound_self ((fuseLoop_ahead fl k s calcPwr le_rfl).trans hp) hq ht
    · rw [fuseRound_of_ne fl k s calcPwr _ (by omega)]
      exact ih hi

/-! ### The documents after the loop -/

section

variable {r : FilterReply F} {c : CalcReply F}

theorem origin_scanned (r : FilterReply F) :
    Scanned r.time r.did.length
      (pinnedLoop r.did.length ⟨r.did, List.range r.did.length, r.time⟩) := by
  have h := pinnedLoop_scanned r.did (le_refl r.time.length)
  rwa [r.time_length] at h

/-- The place of a pinned document is the number of pinned ones before it. -/
theorem origin_front {i : ℕ} {t : ℤ} (h : r.time[i]? = some t) (ht : t < 0) :
    (r.origin r.did.length)[pinnedBefore r.time i]? = some i := by
  obtain ⟨hi, -⟩ := List.getElem?_eq_some_iff.mp h
  exact (origin_scanned r).front i t (r.time_length ▸ hi) h ht

theorem scan_own {i j : ℕ} (h : (r.origin r.did.length)[i]? = some j) :
    (r.scan r.did.length).docs.did[i]? = r.did[j]? ∧
      (r.scan r.did.length).docs.pwr[i]? = r.pwr[j]? ∧
      (r.scan r.did.length).docs.time[i]? = r.time[j]? := by
  have htr := pinnedLoop_tracks r le_rfl
  obtain ⟨h₁, h₂⟩ := htr.own i j h
  refine ⟨h₁, h₂, ?_⟩
  rw [htr.time]
  exact (origin_scanned r).own i j h

theorem topPos_le_iff {i j : ℕ} {t : ℤ} (h : (r.origin r.did.length)[i]? = some j)
    (ht : r.time[j]? = some t) : (r.scan r.did.length).topPos ≤ i ↔ 0 ≤ t := by
  have hs := origin_scanned r
  have hi : i < (r.origin r.did.length).length := (List.getElem?_eq_some_iff.mp h).1
  have hlen : (r.origin r.did.length).length = r.did.length := hs.length.trans r.time_length
  rw [(pinnedLoop_tracks r le_rfl).top]
  constructor
  · intro hle
    exact hs.rest i j t hle (by omega) h ht
  · intro hle
    by_contra hlt
    have := hs.pinned i j t (by omega) h ht
    omega

/-- The power fused at the place of a document, from its own values and the algorithm
power found there. -/
theorem fused_own (fl : Floats F) (k : Config F) {i j : ℕ} {p q : F} {t : ℤ}
    (h : (r.origin r.did.length)[i]? = some j) (hq : c.pwr[i]? = some q) (hp : r.pwr[j]? = some p)
    (ht : r.time[j]? = some t) :
    (fuseLoop fl k (r.scan r.did.length) c.pwr r.did.length)[i]? =
      some (ownPower fl k (r.scan r.did.length).oneTime q p t) := by
  obtain ⟨-, hpwr, htime⟩ := scan_own h
  have hlen : (r.origin r.did.length).length = r.did.length :=
    (origin_scanned r).length.trans r.time_length
  have hi : i < r.did.length := hlen ▸ (List.getElem?_eq_some_iff.mp h).1
  rw [fuseLoop_getElem? hi (hpwr.trans hp) hq (htime.trans ht)]
  unfold finalPower ownPower
  dsimp only
  simp only [topPos_le_iff h ht]

/-- Where every exchange is between equal algorithm powers, each document finds its
own at its place. -/
theorem calc_alike {time : List ℤ} {calcPwr : List F} (did : List DocId)
    (h : ∀ (i : ℕ) (t : ℤ), time[i]? = some t → t < 0 →
      calcPwr[i]? = calcPwr[pinnedBefore time i]?) {n : ℕ} (hn : n ≤ time.length) (i j : ℕ)
    (hij : (pinnedLoop n ⟨did, List.range time.length, time⟩).docs.pwr[i]? = some j) :
    calcPwr[i]? = calcPwr[j]? := by
  induction n generalizing i j with
  | zero =>
    obtain ⟨_, rfl⟩ := List.getElem?_eq_some_iff.mp hij
    simp [pinnedLoop]
  | succ n ih =>
    have hs := pinnedLoop_scanned did (show n ≤ time.length by omega)
    have hih := ih (by omega)
    rw [pinnedLoop_succ] at hij
    generalize pinnedLoop n (⟨did, List.range time.length, time⟩ : Docs ℕ) = s at *
    have hown := hs.own n n (hs.ahead n le_rfl hn)
    rw [List.getElem?_eq_getElem hn] at hown
    have hle : s.topPos ≤ n := hs.top ▸ pinnedBefore_le time n
    unfold Scan.round at hij
    rw [hown] at hij
    dsimp only at hij
    split at hij
    next ht =>
      -- the two places that are exchanged have equal algorithm powers
      have heq := h n _ (List.getElem?_eq_getElem hn) ht
      rw [← hs.top] at heq
      dsimp only at hij
      rw [(hs.swap_getElem? hn i).1] at hij
      split_ifs at hij with hin hit
      · rw [hin, heq]
        exact hih _ _ hij
      · rw [hit, ← heq]
        exact hih _ _ hij
      · exact hih _ _ hij
    next => exact hih _ _ hij

/-- Documents and scores stay together exactly when every pinned document has the same
algorithm power at the place it is taken to. -/
theorem together_iff (fl : Floats F) (k : Config F) (hn : c.num = r.did.length)
    (hc : c.pwr.length = r.did.length) : Together fl k r c ↔ PinnedAlike r c := by
  have hnum : c.num.toNat = r.did.length := by omega
  constructor
  · intro h i t hi ht
    have hcalc := h.calcPwr (pinnedBefore r.time i) i
    rw [hnum] at hcalc
    exact (hcalc (origin_front hi ht)).symm
  · intro h
    have hcalc : ∀ i j : ℕ, (r.origin r.did.length)[i]? = some j → c.pwr[i]? = c.pwr[j]? := by
      intro i j hij
      unfold FilterReply.origin at hij
      rw [← r.time_length] at hij
      exact calc_alike r.did h le_rfl i j hij
    constructor
    · have hperm := (origin_scanned r).perm
      rw [r.time_length] at hperm
      rw [hnum]
      exact hperm
    · rw [hnum]
      exact fun i j hij => scan_own hij
    · rw [hnum]
      exact hcalc
    · rw [hnum]
      intro i j q p t hij hq hp ht
      exact fused_own fl k hij ((hcalc i j hij).trans hq) hp ht

end

def pinnedFirst : FilterReply ℤ := ⟨[32, 31, 33], [2, 1, 1], [-1, 5, 7], [], rfl, rfl⟩

def pinnedLast : FilterReply ℤ := ⟨[31, 32], [1, 3], [5, -1], [], rfl, rfl⟩

theorem together_iff_example :
    Together CacheBounds.intFloats CacheBounds.smallConfig.refill pinnedFirst ⟨3, [10, 20, 30]⟩ := by
  refine (together_iff _ _ rfl rfl).mpr fun i t hi ht => ?_
  match i with
  | 0 => rfl
  | 1 => cases hi; omega
  | 2 => cases hi; omega

/-- The pinned document is fused with the power of the other one. -/
theorem pinnedLast_not_together :
    ¬ Together CacheBounds.intFloats CacheBounds.smallConfig.refill pinnedLast ⟨2, [10, 20]⟩ := by
  intro h
  have hc := h.calcPwr 0 1 (by decide)
  exact absurd hc (by decide)

end PrimaryElection.Framework.Refill
