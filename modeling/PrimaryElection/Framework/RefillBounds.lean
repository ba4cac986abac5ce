import PrimaryElection.Framework.Refill
import PrimaryElection.Framework.CombineBounds
import PrimaryElection.Util.SortReads

/-! The bytes of the filter reply that `process_query(uid, log)` reads. The counts in
the reply steer four pointers, in 32-bit arithmetic, and the combined count steers two
loops over the lists; neither is compared with the length of the reply. -/

namespace PrimaryElection.Framework.Refill

open CInt Bytes Memory Util

/-- `recommend_pwr`, behind the ids. -/
def pwrAt (n : ℤ) : ℤ := 4 + toInt32 (n * 8)

/-- `recommend_time`, behind the powers. -/
def timeAt (n : ℤ) : ℤ := pwrAt n + toInt32 (n * 4)

/-- `history_num`, behind the times. -/
def histAt (n : ℤ) : ℤ := timeAt n + toInt32 (n * 4)

def didSpan (i : ℕ) : Span := ⟨4 + 8 * i, 8⟩

def pwrSpan (n : ℤ) (i : ℕ) : Span := ⟨pwrAt n + 4 * i, 4⟩

def timeSpan (n : ℤ) (i : ℕ) : Span := ⟨timeAt n + 4 * i, 4⟩

/-- The variables of the loops over the filter buffer and the bytes read so far. -/
structure Filtering where
  mem : Mem
  topPos : ℕ
  oneTime : UInt64
  reads : List Span

/-- Exchange `k` bytes at two addresses through a temporary. -/
def exchange (m : Mem) (a b : ℤ) (k : ℕ) : Mem :=
  (⟨b, load m a k⟩ : Store).apply ((⟨a, load m b k⟩ : Store).apply m)

def pinnedIn (n : ℤ) (m : Mem) (i : ℕ) : Prop := loadInt m (timeSpan n i).addr < 0

instance (n : ℤ) (m : Mem) (i : ℕ) : Decidable (pinnedIn n m i) := inferInstanceAs (Decidable (_ < _))

def exchangeReads (n : ℤ) (topPos i : ℕ) : List Span :=
  [timeSpan n topPos, timeSpan n i, pwrSpan n topPos, pwrSpan n i, didSpan topPos, didSpan i]

def readRound (n : ℤ) (s : Filtering) (i : ℕ) : Filtering :=
  if pinnedIn n s.mem i then
    let m := exchange s.mem (timeSpan n s.topPos).addr (timeSpan n i).addr 4
    let m := exchange m (pwrSpan n s.topPos).addr (pwrSpan n i).addr 4
    let m := exchange m (didSpan s.topPos).addr (didSpan i).addr 8
    ⟨m, s.topPos + 1, s.oneTime, s.reads ++ timeSpan n i :: exchangeReads n s.topPos i⟩
  else
    ⟨s.mem, s.topPos, s.oneTime + UInt64.ofNat (loadInt s.mem (timeSpan n i).addr).toNat,
      s.reads ++ [timeSpan n i]⟩

def readScan (n : ℤ) (m : Mem) (k : ℕ) : Filtering :=
  (List.range k).foldl (readRound n) ⟨m, 0, 0, []⟩

variable (fl : Floats UInt32) (k : Config UInt32)

def readFuse (n : ℤ) (calcPwr : ℕ → UInt32) (s : Filtering) (i : ℕ) : Filtering :=
  let a := (pwrSpan n i).addr
  let base := fl.add (fl.mul k.filterFactor (loadWord s.mem a)) (calcPwr i)
  let m := (storeWord a base).apply s.mem
  if s.topPos ≤ i then
    let t := loadInt m (timeSpan n i).addr
    let final := fl.add (fl.mul k.algorithmFactor (loadWord m a))
      (fl.div (fl.mul k.timeFactor (fl.ofInt t)) (fl.ofU64 s.oneTime))
    { s with mem := (storeWord a final).apply m
             reads := s.reads ++ [pwrSpan n i, pwrSpan n i, timeSpan n i] }
  else { s with mem := m, reads := s.reads ++ [pwrSpan n i] }

/-- The bytes of an element of the sort. -/
def cellSpan (n : ℤ) : Qs.Cell → Span
  | .key i => pwrSpan n i
  | .val i => didSpan i

/-- The powers and ids that the sort is given. -/
def sortArrays (n : ℤ) (m : Mem) : Qs.Arrays UInt32 DocId :=
  ⟨(List.range n.toNat).map fun i => loadWord m (pwrSpan n i).addr,
    (List.range n.toNat).map fun i =>
      UInt64.ofNat (leVal (load m (didSpan i).addr 8))⟩

/-- What `process_query(uid, log)` reads of a filter reply of `filterLen` bytes, from the
count on: the copies for the machines, the pinned loop, the fusion with the combined
result, the sort and the documents taken. An empty reply is given up before. -/
def filterReads (m : Mem) (filterLen : I32) (calcNum : ℤ) (calcPwr : ℕ → UInt32) : List Span :=
  let n := loadInt m 0
  if filterLen.val = 0 then []
  else if n ≤ 0 then [⟨0, 4⟩]
  else
    let h := loadInt m (histAt n)
    let s := readScan n m calcNum.toNat
    let s := (List.range calcNum.toNat).foldl (readFuse fl k n calcPwr) s
    [⟨0, 4⟩, ⟨4, toSize (toInt32 (n * 8))⟩, ⟨histAt n, 4⟩, ⟨histAt n + 4, toSize (toInt32 (h * 8))⟩] ++
      s.reads ++
      (Qs.qsReads fl.lt n.toNat s.topPos (n.toNat - 1) (sortArrays n s.mem)).map (cellSpan n) ++
      (List.range (requestCount k.cacheSavecount n.toNat).toNat).map fun i => didSpan (n.toNat - i - 1)

/-- `recommend_num` and `history_num` of a reply. -/
structure HasCounts (m : Mem) (n h : ℤ) : Prop where
  recommend : loadInt m 0 = n
  history : loadInt m (histAt n) = h

/-- A reply ends behind its lists: all counted by `recommend_num`, the bytes of the history,
and the times and ids that the loops of `calcNum` rounds reach beyond the documents. -/
structure ListsValid (filterLen n h calcNum : ℤ) : Prop where
  lists : 8 + 16 * n ≤ filterLen
  history : 0 ≤ toInt32 (h * 8) ∧ 8 + 16 * n + toInt32 (h * 8) ≤ filterLen
  rounds : calcNum ≤ n ∨ 4 + 12 * n + 4 * calcNum ≤ filterLen ∧ 4 + 8 * calcNum ≤ filterLen

/-- The reply is empty, or it has a count and the lists that the count asks for. -/
def ReplyValid (filterLen n h calcNum : ℤ) : Prop :=
  filterLen = 0 ∨ 4 ≤ filterLen ∧ (0 < n → ListsValid filterLen n h calcNum)

/-! ### The loops -/

def roundReads (n : ℤ) (s : Filtering) (i : ℕ) : List Span :=
  timeSpan n i :: if pinnedIn n s.mem i then exchangeReads n s.topPos i else []

theorem readRound_reads (n : ℤ) (s : Filtering) (i : ℕ) :
    (readRound n s i).reads = s.reads ++ roundReads n s i := by
  unfold readRound roundReads
  split_ifs <;> rfl

theorem readRound_topPos_le (n : ℤ) (s : Filtering) (i : ℕ) :
    (readRound n s i).topPos ≤ s.topPos + 1 := by
  unfold readRound
  split_ifs
  · exact le_rfl
  · exact Nat.le_succ _

theorem readScan_succ (n : ℤ) (m : Mem) (i : ℕ) :
    readScan n m (i + 1) = readRound n (readScan n m i) i := Runs.foldl_range_succ _ _ _

theorem readScan_topPos_le (n : ℤ) (m : Mem) (i : ℕ) : (readScan n m i).topPos ≤ i := by
  induction i with
  | zero => exact le_rfl
  | succ i ih =>
    rw [readScan_succ]
    exact (readRound_topPos_le _ _ _).trans (Nat.succ_le_succ ih)

/-- The loop reads what its rounds read. -/
theorem mem_readScan {n : ℤ} {m : Mem} {i : ℕ} {r : Span} :
    r ∈ (readScan n m i).reads ↔ ∃ j < i, r ∈ roundReads n (readScan n m j) j := by
  induction i with
  | zero => simp [readScan]
  | succ i ih =>
    rw [readScan_succ, readRound_reads, List.mem_append, ih]
    constructor
    · rintro (⟨j, hj, hr⟩ | hr)
      · exact ⟨j, by omega, hr⟩
      · exact ⟨i, by omega, hr⟩
    · rintro ⟨j, hj, hr⟩
      rcases Nat.lt_succ_iff_lt_or_eq.mp hj with hj | rfl
      · exact .inl ⟨j, hj, hr⟩
      · exact .inr hr

variable {fl k}

/-- The fusion loop keeps the pinned position, and reads powers and times only. -/
theorem foldl_readFuse (fl : Floats UInt32) (k : Config UInt32) (n : ℤ) (calcPwr : ℕ → UInt32)
    (s : Filtering) (c : ℕ) :
    ((List.range c).foldl (readFuse fl k n calcPwr) s).topPos = s.topPos ∧
      s.reads ⊆ ((List.range c).foldl (readFuse fl k n calcPwr) s).reads ∧
      ∀ r ∈ ((List.range c).foldl (readFuse fl k n calcPwr) s).reads,
        r ∈ s.reads ∨ ∃ i < c, r = pwrSpan n i ∨ r = timeSpan n i := by
  induction c with
  | zero => exact ⟨rfl, fun _ h => h, fun _ h => .inl h⟩
  | succ c ih =>
    rw [Runs.foldl_range_succ]
    generalize (List.range c).foldl (readFuse fl k n calcPwr) s = t at ih ⊢
    obtain ⟨htop, hsub, hmem⟩ := ih
    have hold : ∀ r ∈ t.reads, r ∈ s.reads ∨ ∃ i < c + 1, r = pwrSpan n i ∨ r = timeSpan n i := by
      intro r hr
      rcases hmem r hr with hr | ⟨i, hi, hr⟩
      · exact .inl hr
      · exact .inr ⟨i, by omega, hr⟩
    unfold readFuse
    dsimp only
    split_ifs
    · refine ⟨htop, fun r hr => List.mem_append_left _ (hsub hr), fun r hr => ?_⟩
      rcases List.mem_append.mp hr with hr | hr
      · exact hold r hr
      · simp only [List.mem_cons, List.not_mem_nil, or_false] at hr
        exact .inr ⟨c, by omega, by tauto⟩
    · refine ⟨htop, fun r hr => List.mem_append_left _ (hsub hr), fun r hr => ?_⟩
      rcases List.mem_append.mp hr with hr | hr
      · exact hold r hr
      · exact .inr ⟨c, by omega, .inl (List.mem_singleton.mp hr)⟩

/-! ### Spans inside the reply -/

theorem didSpan_inside {L : ℤ} {i : ℕ} : (didSpan i).Inside 0 L ↔ 12 + 8 * (i : ℤ) ≤ L := by
  simp only [Span.Inside, didSpan]
  push_cast
  omega

theorem pwrSpan_inside {n L : ℤ} (hn : pwrAt n = 4 + 8 * n) (hpos : 0 < n) {i : ℕ} :
    (pwrSpan n i).Inside 0 L ↔ 8 + 8 * n + 4 * (i : ℤ) ≤ L := by
  simp only [Span.Inside, pwrSpan, hn]
  push_cast
  omega

theorem timeSpan_inside {n L : ℤ} (hn : timeAt n = 4 + 12 * n) (hpos : 0 < n) {i : ℕ} :
    (timeSpan n i).Inside 0 L ↔ 8 + 12 * n + 4 * (i : ℤ) ≤ L := by
  simp only [Span.Inside, timeSpan, hn]
  push_cast
  omega

theorem cursors_eq {n : ℤ} (hpos : 0 < n) (hn : 8 + 16 * n < 2147483648) :
    toInt32 (n * 8) = 8 * n ∧ pwrAt n = 4 + 8 * n ∧ timeAt n = 4 + 12 * n ∧ histAt n = 4 + 16 * n := by
  have h₈ : toInt32 (n * 8) = n * 8 := toInt32_eq (by omega) (by omega)
  have h₄ : toInt32 (n * 4) = n * 4 := toInt32_eq (by omega) (by omega)
  simp only [histAt, timeAt, pwrAt, h₈, h₄]
  omega

/-- A copy of a signed count of bytes is inside only if the count is not negative. -/
theorem copy_inside {a x L : ℤ} (ha : 0 ≤ a) (hx : -2147483648 ≤ x ∧ x < 2147483648)
    (hL : L < 2147483648) :
    (⟨a, toSize x⟩ : Span).Inside 0 L ↔ 0 ≤ x ∧ a + x ≤ L := by
  simp only [Span.Inside]
  rcases lt_or_ge x 0 with hneg | hpos
  · have := toSize_neg (by omega) hneg
    omega
  · have := toSize_eq hpos (by omega)
    omega

theorem rounds_inside {n L calcNum : ℤ} (hpwr : pwrAt n = 4 + 8 * n) (htime : timeAt n = 4 + 12 * n)
    (hpos : 0 < n) (hlists : 8 + 16 * n ≤ L) (hrounds : calcNum ≤ n ∨ 4 + 12 * n + 4 * calcNum ≤ L) :
    ∀ i < calcNum.toNat, (timeSpan n i).Inside 0 L ∧ (pwrSpan n i).Inside 0 L := by
  intro i hi
  rw [timeSpan_inside htime hpos, pwrSpan_inside hpwr hpos]
  omega

/-- The pinned loop stays inside if its rounds do and the ids of the pinned documents. -/
theorem readScan_inside {n L : ℤ} {m : Mem} {c : ℕ}
    (hloops : ∀ i < c, (timeSpan n i).Inside 0 L ∧ (pwrSpan n i).Inside 0 L)
    (hdid : ∀ j < c, pinnedIn n (readScan n m j).mem j → 12 + 8 * (j : ℤ) ≤ L) :
    ∀ r ∈ (readScan n m c).reads, r.Inside 0 L := by
  intro r hr
  obtain ⟨j, hj, hr⟩ := mem_readScan.mp hr
  have htop := readScan_topPos_le n m j
  rcases List.mem_cons.mp hr with rfl | hr
  · exact (hloops j hj).1
  split_ifs at hr with hpin
  · have hlast := hdid j hj hpin
    simp only [exchangeReads, List.mem_cons, List.not_mem_nil, or_false] at hr
    rcases hr with rfl | rfl | rfl | rfl | rfl | rfl
    · exact (hloops _ (by omega)).1
    · exact (hloops _ hj).1
    · exact (hloops _ (by omega)).2
    · exact (hloops _ hj).2
    · exact didSpan_inside.mpr (by omega)
    · exact didSpan_inside.mpr hlast
  · cases hr

/-- All that is read of a reply is inside, given that it is valid. -/
theorem ReplyValid.inside {m : Mem} {filterLen : I32} {n h calcNum : ℤ}
    (hv : ReplyValid filterLen.val n h calcNum) (hm : HasCounts m n h) (fl : Floats UInt32)
    (k : Config UInt32) (calcPwr : ℕ → UInt32) :
    ∀ r ∈ filterReads fl k m filterLen calcNum calcPwr, r.Inside 0 filterLen.val := by
  have hL := filterLen.property.2
  unfold filterReads
  dsimp only
  rw [hm.recommend, hm.history]
  rcases hv with hempty | ⟨hfour, hlists⟩
  · rw [if_pos hempty]
    exact fun r hr => absurd hr List.not_mem_nil
  have hcount : (⟨0, 4⟩ : Span).Inside 0 filterLen.val := ⟨le_rfl, by push_cast; omega⟩
  split_ifs with hempty hpos
  · exact fun r hr => absurd hr List.not_mem_nil
  · simpa using hcount
  rcases hlists (by omega) with ⟨hlists, hhist, hrounds⟩
  rcases cursors_eq (n := n) (by omega) (by omega) with ⟨h₈, hpwr, htime, hhat⟩
  have hloops := rounds_inside hpwr htime (by omega) hlists (hrounds.imp_right And.left)
  have hscan : ∀ r ∈ (readScan n m calcNum.toNat).reads, r.Inside 0 filterLen.val :=
    readScan_inside hloops fun j hj _ => by omega
  rcases foldl_readFuse fl k n calcPwr (readScan n m calcNum.toNat) calcNum.toNat with ⟨-, -, hfuse⟩
  intro r hr
  simp only [List.mem_append, List.mem_map, List.mem_range] at hr
  rcases hr with ((hr | hr) | ⟨x, hx, rfl⟩) | ⟨i, hi, rfl⟩
  · simp only [List.mem_cons, List.not_mem_nil, or_false] at hr
    rcases hr with rfl | rfl | rfl | rfl
    · exact hcount
    · exact (copy_inside (by omega) (toInt32_range _) hL).mpr (by omega)
    · exact ⟨by dsimp only; omega, by push_cast; omega⟩
    · rw [hhat]
      exact (copy_inside (by omega) (toInt32_range _) hL).mpr (by omega)
  · rcases hfuse r hr with hr | ⟨i, hi, rfl | rfl⟩
    · exact hscan r hr
    · exact (hloops i hi).2
    · exact (hloops i hi).1
  · have hpos := (Qs.qsReads_range hx).2
    cases x with
    | key i =>
      simp only [Qs.Cell.pos] at hpos
      exact (pwrSpan_inside hpwr (by omega)).mpr (by omega)
    | val i =>
      simp only [Qs.Cell.pos] at hpos
      exact didSpan_inside.mpr (by omega)
  · exact didSpan_inside.mpr (by omega)

/-- Documents 5 and 6 of powers 3 and 4, of which the second is pinned, and document 7 in
the history. -/
def twoDocs : Mem :=
  (⟨0, [2, 0, 0, 0] ++ [5, 0, 0, 0, 0, 0, 0, 0, 6, 0, 0, 0, 0, 0, 0, 0] ++ [3, 0, 0, 0, 4, 0, 0, 0] ++
    [9, 0, 0, 0, 255, 255, 255, 255] ++ [1, 0, 0, 0, 7, 0, 0, 0, 0, 0, 0, 0]⟩ : Store).apply fun _ => 0

end PrimaryElection.Framework.Refill
