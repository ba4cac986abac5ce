import PrimaryElection.Util.Sort

/-! The elements that the quicksort of UT_Sort.h reads. Whatever the comparison
answers they lie in the sorted range, and a range of two or more is read in its upper
half. -/

namespace PrimaryElection.Util.Qs

/-- An element of `tKey_1` or of `tKey_2`. -/
inductive Cell where
  | key (i : ℕ)
  | val (i : ℕ)
  deriving DecidableEq

def Cell.pos : Cell → ℕ
  | .key i => i
  | .val i => i

variable {κ β : Type*} (lt : κ → κ → Bool)

def scanUpReads (keys : List κ) (mid : κ) (e : ℕ) : ℕ → ℕ → List Cell
  | 0, _ => []
  | n + 1, b =>
    if b < e then .key b :: if below lt keys mid b then scanUpReads keys mid e n (b + 1) else []
    else []

def scanDownReads (keys : List κ) (mid : κ) (b : ℕ) : ℕ → ℕ → List Cell
  | 0, _ => []
  | n + 1, e =>
    if b < e then .key e :: if above lt keys mid e then scanDownReads keys mid b n (e - 1) else []
    else []

def swapReads (i j : ℕ) : List Cell := [.key i, .key j, .val i, .val j]

def partitionReads (mid : κ) : ℕ → Arrays κ β → ℕ → ℕ → List Cell
  | 0, _, _, _ => []
  | n + 1, a, b, e =>
    if b < e then
      let b' := scanUp lt a.keys mid e (e - b) b
      let e' := scanDown lt a.keys mid b' (e - b') e
      scanUpReads lt a.keys mid e (e - b) b ++ scanDownReads lt a.keys mid b' (e - b') e ++
        if b' < e' then
          swapReads b' e' ++
            partitionReads mid n (a.swap b' e') (b' + 1) (if b' + 1 < e' then e' - 1 else e')
        else partitionReads mid n a b' e'
    else []

def qsReads : ℕ → ℕ → ℕ → Arrays κ β → List Cell
  | 0, _, _, _ => []
  | fuel + 1, lBegin, lEnd, a =>
    if lEnd ≤ lBegin then []
    else if lBegin + 1 = lEnd then
      [.key lBegin, .key lEnd] ++
        match a.keys[lBegin]?, a.keys[lEnd]? with
        | some x, some y => if lt y x then swapReads lBegin lEnd else []
        | _, _ => []
    else
      .key ((lBegin + lEnd) / 2) ::
        match a.keys[(lBegin + lEnd) / 2]? with
        | none => []
        | some mid =>
          let r := partitionLoop lt mid (lEnd - lBegin) a lBegin lEnd
          let b := if below lt r.1.keys mid r.2.1 then r.2.1 + 1 else r.2.1
          let a' := if lBegin + 1 < b then qsRecursion1k1p lt fuel lBegin (b - 1) r.1 else r.1
          partitionReads lt mid (lEnd - lBegin) a lBegin lEnd ++ [.key r.2.1] ++
            (if lBegin + 1 < b then qsReads fuel lBegin (b - 1) r.1 else []) ++
            if r.2.2 < lEnd then qsReads fuel r.2.2 lEnd a' else []

def Cell.In (x : Cell) (lo hi : ℕ) : Prop := lo ≤ x.pos ∧ x.pos ≤ hi

theorem Cell.In.widen {x : Cell} {lo hi lo' hi' : ℕ} (h : x.In lo hi) (hlo : lo' ≤ lo)
    (hhi : hi ≤ hi') : x.In lo' hi' := ⟨hlo.trans h.1, h.2.trans hhi⟩

variable {lt}

theorem scanUpReads_range (keys : List κ) (mid : κ) {e n b : ℕ} {x : Cell}
    (h : x ∈ scanUpReads lt keys mid e n b) : x.In b e := by
  induction n generalizing b with
  | zero => cases h
  | succ n ih =>
    rw [scanUpReads] at h
    split at h
    next hb =>
      rcases List.mem_cons.mp h with rfl | h
      · exact ⟨le_rfl, hb.le⟩
      · split at h
        · exact (ih h).widen (by omega) le_rfl
        · cases h
    next => cases h

theorem scanDownReads_range (keys : List κ) (mid : κ) {b n e : ℕ} {x : Cell}
    (h : x ∈ scanDownReads lt keys mid b n e) : x.In b e := by
  induction n generalizing e with
  | zero => cases h
  | succ n ih =>
    rw [scanDownReads] at h
    split at h
    next hb =>
      rcases List.mem_cons.mp h with rfl | h
      · exact ⟨hb.le, le_rfl⟩
      · split at h
        · exact (ih h).widen le_rfl (by omega)
        · cases h
    next => cases h

theorem swapReads_range {i j : ℕ} (hij : i ≤ j) {x : Cell} (h : x ∈ swapReads i j) : x.In i j := by
  simp only [swapReads, List.mem_cons, List.not_mem_nil, or_false] at h
  rcases h with rfl | rfl | rfl | rfl
  · exact ⟨le_rfl, hij⟩
  · exact ⟨hij, le_rfl⟩
  · exact ⟨le_rfl, hij⟩
  · exact ⟨hij, le_rfl⟩

theorem partitionReads_range (mid : κ) {n b e : ℕ} {a : Arrays κ β} {x : Cell}
    (h : x ∈ partitionReads lt mid n a b e) : x.In b e := by
  induction n generalizing a b e with
  | zero => cases h
  | succ n ih =>
    rw [partitionReads] at h
    dsimp only at h
    split at h
    next hb =>
      have hup := scanUp_range lt a.keys mid (n := e - b) hb.le
      have hdown := scanDown_range lt a.keys mid
        (n := e - scanUp lt a.keys mid e (e - b) b) hup.2
      rcases List.mem_append.mp h with h | h
      · rcases List.mem_append.mp h with h | h
        · exact scanUpReads_range _ _ h
        · exact (scanDownReads_range _ _ h).widen hup.1 le_rfl
      generalize scanUp lt a.keys mid e (e - b) b = i at hup hdown h
      generalize scanDown lt a.keys mid i (e - i) e = j at hdown h
      split at h
      next hij =>
        rcases List.mem_append.mp h with h | h
        · exact (swapReads_range hij.le h).widen hup.1 hdown.2
        · exact (ih h).widen (by omega) (by split_ifs <;> omega)
      next => exact (ih h).widen hup.1 hdown.2
    next => cases h

/-- Only elements of the range are read. -/
theorem qsReads_range {fuel lo hi : ℕ} {a : Arrays κ β} {x : Cell}
    (h : x ∈ qsReads lt fuel lo hi a) : x.In lo hi := by
  induction fuel generalizing lo hi a with
  | zero => cases h
  | succ fuel ih =>
    rw [qsReads] at h
    split at h
    · cases h
    next hlo =>
    split at h
    next hone =>
      rcases List.mem_append.mp h with h | h
      · simp only [List.mem_cons, List.not_mem_nil, or_false] at h
        rcases h with rfl | rfl
        · exact ⟨le_rfl, by simp only [Cell.pos]; omega⟩
        · exact ⟨by simp only [Cell.pos]; omega, le_rfl⟩
      · split at h
        · split at h
          · exact swapReads_range (by omega) h
          · cases h
        · cases h
    rcases List.mem_cons.mp h with rfl | h
    · exact ⟨by simp only [Cell.pos]; omega, by simp only [Cell.pos]; omega⟩
    split at h
    · cases h
    next mid _ =>
      extract_lets r b a' at h
      have hr : lo ≤ r.2.1 ∧ r.2.1 ≤ r.2.2 ∧ r.2.2 ≤ hi :=
        partitionLoop_range lt mid a (not_le.mp hlo).le
      have hb : b ≤ hi + 1 := by
        dsimp only [b]
        split <;> omega
      rcases List.mem_append.mp h with h | h
      · rcases List.mem_append.mp h with h | h
        · rcases List.mem_append.mp h with h | h
          · exact partitionReads_range mid h
          · rw [List.mem_singleton] at h
            subst h
            exact ⟨hr.1, hr.2.1.trans hr.2.2⟩
        · split at h
          · exact (ih h).widen le_rfl (by omega)
          · cases h
      · split at h
        · exact (ih h).widen (hr.1.trans hr.2.1) le_rfl
        · cases h

end PrimaryElection.Util.Qs
