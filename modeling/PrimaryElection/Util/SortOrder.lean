import PrimaryElection.Util.Sort

/-! `qs_recursion_1k_1p` sorts its inclusive index range in ascending order, with the
values carried along, where the comparison is that of a rank of the keys. The
partition leaves no key above the pivot to the left of its end and none below it
to the right, and both recursive ranges are shorter. -/

namespace PrimaryElection.Util

theorem swapAt_getElem? {α : Type*} {l : List α} {i j : ℕ} (hi : i < l.length) (hj : j < l.length)
    (k : ℕ) : (swapAt l i j)[k]? = if k = j then l[i]? else if k = i then l[j]? else l[k]? := by
  unfold swapAt
  rw [List.getElem?_eq_getElem hi, List.getElem?_eq_getElem hj]
  dsimp only
  rcases eq_or_ne k j with rfl | hkj
  · rw [if_pos rfl, List.getElem?_set_self (by rwa [List.length_set])]
  rw [if_neg hkj, List.getElem?_set_ne hkj.symm]
  rcases eq_or_ne k i with rfl | hki
  · rw [if_pos rfl, List.getElem?_set_self hi]
  · rw [if_neg hki, List.getElem?_set_ne hki.symm]

namespace Qs

variable {κ β : Type*}

/-- The arrays are rearranged, keys and values alike, within a range of indices. -/
structure Within (lo hi : ℕ) (a a' : Arrays κ β) : Prop where
  keys_length : a'.keys.length = a.keys.length
  vals_length : a'.vals.length = a.vals.length
  keys_perm : a'.keys.Perm a.keys
  outside : ∀ k, k < lo ∨ hi < k → a'.keys[k]? = a.keys[k]? ∧ a'.vals[k]? = a.vals[k]?
  inside : ∀ k, lo ≤ k → k ≤ hi → ∃ j, lo ≤ j ∧ j ≤ hi ∧
    a'.keys[k]? = a.keys[j]? ∧ a'.vals[k]? = a.vals[j]?

namespace Within

variable {lo hi : ℕ} {a a' a'' : Arrays κ β}

theorem refl (lo hi : ℕ) (a : Arrays κ β) : Within lo hi a a :=
  ⟨rfl, rfl, .refl _, fun _ _ => ⟨rfl, rfl⟩, fun k h₁ h₂ => ⟨k, h₁, h₂, rfl, rfl⟩⟩

theorem lengths (h : Within lo hi a a') (hkv : a.keys.length = a.vals.length) :
    a'.keys.length = a'.vals.length := by
  rw [h.keys_length, h.vals_length, hkv]

theorem trans (h : Within lo hi a a') (h' : Within lo hi a' a'') : Within lo hi a a'' := by
  refine ⟨h'.keys_length.trans h.keys_length, h'.vals_length.trans h.vals_length,
    h'.keys_perm.trans h.keys_perm, fun k hk => ?_, fun k h₁ h₂ => ?_⟩
  · exact ⟨(h'.outside k hk).1.trans (h.outside k hk).1, (h'.outside k hk).2.trans (h.outside k hk).2⟩
  · obtain ⟨j, hj₁, hj₂, hj⟩ := h'.inside k h₁ h₂
    obtain ⟨l, hl₁, hl₂, hl⟩ := h.inside j hj₁ hj₂
    exact ⟨l, hl₁, hl₂, hj.1.trans hl.1, hj.2.trans hl.2⟩

theorem widen {lo' hi' : ℕ} (h : Within lo hi a a') (hlo : lo' ≤ lo) (hhi : hi ≤ hi') :
    Within lo' hi' a a' := by
  refine ⟨h.keys_length, h.vals_length, h.keys_perm, fun k hk => ?_, fun k h₁ h₂ => ?_⟩
  · exact h.outside k (by omega)
  · by_cases hk : lo ≤ k ∧ k ≤ hi
    · obtain ⟨j, hj₁, hj₂, hj⟩ := h.inside k hk.1 hk.2
      exact ⟨j, by omega, by omega, hj⟩
    · exact ⟨k, h₁, h₂, h.outside k (by omega)⟩

theorem swap {i j : ℕ} (hlen : a.keys.length = a.vals.length) (hi' : hi < a.keys.length)
    (h₁ : lo ≤ i) (h₂ : i ≤ hi) (h₃ : lo ≤ j) (h₄ : j ≤ hi) : Within lo hi a (a.swap i j) := by
  have hi : i < a.keys.length := by omega
  have hj : j < a.keys.length := by omega
  refine ⟨swapAt_length _ _ _, swapAt_length _ _ _, swapAt_perm _ _ _, fun k hk => ?_,
    fun k hk₁ hk₂ => ?_⟩
  · rw [Arrays.swap, swapAt_getElem? hi hj, swapAt_getElem? (hlen ▸ hi) (hlen ▸ hj)]
    rw [if_neg (by omega), if_neg (by omega), if_neg (by omega), if_neg (by omega)]
    exact ⟨rfl, rfl⟩
  · rw [Arrays.swap, swapAt_getElem? hi hj, swapAt_getElem? (hlen ▸ hi) (hlen ▸ hj)]
    split_ifs
    · exact ⟨i, h₁, h₂, rfl, rfl⟩
    · exact ⟨j, h₃, h₄, rfl, rfl⟩
    · exact ⟨k, hk₁, hk₂, rfl, rfl⟩

end Within

/-- The comparison of the keys is that of a rank. -/
def Ranks (lt : κ → κ → Bool) (rank : κ → ℤ) (keys : List κ) : Prop :=
  ∀ x ∈ keys, ∀ y ∈ keys, lt x y = true ↔ rank x < rank y

def rankAt (rank : κ → ℤ) (keys : List κ) (i : ℕ) : ℤ := (keys[i]?.map rank).getD 0

def Ascending (rank : κ → ℤ) (keys : List κ) (lo hi : ℕ) : Prop :=
  ∀ i j, lo ≤ i → i < j → j ≤ hi → rankAt rank keys i ≤ rankAt rank keys j

section

variable {lt : κ → κ → Bool} {rank : κ → ℤ} {keys : List κ} {mid : κ}

theorem Ranks.perm {keys' : List κ} (h : Ranks lt rank keys) (hp : keys'.Perm keys) :
    Ranks lt rank keys' := fun x hx y hy => h x (hp.subset hx) y (hp.subset hy)

theorem rankAt_congr {keys' : List κ} {i j : ℕ} (h : keys'[i]? = keys[j]?) :
    rankAt rank keys' i = rankAt rank keys j := by
  unfold rankAt
  rw [h]

theorem below_iff (h : Ranks lt rank keys) (hm : mid ∈ keys) {i : ℕ} (hi : i < keys.length) :
    below lt keys mid i = true ↔ rankAt rank keys i < rank mid := by
  unfold below rankAt
  rw [List.getElem?_eq_getElem hi]
  exact h _ (List.getElem_mem hi) _ hm

theorem above_iff (h : Ranks lt rank keys) (hm : mid ∈ keys) {i : ℕ} (hi : i < keys.length) :
    above lt keys mid i = true ↔ rank mid < rankAt rank keys i := by
  unfold above rankAt
  rw [List.getElem?_eq_getElem hi]
  exact h _ hm _ (List.getElem_mem hi)

/-- The first scan passes keys below the pivot and stops at the end or at another one. -/
theorem scanUp_spec (lt : κ → κ → Bool) (keys : List κ) (mid : κ) {e n b : ℕ} (hb : b ≤ e) (hn : e - b ≤ n) :
    (∀ k, b ≤ k → k < scanUp lt keys mid e n b → below lt keys mid k = true) ∧
      (scanUp lt keys mid e n b < e → ¬ below lt keys mid (scanUp lt keys mid e n b) = true) := by
  induction n generalizing b with
  | zero =>
    simp only [scanUp]
    exact ⟨fun k h₁ h₂ => by omega, fun h => by omega⟩
  | succ n ih =>
    rw [scanUp]
    split
    next hc =>
      obtain ⟨hpass, hstop⟩ := ih (b := b + 1) (by omega) (by omega)
      refine ⟨fun k hk₁ hk₂ => ?_, hstop⟩
      rcases Nat.eq_or_lt_of_le hk₁ with rfl | hk
      · exact hc.2
      · exact hpass k hk hk₂
    next hc => exact ⟨fun k _ _ => by omega, fun h hbel => hc ⟨h, hbel⟩⟩

theorem scanDown_spec (lt : κ → κ → Bool) (keys : List κ) (mid : κ) {b n e : ℕ} (hb : b ≤ e) (hn : e - b ≤ n) :
    (∀ k, scanDown lt keys mid b n e < k → k ≤ e → above lt keys mid k = true) ∧
      (b < scanDown lt keys mid b n e → ¬ above lt keys mid (scanDown lt keys mid b n e) = true) := by
  induction n generalizing e with
  | zero =>
    simp only [scanDown]
    exact ⟨fun k h₁ h₂ => by omega, fun h => by omega⟩
  | succ n ih =>
    rw [scanDown]
    split
    next hc =>
      obtain ⟨hpass, hstop⟩ := ih (e := e - 1) (by omega) (by omega)
      refine ⟨fun k hk₁ hk₂ => ?_, hstop⟩
      rcases Nat.eq_or_lt_of_le hk₂ with rfl | hk
      · exact hc.2
      · exact hpass k hk₁ (by omega)
    next hc => exact ⟨fun k _ _ => by omega, fun h hab => hc ⟨h, hab⟩⟩

/-- The loop has parted the range up to `b` and from `e` on, and both parts have grown
or the pivot is still ahead of both. -/
structure Parted (rank : κ → ℤ) (mid : κ) (lo hi : ℕ) (keys : List κ) (b e : ℕ) : Prop where
  lo_le : lo ≤ b
  le : b ≤ e
  le_hi : e ≤ hi
  left : ∀ k, lo ≤ k → k < b → rankAt rank keys k ≤ rank mid
  right : ∀ k, e < k → k ≤ hi → rank mid ≤ rankAt rank keys k
  moved : (lo < b ∧ (e < hi ∨ rank mid ≤ rankAt rank keys hi)) ∨
    ∃ p, lo < p ∧ p < hi ∧ b ≤ p ∧ p ≤ e ∧ rankAt rank keys p = rank mid

theorem rankAt_swap {a : Arrays κ β} {i j : ℕ} (hi : i < a.keys.length) (hj : j < a.keys.length)
    (k : ℕ) : rankAt rank (a.swap i j).keys k =
      if k = j then rankAt rank a.keys i else if k = i then rankAt rank a.keys j
      else rankAt rank a.keys k := by
  unfold rankAt Arrays.swap
  rw [swapAt_getElem? hi hj]
  split_ifs <;> rfl

/-- A round that exchanges two keys, where the scans have stopped at `i` and `j`. -/
theorem Parted.exchange {lo hi b e i j : ℕ} {a : Arrays κ β}
    (hpart : Parted rank mid lo hi a.keys b e) (hlen : hi < a.keys.length) (hbi : b ≤ i)
    (hij : i < j) (hje : j ≤ e) (hup : ∀ k, b ≤ k → k < i → rankAt rank a.keys k < rank mid)
    (hdown : ∀ k, j < k → k ≤ e → rank mid < rankAt rank a.keys k)
    (hlow : rank mid ≤ rankAt rank a.keys i) (hhigh : rankAt rank a.keys j ≤ rank mid) :
    Parted rank mid lo hi (a.swap i j).keys (i + 1) (if i + 1 < j then j - 1 else j) := by
  obtain ⟨hlo, hle, hhi, hleft, hright, -⟩ := hpart
  have hswap : ∀ k, rankAt rank (a.swap i j).keys k = if k = j then rankAt rank a.keys i
      else if k = i then rankAt rank a.keys j else rankAt rank a.keys k :=
    rankAt_swap (by omega) (by omega)
  have hright' : ∀ k, j ≤ k → k ≤ hi → rank mid ≤ rankAt rank (a.swap i j).keys k := by
    intro k h₁ h₂
    rw [hswap]
    rcases Nat.eq_or_lt_of_le h₁ with rfl | h₁
    · rwa [if_pos rfl]
    · rw [if_neg (by omega), if_neg (by omega)]
      by_cases hk : k ≤ e
      · exact (hdown k h₁ hk).le
      · exact hright k (by omega) h₂
  refine ⟨by omega, by split_ifs <;> omega, by split_ifs <;> omega, ?_, ?_, .inl ⟨by omega, ?_⟩⟩
  · intro k h₁ h₂
    rw [hswap, if_neg (by omega)]
    rcases Nat.eq_or_lt_of_le (Nat.le_of_lt_succ h₂) with rfl | hk
    · rwa [if_pos rfl]
    · rw [if_neg (by omega)]
      by_cases hb : k < b
      · exact hleft k h₁ hb
      · exact (hup k (by omega) hk).le
  · intro k h₁ h₂
    exact hright' k (by split_ifs at h₁ <;> omega) h₂
  · by_cases hj : j = hi
    · exact .inr (hright' hi hj.le le_rfl)
    · exact .inl (by split_ifs <;> omega)

theorem Parted.meet {lo hi b e i : ℕ} {keys : List κ} (hpart : Parted rank mid lo hi keys b e)
    (hbi : b ≤ i) (hie : i ≤ e) (hup : ∀ k, b ≤ k → k < i → rankAt rank keys k < rank mid)
    (hdown : ∀ k, i < k → k ≤ e → rank mid < rankAt rank keys k) :
    Parted rank mid lo hi keys i i := by
  obtain ⟨hlo, hle, hhi, hleft, hright, hmoved⟩ := hpart
  refine ⟨by omega, le_rfl, by omega, ?_, ?_, ?_⟩
  · intro k h₁ h₂
    by_cases hb : k < b
    · exact hleft k h₁ hb
    · exact (hup k (by omega) h₂).le
  · intro k h₁ h₂
    by_cases hk : k ≤ e
    · exact (hdown k h₁ hk).le
    · exact hright k (by omega) h₂
  · rcases hmoved with ⟨hb, he⟩ | ⟨p, hp₁, hp₂, hp₃, hp₄, hp⟩
    · refine .inl ⟨by omega, ?_⟩
      rcases he with he | he
      · exact .inl (by omega)
      · exact .inr he
    · -- neither scan passes the pivot
      have h₁ : i ≤ p := by
        by_contra hc
        exact (hup p hp₃ (by omega)).ne hp
      have h₂ : p ≤ i := by
        by_contra hc
        exact (hdown p (by omega) hp₄).ne' hp
      exact .inl ⟨by omega, .inl (by omega)⟩

theorem partitionLoop_done (n : ℕ) (a : Arrays κ β) (b : ℕ) :
    partitionLoop lt mid n a b b = (a, b, b) := by
  cases n with
  | zero => rfl
  | succ n => rw [partitionLoop, if_neg (lt_irrefl b)]

/-- The loop ends with the range parted at one index, which is not its first one. -/
theorem partitionLoop_spec {lo hi n b e : ℕ} {a : Arrays κ β} (hr : Ranks lt rank a.keys)
    (hm : mid ∈ a.keys) (hkv : a.keys.length = a.vals.length) (hlen : hi < a.keys.length)
    (hpart : Parted rank mid lo hi a.keys b e) (hn : e - b ≤ n) :
    ∃ a' x, partitionLoop lt mid n a b e = (a', x, x) ∧ Within lo hi a a' ∧
      Parted rank mid lo hi a'.keys x x := by
  induction n generalizing a b e with
  | zero =>
    obtain rfl : b = e := le_antisymm hpart.le (by omega)
    exact ⟨a, b, rfl, .refl _ _ _, hpart⟩
  | succ n ih =>
    rw [partitionLoop]
    split
    next hbe =>
      obtain ⟨hu₁, hu₂⟩ := scanUp_range lt a.keys mid (n := e - b) hbe.le
      obtain ⟨hu₃, hu₄⟩ := scanUp_spec lt a.keys mid hbe.le le_rfl
      dsimp only
      generalize scanUp lt a.keys mid e (e - b) b = i at *
      obtain ⟨hd₁, hd₂⟩ := scanDown_range lt a.keys mid (n := e - i) hu₂
      obtain ⟨hd₃, hd₄⟩ := scanDown_spec lt a.keys mid hu₂ le_rfl
      generalize scanDown lt a.keys mid i (e - i) e = j at *
      have hhi := hpart.le_hi
      have hup : ∀ k, b ≤ k → k < i → rankAt rank a.keys k < rank mid := fun k h₁ h₂ =>
        (below_iff hr hm (by omega)).mp (hu₃ k h₁ h₂)
      have hdown : ∀ k, j < k → k ≤ e → rank mid < rankAt rank a.keys k := fun k h₁ h₂ =>
        (above_iff hr hm (by omega)).mp (hd₃ k h₁ h₂)
      split
      next hij =>
        have hlow : rank mid ≤ rankAt rank a.keys i := by
          have := hu₄ (by omega)
          rw [below_iff hr hm (by omega)] at this
          omega
        have hhigh : rankAt rank a.keys j ≤ rank mid := by
          have := hd₄ hij
          rw [above_iff hr hm (by omega)] at this
          omega
        have hx := hpart.exchange hlen hu₁ hij hd₂ hup hdown hlow hhigh
        have hlo := hpart.lo_le
        have hs : Within lo hi a (a.swap i j) :=
          .swap hkv hlen (by omega) (by omega) (by omega) (by omega)
        obtain ⟨a', x, heq, hw, hp⟩ := ih (hr.perm hs.keys_perm) (hs.keys_perm.mem_iff.mpr hm)
          (hs.lengths hkv) (by rwa [hs.keys_length]) hx
          (by split_ifs <;> omega)
        exact ⟨a', x, heq, hs.trans hw, hp⟩
      next hij =>
        obtain rfl : i = j := by omega
        exact ⟨a, i, partitionLoop_done _ _ _, .refl _ _ _, hpart.meet hu₁ hu₂ hup hdown⟩
    next hbe =>
      obtain rfl : b = e := le_antisymm hpart.le (by omega)
      exact ⟨a, b, rfl, .refl _ _ _, hpart⟩

/-- Keys from outside a rearranged range keep their ranks. -/
theorem Within.rankAt_outside {lo hi k : ℕ} {a a' : Arrays κ β} (h : Within lo hi a a')
    (hk : k < lo ∨ hi < k) : rankAt rank a'.keys k = rankAt rank a.keys k :=
  rankAt_congr (h.outside k hk).1

/-- Bounds of the ranks of a range survive its rearrangement. -/
theorem Within.le_rankAt {lo hi : ℕ} {a a' : Arrays κ β} (h : Within lo hi a a') {c : ℤ}
    (hc : ∀ k, lo ≤ k → k ≤ hi → c ≤ rankAt rank a.keys k) :
    ∀ k, lo ≤ k → k ≤ hi → c ≤ rankAt rank a'.keys k := by
  intro k h₁ h₂
  obtain ⟨j, hj₁, hj₂, hj⟩ := h.inside k h₁ h₂
  rw [rankAt_congr hj.1]
  exact hc j hj₁ hj₂

theorem Within.rankAt_le {lo hi : ℕ} {a a' : Arrays κ β} (h : Within lo hi a a') {c : ℤ}
    (hc : ∀ k, lo ≤ k → k ≤ hi → rankAt rank a.keys k ≤ c) :
    ∀ k, lo ≤ k → k ≤ hi → rankAt rank a'.keys k ≤ c := by
  intro k h₁ h₂
  obtain ⟨j, hj₁, hj₂, hj⟩ := h.inside k h₁ h₂
  rw [rankAt_congr hj.1]
  exact hc j hj₁ hj₂

theorem ascending_of_le {keys : List κ} {lo hi : ℕ} (h : hi ≤ lo) : Ascending rank keys lo hi :=
  fun i j h₁ h₂ h₃ => by omega

/-- Sorting the part from `x` on extends what is sorted before it, when a value lies
between the two. -/
theorem Ascending.extend {lo hi x : ℕ} {a a' : Arrays κ β} {c : ℤ}
    (hl : ∀ i j, lo ≤ i → i < j → j < x → rankAt rank a.keys i ≤ rankAt rank a.keys j)
    (hlc : ∀ k, lo ≤ k → k < x → rankAt rank a.keys k ≤ c)
    (hcr : ∀ k, x ≤ k → k ≤ hi → c ≤ rankAt rank a.keys k) (hw : Within x hi a a')
    (hr : Ascending rank a'.keys x hi) : Ascending rank a'.keys lo hi := by
  intro i j h₁ h₂ h₃
  by_cases hi : x ≤ i
  · exact hr i j hi h₂ h₃
  · rw [hw.rankAt_outside (.inl (by omega))]
    by_cases hj : x ≤ j
    · exact (hlc i h₁ (by omega)).trans (hw.le_rankAt hcr j hj h₃)
    · rw [hw.rankAt_outside (.inl (by omega))]
      exact hl i j h₁ h₂ (by omega)

/-- The two keys of a range of length two. -/
theorem pair_spec {lo : ℕ} {a : Arrays κ β} (hr : Ranks lt rank a.keys)
    (hkv : a.keys.length = a.vals.length) (hlen : lo + 1 < a.keys.length) :
    Within lo (lo + 1) a (if lt a.keys[lo + 1] a.keys[lo] then a.swap lo (lo + 1) else a) ∧
      Ascending rank (if lt a.keys[lo + 1] a.keys[lo] then a.swap lo (lo + 1) else a).keys
        lo (lo + 1) := by
  have hlo : lo < a.keys.length := by omega
  have hx : rankAt rank a.keys lo = rank a.keys[lo] := by
    rw [rankAt, List.getElem?_eq_getElem hlo]
    rfl
  have hy : rankAt rank a.keys (lo + 1) = rank a.keys[lo + 1] := by
    rw [rankAt, List.getElem?_eq_getElem hlen]
    rfl
  have hiff := hr _ (List.getElem_mem hlen) _ (List.getElem_mem hlo)
  constructor
  · split
    · exact .swap hkv hlen le_rfl (by omega) (by omega) le_rfl
    · exact .refl _ _ _
  · intro i j h₁ h₂ h₃
    obtain rfl : i = lo := by omega
    obtain rfl : j = i + 1 := by omega
    split
    next hlt =>
      have := hiff.mp hlt
      rw [rankAt_swap hlo hlen, rankAt_swap hlo hlen, if_neg (by omega), if_pos rfl, if_pos rfl]
      omega
    next hlt =>
      have := mt hiff.mpr hlt
      omega

/-- Where the loop ends, both recursive ranges are shorter than the whole one. -/
theorem Parted.end_lt {lo hi x : ℕ} {keys : List κ} (h : Parted rank mid lo hi keys x x) :
    lo < x ∧ (x < hi ∨ rank mid ≤ rankAt rank keys hi) := by
  rcases h.moved with h | ⟨p, h₁, h₂, h₃, h₄, -⟩
  · exact h
  · obtain rfl : x = p := le_antisymm h₃ h₄
    exact ⟨h₁, .inl h₂⟩

/-- The index behind the left range: a key below the pivot at the end belongs to both. -/
def LeftEnd (rank : κ → ℤ) (mid : κ) (keys : List κ) (x b : ℕ) : Prop :=
  (b = x ∧ rank mid ≤ rankAt rank keys x) ∨ (b = x + 1 ∧ rankAt rank keys x < rank mid)

theorem leftEnd_of_below (hr : Ranks lt rank keys) (hm : mid ∈ keys) {x : ℕ} (hx : x < keys.length) :
    LeftEnd rank mid keys x (if below lt keys mid x = true then x + 1 else x) := by
  have hbel := below_iff hr hm hx
  split
  next h => exact .inr ⟨rfl, hbel.mp h⟩
  next h => exact .inl ⟨rfl, not_lt.mp (mt hbel.mpr h)⟩

/-- The left range ends inside the whole one. -/
theorem Parted.leftEnd_le {lo hi x b : ℕ} {keys : List κ} (hp : Parted rank mid lo hi keys x x)
    (hb : LeftEnd rank mid keys x b) : x ≤ b ∧ b ≤ hi := by
  have hle := hp.le_hi
  rcases hb with ⟨rfl, -⟩ | ⟨rfl, hlt⟩
  · exact ⟨le_rfl, hle⟩
  · rcases hp.end_lt.2 with h | h
    · omega
    · rcases Nat.eq_or_lt_of_le hle with rfl | h'
      · omega
      · omega

/-- The range comes out ascending and its keys and values are rearranged alike. -/
structure Sorts (rank : κ → ℤ) (lo hi : ℕ) (a a' : Arrays κ β) : Prop where
  within : Within lo hi a a'
  ascending : Ascending rank a'.keys lo hi

theorem Sorts.of_le {lo hi : ℕ} (h : hi ≤ lo) (a : Arrays κ β) : Sorts rank lo hi a a :=
  ⟨.refl _ _ _, ascending_of_le h⟩

theorem Sorts.ite {p : Prop} [Decidable p] {lo hi : ℕ} {a a' : Arrays κ β}
    (h : p → Sorts rank lo hi a a') (hn : ¬ p → hi ≤ lo) :
    Sorts rank lo hi a (if p then a' else a) := by
  split
  next hp => exact h hp
  next hp => exact .of_le (hn hp) a

/-- Sorting the left range and then the right one sorts the whole. -/
theorem Parted.halves {lo hi x b : ℕ} {a₁ a₂ a₃ : Arrays κ β}
    (hp : Parted rank mid lo hi a₁.keys x x) (hb : LeftEnd rank mid a₁.keys x b)
    (hw₂ : Within lo (b - 1) a₁ a₂) (h₂ : Ascending rank a₂.keys lo (b - 1))
    (hw₃ : Within x hi a₂ a₃) (h₃ : Ascending rank a₃.keys x hi) : Ascending rank a₃.keys lo hi := by
  have hlo := hp.end_lt.1
  have hhi := hp.le_hi
  rcases hb with ⟨rfl, hge⟩ | ⟨rfl, hlt⟩
  · refine Ascending.extend (c := rank mid) (fun i j h₁ h h₂' => h₂ i j h₁ h (by omega)) ?_ ?_ hw₃ h₃
    · intro k hk₁ hk₂
      exact hw₂.rankAt_le (fun j hj₁ hj₂ => hp.left j hj₁ (by omega)) k hk₁ (by omega)
    · intro k hk₁ hk₂
      rw [hw₂.rankAt_outside (.inr (by omega))]
      rcases Nat.eq_or_lt_of_le hk₁ with rfl | hk
      · exact hge
      · exact hp.right k hk hk₂
  · -- the key at `x`, in both ranges, lies between them
    have hle : ∀ k, lo ≤ k → k ≤ x → rankAt rank a₂.keys k ≤ rank mid := by
      refine hw₂.rankAt_le fun k hk₁ hk₂ => ?_
      rcases Nat.eq_or_lt_of_le (show k ≤ x by omega) with rfl | hk
      · exact hlt.le
      · exact hp.left k hk₁ hk
    refine Ascending.extend (c := rankAt rank a₂.keys x) (fun i j h₁ h h₂' => h₂ i j h₁ h (by omega))
      (fun k hk₁ hk₂ => h₂ k x hk₁ hk₂ (by omega)) ?_ hw₃ h₃
    intro k hk₁ hk₂
    rcases Nat.eq_or_lt_of_le hk₁ with rfl | hk
    · exact le_rfl
    · have hout : rankAt rank a₂.keys k = rankAt rank a₁.keys k := hw₂.rankAt_outside (.inr (by omega))
      rw [hout]
      exact (hle x hlo.le le_rfl).trans (hp.right k hk hk₂)

theorem qsRecursion1k1p_spec {fuel lo hi : ℕ} {a : Arrays κ β} (hr : Ranks lt rank a.keys)
    (hkv : a.keys.length = a.vals.length) (hlen : hi < a.keys.length) (hf : hi - lo ≤ fuel) :
    Sorts rank lo hi a (qsRecursion1k1p lt fuel lo hi a) := by
  induction fuel generalizing lo hi a with
  | zero => exact .of_le (by omega) a
  | succ fuel ih =>
    rw [qsRecursion1k1p]
    split
    next h => exact .of_le h a
    split
    next h =>
      subst h
      have hlo : lo < a.keys.length := by omega
      rw [List.getElem?_eq_getElem hlo, List.getElem?_eq_getElem hlen]
      exact ⟨(pair_spec hr hkv hlen).1, (pair_spec hr hkv hlen).2⟩
    next hlt htwo =>
      have hmid : (lo + hi) / 2 < a.keys.length := by omega
      rw [List.getElem?_eq_getElem hmid]
      dsimp only
      have hpivot : rankAt rank a.keys ((lo + hi) / 2) = rank a.keys[(lo + hi) / 2] := by
        rw [rankAt, List.getElem?_eq_getElem hmid]
        rfl
      have hmem : a.keys[(lo + hi) / 2] ∈ a.keys := List.getElem_mem hmid
      generalize a.keys[(lo + hi) / 2] = mid at *
      have hstart : Parted rank mid lo hi a.keys lo hi :=
        ⟨le_rfl, by omega, le_rfl, fun k _ _ => by omega, fun k _ _ => by omega,
          .inr ⟨(lo + hi) / 2, by omega, by omega, by omega, by omega, hpivot⟩⟩
      obtain ⟨a₁, x, heq, hw₁, hp⟩ := partitionLoop_spec hr hmem hkv hlen hstart le_rfl
      rw [heq]
      dsimp only
      have hr₁ := hr.perm hw₁.keys_perm
      have hkv₁ := hw₁.lengths hkv
      have hlen₁ : hi < a₁.keys.length := by rwa [hw₁.keys_length]
      have hxhi := hp.le_hi
      obtain ⟨hlox, hxend⟩ := hp.end_lt
      have hend := leftEnd_of_below hr₁ (hw₁.keys_perm.mem_iff.mpr hmem) (x := x) (by omega)
      generalize (if below lt a₁.keys mid x = true then x + 1 else x) = b at hend ⊢
      obtain ⟨hxb, hbhi⟩ := hp.leftEnd_le hend
      -- the left range
      obtain ⟨hw₂, hs₂⟩ : Sorts rank lo (b - 1) a₁
          (if lo + 1 < b then qsRecursion1k1p lt fuel lo (b - 1) a₁ else a₁) :=
        .ite (fun _ => ih hr₁ hkv₁ (by omega) (by omega)) fun _ => by omega
      generalize (if lo + 1 < b then qsRecursion1k1p lt fuel lo (b - 1) a₁ else a₁) = a₂ at hw₂ hs₂ ⊢
      -- the right range
      obtain ⟨hw₃, hs₃⟩ : Sorts rank x hi a₂
          (if x < hi then qsRecursion1k1p lt fuel x hi a₂ else a₂) :=
        .ite (fun _ => ih (hr₁.perm hw₂.keys_perm) (hw₂.lengths hkv₁) (by rwa [hw₂.keys_length])
          (by omega)) fun _ => by omega
      refine ⟨?_, hp.halves hend hw₂ hs₂ hw₃ hs₃⟩
      exact (hw₁.trans (hw₂.widen le_rfl (by omega))).trans (hw₃.widen hlox.le le_rfl)

end

end Qs

end PrimaryElection.Util
