import PrimaryElection.Framework.RefillPinned

/-! The order of the refilled list. The pinned documents stand at the front of the
reply, the sort leaves them there, and the list is read from the back, so the pinned
ones come last. -/

namespace PrimaryElection.Framework.Refill

open Util Qs

variable {F : Type*}

/-- The document has a negative time in the reply. -/
def Pinned (r : FilterReply F) (d : DocId) : Prop :=
  ∃ (j : ℕ) (t : ℤ), r.did[j]? = some d ∧ r.time[j]? = some t ∧ t < 0

def fused (fl : Floats F) (k : Config F) (r : FilterReply F) (c : CalcReply F) : List F :=
  fuseLoop fl k (r.scan c.num.toNat) c.pwr c.num.toNat

/-- The final power of a document. -/
def FinalPower (fl : Floats F) (k : Config F) (r : FilterReply F) (c : CalcReply F) (d : DocId)
    (p : F) : Prop :=
  ∃ i : ℕ, (r.scan c.num.toNat).docs.did[i]? = some d ∧ (fused fl k r c)[i]? = some p

/-- The list for the cache: the length and the ids, pinned documents before the others,
and the others by descending final power with none left out that exceeds one taken. -/
structure RankedList (fl : Floats F) (k : Config F) (r : FilterReply F) (c : CalcReply F)
    (lst : List DocId) (n : ℤ) : Prop where
  count : n = min k.cacheSavecount r.did.length
  length : (lst.length : ℤ) = n
  nodup : lst.Nodup
  subset : ∀ d ∈ lst, d ∈ r.did
  pinnedFirst : ∀ (i j : ℕ) (d e : DocId), i < j → lst[i]? = some d → lst[j]? = some e →
    Pinned r e → Pinned r d
  pinnedAll : (∃ d ∈ lst, ¬ Pinned r d) → ∀ e ∈ r.did, Pinned r e → e ∈ lst
  descending : ∀ (i j : ℕ) (d e : DocId) (p q : F), i < j → lst[i]? = some d → lst[j]? = some e →
    ¬ Pinned r d → ¬ Pinned r e → FinalPower fl k r c d p → FinalPower fl k r c e q →
    fl.lt p q = false
  best : ∀ (d e : DocId) (p q : F), d ∈ lst → e ∈ r.did → e ∉ lst → ¬ Pinned r d → ¬ Pinned r e →
    FinalPower fl k r c d p → FinalPower fl k r c e q → fl.lt p q = false

/-- A list is given to the cache, and it is ranked. -/
def Ranked (fl : Floats F) (k : Config F) (r : FilterReply F) (c : CalcReply F) : Prop :=
  ∃ lst n, refillList fl k r c = some (lst, n) ∧ RankedList fl k r c lst n

/-- The list fits its array, and it is empty or the reply has pinned documents only or
none. -/
def Uniform (k : Config F) (r : FilterReply F) : Prop :=
  0 ≤ k.cacheSavecount ∧ min k.cacheSavecount r.did.length ≤ requestRoom ∧
    (k.cacheSavecount = 0 ∨ (∀ t ∈ r.time, 0 ≤ t) ∨ ∀ t ∈ r.time, t < 0)

theorem requestCount_eq_min (savecount : ℤ) (n : ℕ) : requestCount savecount n = min savecount n := by
  unfold requestCount
  split_ifs <;> omega

section

variable {fl : Floats F} {k : Config F} {r : FilterReply F} {c : CalcReply F}

/-- The arrays that the sort leaves, by place. -/
structure SortedReply (fl : Floats F) (k : Config F) (r : FilterReply F) (c : CalcReply F)
    (rank : F → ℤ) (did : List DocId) : Prop where
  ids : did.Perm r.did
  pinned : ∀ (i : ℕ) (d : DocId), did[i]? = some d → (Pinned r d ↔ i < (r.scan c.num.toNat).topPos)
  ascending : ∀ (i j : ℕ) (d e : DocId) (p q : F), (r.scan c.num.toNat).topPos ≤ i → i < j →
    did[i]? = some d → did[j]? = some e → FinalPower fl k r c d p → FinalPower fl k r c e q →
    rank p ≤ rank q

theorem scan_did (r : FilterReply F) (n : ℕ) : (r.scan n).docs.did.Perm r.did := pinnedLoop_did _ _

theorem fused_length (fl : Floats F) (k : Config F) (hn : c.num = r.did.length) :
    (fused fl k r c).length = r.did.length := by
  have hnum : c.num.toNat = r.did.length := by omega
  have htr := pinnedLoop_tracks r le_rfl
  rw [fused, hnum, fuseLoop_length, htr.pwr_length, (origin_scanned r).length, r.time_length]

theorem topPos_le (hn : c.num = r.did.length) : (r.scan c.num.toNat).topPos ≤ r.did.length := by
  have hnum : c.num.toNat = r.did.length := by omega
  rw [hnum, (pinnedLoop_tracks r le_rfl).top, (origin_scanned r).top]
  exact pinnedBefore_le _ _

theorem exists_time {j : ℕ} {d : DocId} (h : r.did[j]? = some d) : ∃ t, r.time[j]? = some t := by
  obtain ⟨hj, -⟩ := List.getElem?_eq_some_iff.mp h
  exact ⟨_, List.getElem?_eq_getElem (by rwa [r.time_length])⟩

theorem pinned_iff_time (hd : r.did.Nodup) {j : ℕ} {d : DocId} {t : ℤ} (h : r.did[j]? = some d)
    (ht : r.time[j]? = some t) : Pinned r d ↔ t < 0 := by
  obtain ⟨hj, -⟩ := List.getElem?_eq_some_iff.mp h
  constructor
  · rintro ⟨j', t', hj', ht', hneg⟩
    obtain rfl : j = j' := (List.getElem?_inj hj hd).mp (h.trans hj'.symm)
    cases ht.symm.trans ht'
    exact hneg
  · exact fun hneg => ⟨j, t, h, ht, hneg⟩

/-- After the loop the pinned documents are those in front of `top_pos`. -/
theorem pinned_iff_place (hd : r.did.Nodup) (hn : c.num = r.did.length) {i : ℕ} {d : DocId}
    (h : (r.scan c.num.toNat).docs.did[i]? = some d) :
    Pinned r d ↔ i < (r.scan c.num.toNat).topPos := by
  have hnum : c.num.toNat = r.did.length := by omega
  rw [hnum] at h ⊢
  have hlen : (r.origin r.did.length).length = r.did.length :=
    (origin_scanned r).length.trans r.time_length
  have hi : i < r.did.length := by
    rw [← (scan_did r r.did.length).length_eq]
    exact (List.getElem?_eq_some_iff.mp h).1
  obtain ⟨j, ho⟩ : ∃ j, (r.origin r.did.length)[i]? = some j :=
    ⟨_, List.getElem?_eq_getElem (by rwa [hlen])⟩
  have hj : r.did[j]? = some d := (scan_own ho).1.symm.trans h
  obtain ⟨t, ht⟩ := exists_time hj
  rw [pinned_iff_time hd hj ht]
  have hle := topPos_le_iff ho ht
  omega

theorem FinalPower.at_place {d : DocId} {p : F} (hd : r.did.Nodup) (h : FinalPower fl k r c d p)
    {i : ℕ} (hi : (r.scan c.num.toNat).docs.did[i]? = some d) : (fused fl k r c)[i]? = some p := by
  obtain ⟨i', hi', hp⟩ := h
  have hnd := (scan_did r c.num.toNat).nodup_iff.mpr hd
  obtain rfl : i = i' :=
    (List.getElem?_inj (List.getElem?_eq_some_iff.mp hi).1 hnd).mp (hi.trans hi'.symm)
  exact hp

def fusedArrays (fl : Floats F) (k : Config F) (r : FilterReply F) (c : CalcReply F) :
    Arrays F DocId := ⟨fused fl k r c, (r.scan c.num.toNat).docs.did⟩

theorem rank_sorted (hd : r.did.Nodup) (hpos : r.did ≠ []) (hn : c.num = r.did.length)
    (hc : c.pwr.length = r.did.length) {rank : F → ℤ} (hr : Ranks fl.lt rank (fused fl k r c)) :
    ∃ did, Refill.rank fl k r c = some did ∧ SortedReply fl k r c rank did := by
  have hlen := List.length_pos_iff.mpr hpos
  have hflen := fused_length (c := c) fl k hn
  have hdlen := (scan_did r c.num.toNat).length_eq
  have htop := topPos_le (c := c) hn
  obtain ⟨a, hsort, hw, ha⟩ : ∃ a, qsRecursion1k1p fl.lt r.did.length (r.scan c.num.toNat).topPos
      (r.did.length - 1) (fusedArrays fl k r c) = a ∧
      Sorts rank (r.scan c.num.toNat).topPos (r.did.length - 1) (fusedArrays fl k r c) a :=
    ⟨_, rfl, qsRecursion1k1p_spec hr (hflen.trans hdlen.symm) (by rw [fusedArrays, hflen]; omega)
      (by omega)⟩
  have heq : Refill.rank fl k r c = some a.vals := by
    unfold Refill.rank
    rw [if_pos ⟨hn.le, by rw [hc, hn]⟩, ← hsort]
    rfl
  have hil : ∀ (i : ℕ) (d : DocId), a.vals[i]? = some d → i ≤ r.did.length - 1 := by
    intro i d hi
    have h₁ := (List.getElem?_eq_some_iff.mp hi).1
    rw [hw.vals_length, fusedArrays, hdlen] at h₁
    omega
  refine ⟨_, heq, rank_perm heq, ?_, ?_⟩
  · intro i d hi
    by_cases hit : i < (r.scan c.num.toNat).topPos
    · have hplace := (hw.outside i (.inl hit)).2.symm.trans hi
      exact pinned_iff_place hd hn hplace
    · obtain ⟨j, hj₁, -, -, hj⟩ := hw.inside i (not_lt.mp hit) (hil i d hi)
      have hplace := pinned_iff_place (d := d) hd hn (hj.symm.trans hi)
      exact ⟨fun h => absurd (hplace.mp h) (not_lt.mpr hj₁), fun h => absurd h hit⟩
  · intro i j d e p q h₁ h₂ hi hj hp hq
    -- the key at a place of the sorted range is the final power of the document there
    have hkey : ∀ (l : ℕ) (d : DocId) (p : F), (r.scan c.num.toNat).topPos ≤ l → a.vals[l]? = some d →
        FinalPower fl k r c d p → rankAt rank a.keys l = rank p := by
      intro l d p hl hd' hp
      obtain ⟨m, -, -, hmk, hmv⟩ := hw.inside l hl (hil l d hd')
      have hpk : (fused fl k r c)[m]? = some p := hp.at_place hd (hmv.symm.trans hd')
      rw [rankAt, hmk, fusedArrays, hpk]
      rfl
    have hle := ha i j h₁ h₂ (hil j e hj)
    rwa [hkey i d p h₁ hi hp, hkey j e q (by omega) hj hq] at hle

theorem getElem?_reverse_take {α : Type*} {l : List α} {m i : ℕ} {x : α}
    (h : (l.reverse.take m)[i]? = some x) : i < m ∧ i < l.length ∧ l[l.length - 1 - i]? = some x := by
  rw [List.getElem?_take] at h
  split at h
  next hm =>
    obtain ⟨hi, -⟩ := List.getElem?_eq_some_iff.mp h
    rw [List.length_reverse] at hi
    rw [List.getElem?_reverse hi] at h
    exact ⟨hm, hi, h⟩
  next => cases h

theorem not_pinned_of_nonneg (h : ∀ t ∈ r.time, 0 ≤ t) (d : DocId) : ¬ Pinned r d := by
  rintro ⟨j, t, -, ht, hneg⟩
  have := h t (List.mem_of_getElem? ht)
  omega

theorem pinned_of_neg (h : ∀ t ∈ r.time, t < 0) {d : DocId} (hd : d ∈ r.did) : Pinned r d := by
  obtain ⟨j, hj⟩ := List.mem_iff_getElem?.mp hd
  obtain ⟨t, ht⟩ := exists_time hj
  exact ⟨j, t, hj, ht, h t (List.mem_of_getElem? ht)⟩

/-- Of two places behind the pinned ones, the later one has no lower final power. -/
theorem SortedReply.not_lt {rank : F → ℤ} {did : List DocId} (hs : SortedReply fl k r c rank did)
    (hr : Ranks fl.lt rank (fused fl k r c)) {i j : ℕ} {d e : DocId} {p q : F} (hid : did[i]? = some d)
    (hje : did[j]? = some e) (hpin : ¬ Pinned r d) (hij : i < j) (hp : FinalPower fl k r c d p)
    (hq : FinalPower fl k r c e q) : fl.lt q p = false := by
  have htop : (r.scan c.num.toNat).topPos ≤ i := Nat.le_of_not_lt (mt (hs.pinned i d hid).mpr hpin)
  have hle := hs.ascending i j d e p q htop hij hid hje hp hq
  obtain ⟨a, -, ha⟩ := hp
  obtain ⟨b, -, hb⟩ := hq
  have hiff := hr q (List.mem_of_getElem? hb) p (List.mem_of_getElem? ha)
  rw [Bool.eq_false_iff]
  exact fun h => absurd (hiff.mp h) (Int.not_lt.mpr hle)

/-- The end of the sorted reply, read backwards. -/
theorem rankedList_of_sorted {rank : F → ℤ} {did : List DocId} (hs : SortedReply fl k r c rank did)
    (hd : r.did.Nodup) (hr : Ranks fl.lt rank (fused fl k r c)) {n : ℤ}
    (hnum : n = min k.cacheSavecount r.did.length) (hpos : 0 ≤ n)
    (hu : n = 0 ∨ (∀ t ∈ r.time, 0 ≤ t) ∨ ∀ t ∈ r.time, t < 0) :
    RankedList fl k r c (did.reverse.take n.toNat) n := by
  have hlen := hs.ids.length_eq
  have hnd := hs.ids.nodup_iff.mpr hd
  constructor
  · exact hnum
  · rw [List.length_take, List.length_reverse, hlen]
    omega
  · exact (List.nodup_reverse.mpr hnd).sublist (List.take_sublist _ _)
  · intro d hmem
    exact hs.ids.subset (List.mem_reverse.mp (List.mem_of_mem_take hmem))
  · intro i j d e hij hi hj hpin
    rcases hu with rfl | hu | hu
    · simp at hi
    · exact absurd hpin (not_pinned_of_nonneg hu e)
    · exact pinned_of_neg hu (hs.ids.subset (List.mem_of_getElem? (getElem?_reverse_take hi).2.2))
  · rintro ⟨d, hdm, hdp⟩ e he hep
    rcases hu with rfl | hu | hu
    · simp at hdm
    · exact absurd hep (not_pinned_of_nonneg hu e)
    · have hd' := hs.ids.subset (List.mem_reverse.mp (List.mem_of_mem_take hdm))
      exact absurd (pinned_of_neg hu hd') hdp
  · intro i j d e p q hij hi hj hdp hep hp hq
    obtain ⟨-, hil, hid⟩ := getElem?_reverse_take hi
    obtain ⟨-, hjl, hjd⟩ := getElem?_reverse_take hj
    exact hs.not_lt hr hjd hid hep (by omega) hq hp
  · intro d e p q hdm hem hnot hdp hep hp hq
    obtain ⟨i, hi⟩ := List.mem_iff_getElem?.mp hdm
    obtain ⟨him, hil, hid⟩ := getElem?_reverse_take hi
    obtain ⟨j, hj⟩ := List.mem_iff_getElem?.mp (hs.ids.mem_iff.mpr hem)
    obtain ⟨hjl, -⟩ := List.getElem?_eq_some_iff.mp hj
    -- a document that is left out stands before all that are taken
    have hjout : j < did.length - n.toNat := by
      by_contra hc
      refine hnot (List.mem_iff_getElem?.mpr ⟨did.length - 1 - j, ?_⟩)
      rw [List.getElem?_take, if_pos (by omega), List.getElem?_reverse (by omega), ← hj]
      congr 1
      omega
    exact hs.not_lt hr hj hid hep (by omega) hq hp

/-- A reply with pinned and other documents gives a list that starts with one that is
not pinned. -/
theorem not_ranked_of_mixed {rank : F → ℤ} {did : List DocId}
    (hs : SortedReply fl k r c rank did) {n : ℤ} (hpos : 0 < n) (hn : n ≤ r.did.length)
    {t u : ℤ} (ht : t ∈ r.time) (ht' : t < 0) (hu : u ∈ r.time) (hu' : 0 ≤ u) (hd : r.did.Nodup) :
    ¬ RankedList fl k r c (did.reverse.take n.toNat) n := by
  intro hl
  have hlen := hs.ids.length_eq
  -- the last place of the sorted reply, the first one of the list
  obtain ⟨d, hlast⟩ : ∃ d, did[did.length - 1]? = some d :=
    ⟨_, List.getElem?_eq_getElem (by omega)⟩
  have hfirst : (did.reverse.take n.toNat)[0]? = some d := by
    rw [List.getElem?_take, if_pos (by omega), List.getElem?_reverse (by omega)]
    exact hlast
  have hdoc : ∀ v ∈ r.time, ∃ e ∈ r.did, (Pinned r e ↔ v < 0) := by
    intro v hv
    obtain ⟨j, hj⟩ := List.mem_iff_getElem?.mp hv
    obtain ⟨hjl, -⟩ := List.getElem?_eq_some_iff.mp hj
    obtain ⟨e, he⟩ : ∃ e, r.did[j]? = some e :=
      ⟨_, List.getElem?_eq_getElem (by rwa [r.time_length] at hjl)⟩
    exact ⟨e, List.mem_of_getElem? he, pinned_iff_time hd he hj⟩
  obtain ⟨e, he, hep⟩ := hdoc t ht
  obtain ⟨f, hf, hfp⟩ := hdoc u hu
  have hlastnot : ¬ Pinned r d := by
    intro hp
    have hplace := (hs.pinned _ d hlast).mp hp
    obtain ⟨j, hj⟩ := List.mem_iff_getElem?.mp (hs.ids.mem_iff.mpr hf)
    obtain ⟨hjl, -⟩ := List.getElem?_eq_some_iff.mp hj
    have := hfp.mp ((hs.pinned j f hj).mpr (by omega))
    omega
  have hmem := hl.pinnedAll ⟨d, List.mem_of_getElem? hfirst, hlastnot⟩ e he (hep.mpr ht')
  obtain ⟨j, hj⟩ := List.mem_iff_getElem?.mp hmem
  rcases Nat.eq_zero_or_pos j with rfl | hjpos
  · cases hfirst.symm.trans hj
    exact hlastnot (hep.mpr ht')
  · exact hlastnot (hl.pinnedFirst 0 j d e hjpos hfirst hj (hep.mpr ht'))

/-- The list given to the cache is ranked exactly when it fits its array and the reply
does not mix pinned documents with others, unless nothing is saved. -/
theorem ranked_iff (hd : r.did.Nodup) (hpos : r.did ≠ []) (hn : c.num = r.did.length)
    (hc : c.pwr.length = r.did.length) (ho : ∃ rank, Ranks fl.lt rank (fused fl k r c)) :
    Ranked fl k r c ↔ Uniform k r := by
  obtain ⟨rank, hr⟩ := ho
  obtain ⟨did, hrank, hs⟩ := rank_sorted hd hpos hn hc hr
  have hlen := List.length_pos_iff.mpr hpos
  have hlist : refillList fl k r c = if min k.cacheSavecount r.did.length ≤ requestRoom then
      some (did.reverse.take (min k.cacheSavecount r.did.length).toNat,
        min k.cacheSavecount r.did.length) else none := by
    simp only [refillList, hrank, Option.bind_eq_bind, Option.bind_some, requestCount_eq_min,
      hs.ids.length_eq]
  constructor
  · rintro ⟨lst, n, heq, hl⟩
    rw [hlist] at heq
    split at heq
    next hroom =>
      cases heq
      have h₀ : 0 ≤ min k.cacheSavecount r.did.length := hl.length ▸ Int.natCast_nonneg _
      refine ⟨(le_min_iff.mp h₀).1, hroom, ?_⟩
      by_contra hmix
      push Not at hmix
      obtain ⟨hne, ⟨t, ht, ht'⟩, u, hu, hu'⟩ := hmix
      have hcount : 0 < min k.cacheSavecount r.did.length := by omega
      exact not_ranked_of_mixed hs hcount (min_le_right _ _) ht ht' hu hu' hd hl
    next => cases heq
  · rintro ⟨h₀, hroom, hu⟩
    refine ⟨_, _, hlist.trans (if_pos hroom), rankedList_of_sorted hs hd hr rfl (by omega) ?_⟩
    rcases hu with hu | hu
    · exact .inl (by omega)
    · exact .inr hu

end

theorem intFloats_ranks (keys : List ℤ) : Ranks CacheBounds.intFloats.lt id keys := by
  intro x _ y _
  exact decide_eq_true_iff

theorem ranked_iff_example :
    Ranked CacheBounds.intFloats CacheBounds.smallConfig.refill CacheBounds.twoDocs ⟨2, [3, 4]⟩ :=
  (ranked_iff (by decide) (by decide) rfl rfl ⟨id, intFloats_ranks _⟩).mpr
    ⟨by decide, by decide, .inr (.inl (by decide))⟩

/-- The pinned document comes last. -/
theorem pinnedLast_not_ranked :
    ¬ Ranked CacheBounds.intFloats CacheBounds.smallConfig.refill pinnedLast ⟨2, [10, 20]⟩ := by
  rintro ⟨lst, n, heq, hl⟩
  have hlist : refillList CacheBounds.intFloats CacheBounds.smallConfig.refill pinnedLast
      ⟨2, [10, 20]⟩ = some ([31, 32], 2) := by decide
  cases hlist.symm.trans heq
  have hpinned : Pinned pinnedLast 32 := ⟨1, -1, rfl, rfl, by decide⟩
  obtain ⟨j, t, hj, ht, hneg⟩ := hl.pinnedFirst 0 1 31 32 (by decide) rfl rfl hpinned
  match j with
  | 0 => cases ht; omega
  | 1 => exact absurd hj (by decide)

end PrimaryElection.Framework.Refill
