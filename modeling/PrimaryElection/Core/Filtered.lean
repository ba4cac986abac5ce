import PrimaryElection.Core.CandidateCount

/-! Which candidates of a response were filtered for the user. The normal news are
served only after a filter call whose status was accepted. The statuses of the
filter calls on the videos and on the regional news are not looked at. -/

namespace PrimaryElection.Core

open CInt

variable {κ : Type}

/-- The filter was called on the filled set with an accepted status. -/
def FilterAccepted (filtered : Option Status) : Prop := ∃ s, filtered = some s ∧ s.accepted

/-- Every entry of the response comes from a set with an accepted filter call. -/
def Response.AllFiltered (r : Response κ) : Prop := ∀ p ∈ r.served, FilterAccepted (r.filtered p.1)

/-- The filter call, if made, was accepted, or the options and the size of the set
it left allow no entry to be taken. -/
def Filled.Harmless (f : Filled κ) (maxSize : I32) : Prop :=
  (∀ s, f.filtered = some s → s.accepted) ∨ toInt32 f.set.length ≤ 0 ∨ maxSize.val ≤ 0

/-! ### The sets -/

def Filled.Proper (f : Filled κ) : Prop := f.filtered = none → f.set = []

theorem filterSet_proper (t : Tables κ) (site : Site) (userId : UInt64) (set : List κ) :
    (filterSet t site userId set).Proper := by
  intro h
  unfold filterSet at h ⊢
  split_ifs at h ⊢ with hl
  exact List.length_eq_zero_iff.mp (by simpa using hl)

theorem videoSet_proper (g : Glue κ) (t : Tables κ) (recmd : Recommend) (query : Query) :
    (videoSet g t recmd query).Proper := by
  unfold videoSet
  split_ifs
  · exact filterSet_proper _ _ _ _
  · exact fun _ => rfl

theorem regionSet_proper (g : Glue κ) (t : Tables κ) (recmd : Recommend) (query : Query) :
    (regionSet g t recmd query).Proper := by
  unfold regionSet
  dsimp only
  split
  · split
    · exact filterSet_proper _ _ _ _
    · exact fun _ => rfl
  · exact fun _ => rfl

/-- A normal set that the query goes on with is filtered with an accepted status. -/
theorem normalSet_filtered {g : Glue κ} {t : Tables κ} {recmd : Recommend} {query : Query}
    {f : Filled κ} (h : normalSet g t recmd query = .ok f) :
    f.Proper ∧ ∀ s, f.filtered = some s → s.accepted := by
  unfold normalSet at h
  dsimp only at h
  split_ifs at h
  split at h
  next s hs =>
    split_ifs at h with ha
    cases h
    refine ⟨filterSet_proper _ _ _ _, fun s' hs' => ?_⟩
    rw [hs] at hs'
    cases hs'
    exact ha
  next hs =>
    cases h
    refine ⟨filterSet_proper _ _ _ _, fun s' hs' => ?_⟩
    rw [hs] at hs'
    cases hs'

theorem totalCapped_pos_iff (recmd : Recommend) (maxSize : I32) (size : ℕ) :
    0 < totalCapped recmd maxSize size ↔ 0 < toInt32 size ∧ 0 < maxSize.val := by
  unfold totalCapped capRequest
  dsimp only
  split_ifs <;> omega

/-- The entries taken from a set are filtered exactly when its filter call was
accepted or none is taken. -/
theorem taken_filtered_iff {f : Filled κ} (hf : f.Proper) (k : ℤ) :
    (∀ c ∈ f.set.take k.toNat, FilterAccepted f.filtered) ↔
      (∀ s, f.filtered = some s → s.accepted) ∨ f.set = [] ∨ k ≤ 0 := by
  cases hs : f.filtered with
  | none =>
    have he : f.set = [] := hf hs
    simp [he]
  | some s =>
    constructor
    · intro h
      by_cases hn : f.set = [] ∨ k ≤ 0
      · exact .inr hn
      · push Not at hn
        obtain ⟨c, hc⟩ := List.exists_mem_of_ne_nil (f.set.take k.toNat) (by
          rw [Ne, List.take_eq_nil_iff]
          push Not
          exact ⟨by omega, hn.1⟩)
        obtain ⟨s', hs', ha⟩ := h c hc
        cases hs'
        exact .inl fun _ h => by cases h; exact ha
    · rintro (h | h | h)
      · exact fun c _ => ⟨s, rfl, h s rfl⟩
      · simp [h]
      · have hz : k.toNat = 0 := by omega
        simp [hz]

theorem capped_filtered_iff {f : Filled κ} (hf : f.Proper) (recmd : Recommend) (maxSize : I32) :
    (∀ c ∈ f.set.take (totalCapped recmd maxSize f.set.length).toNat, FilterAccepted f.filtered) ↔
      f.Harmless maxSize := by
  have hpos := totalCapped_pos_iff recmd maxSize f.set.length
  have hempty : f.set = [] → toInt32 f.set.length ≤ 0 := by
    intro he
    simp [he, toInt32]
  rw [taken_filtered_iff hf, Filled.Harmless]
  constructor
  · rintro (h | h | h)
    · exact .inl h
    · exact .inr (.inl (hempty h))
    · by_cases hm : maxSize.val ≤ 0
      · exact .inr (.inr hm)
      · exact .inr (.inl (by omega))
  · rintro (h | h | h)
    · exact .inl h
    · exact .inr (.inr (by omega))
    · exact .inr (.inr (by omega))

/-! ### The responses -/

theorem mem_takeSubscribed {g : Glue κ} {total : ℤ} {i : ℕ} {cs : List κ} {c : κ}
    (h : c ∈ takeSubscribed g total i cs) : c ∈ cs := by
  induction cs generalizing i with
  | nil => exact h
  | cons d cs ih =>
    rw [takeSubscribed] at h
    split_ifs at h
    · rcases List.mem_cons.mp h with rfl | h
      · exact List.mem_cons_self
      · exact List.mem_cons_of_mem _ (ih h)
    · exact List.mem_cons_of_mem _ (ih h)
    · cases h

/-- A subscription query serves filtered candidates only. -/
theorem subscription_filtered {g : Glue κ} {t : Tables κ} {o : ModelOptions} {recmd : Recommend}
    {query : Query} {cset : CandidateSet}
    (hok : (querySubscriptionCandidateSet g t o recmd query cset).status = .ok) :
    (querySubscriptionCandidateSet g t o recmd query cset).AllFiltered := by
  obtain ⟨normal, ids, hn, -, heq⟩ := subscription_ok hok
  obtain ⟨hproper, hacc⟩ := normalSet_filtered hn
  rw [heq]
  intro p hp
  obtain ⟨c, hc, rfl⟩ := List.mem_map.mp hp
  cases hf : normal.filtered with
  | none =>
    have hmem := mem_takeSubscribed hc
    rw [hproper hf] at hmem
    cases hmem
  | some s => exact ⟨s, by simp, hacc s hf⟩

/-- A recommendation serves filtered candidates only exactly when the calls on its
videos and regional news do no harm. -/
theorem recommendation_filtered_iff {g : Glue κ} {t : Tables κ} {o : ModelOptions}
    {recmd : Recommend} {query : Query} {cset : CandidateSet}
    (hok : (queryRecommendationCandidateSet g t o recmd query cset).status = .ok) :
    (queryRecommendationCandidateSet g t o recmd query cset).AllFiltered ↔
      (videoSet g t recmd query).Harmless o.maxCandidateVideoSize ∧
        (regionSet g t recmd query).Harmless o.maxCandidateRegionSize := by
  obtain ⟨normal, ids, hn, -, heq⟩ := recommendation_ok hok
  obtain ⟨hproper, hacc⟩ := normalSet_filtered hn
  have hnormal : ∀ k : ℤ, ∀ c ∈ normal.set.take k.toNat, FilterAccepted normal.filtered :=
    fun k => (taken_filtered_iff hproper k).mpr (.inl hacc)
  rw [heq]
  simp only [Response.AllFiltered, mixSets, List.forall_mem_append, List.forall_mem_map]
  rw [capped_filtered_iff (videoSet_proper g t recmd query),
    capped_filtered_iff (regionSet_proper g t recmd query)]
  exact and_iff_left (hnormal _)

/-- The items of a successful response are those of the candidates served, and all of
these were filtered exactly when the request is for subscriptions or the filter calls
on videos and regional news do no harm. -/
theorem response_filtered_iff {g : Glue κ} (hg : g.Appends) (t : Tables κ) (o : ModelOptions)
    (now : ℤ) (recmd : Recommend) (cset : CandidateSet)
    (hok : (queryCandidateSet g t o now recmd cset).status = .ok) :
    (queryCandidateSet g t o now recmd cset).cset.itemId =
        cset.itemId ++ (queryCandidateSet g t o now recmd cset).served.map (fun p => g.itemId p.2) ∧
      ((queryCandidateSet g t o now recmd cset).AllFiltered ↔
        o.serviceType.val ≠ 0 ∨
          (videoSet g t recmd (timedQuery g o now recmd)).Harmless o.maxCandidateVideoSize ∧
            (regionSet g t recmd (timedQuery g o now recmd)).Harmless o.maxCandidateRegionSize) := by
  unfold queryCandidateSet at hok ⊢
  by_cases hs : o.serviceType.val ≠ 0
  · simp only [if_pos hs] at hok ⊢
    obtain ⟨normal, ids, -, -, heq⟩ := subscription_ok hok
    refine ⟨?_, iff_of_true (subscription_filtered hok) (.inl hs)⟩
    rw [heq]
    exact respond_itemId hg _ _
  · simp only [if_neg hs] at hok ⊢
    obtain ⟨normal, ids, -, -, heq⟩ := recommendation_ok hok
    refine ⟨?_, (recommendation_filtered_iff hok).trans (or_iff_right hs).symm⟩
    rw [heq]
    exact respond_itemId hg _ _

def failingFilter : Tables UInt64 where
  queryCandidateSet := videoTables.queryCandidateSet
  filterCandidateSet site userId set :=
    if site = .video then (.ioError, set) else videoTables.filterCandidateSet site userId set
  queryHistory := videoTables.queryHistory

theorem response_filtered_default :
    (queryCandidateSet idGlue videoTables (.default ⟨i32 3⟩) 1000 wifiRequest .empty).cset.itemId =
        [] ++ (queryCandidateSet idGlue videoTables (.default ⟨i32 3⟩) 1000 wifiRequest
          .empty).served.map (fun p => p.2) ∧
      (queryCandidateSet idGlue videoTables (.default ⟨i32 3⟩) 1000 wifiRequest
        .empty).AllFiltered := by
  have h := response_filtered_iff idGlue_appends videoTables (.default ⟨i32 3⟩) 1000
    wifiRequest .empty rfl
  refine ⟨h.1, h.2.mpr (.inr ⟨.inl ?_, .inr (.inl (by decide))⟩)⟩
  rintro s hs
  cases hs
  rfl

/-- The filter call on the videos returns an I/O error and the three videos are served. -/
theorem unfiltered_videos_served :
    (queryCandidateSet idGlue failingFilter (.default ⟨i32 3⟩) 1000 wifiRequest
        .empty).status = .ok ∧
      (queryCandidateSet idGlue failingFilter (.default ⟨i32 3⟩) 1000 wifiRequest
        .empty).filtered .video = some .ioError ∧
      (Site.video, 11) ∈ (queryCandidateSet idGlue failingFilter (.default ⟨i32 3⟩) 1000
        wifiRequest .empty).served ∧
      ¬ (queryCandidateSet idGlue failingFilter (.default ⟨i32 3⟩) 1000 wifiRequest
        .empty).AllFiltered := by
  have hmem : (Site.video, (11 : UInt64)) ∈ (queryCandidateSet idGlue failingFilter
      (.default ⟨i32 3⟩) 1000 wifiRequest .empty).served := by decide
  refine ⟨rfl, rfl, hmem, fun h => ?_⟩
  obtain ⟨s, hs, ha⟩ := h _ hmem
  cases hs
  exact absurd ha (by decide)

end PrimaryElection.Core
