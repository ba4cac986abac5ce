import PrimaryElection.Core.Composition

/-! What a subscription response holds. The loop runs over all normal news and counts
those it keeps, so it serves the leading entries of the subscribed ones. Its bound
comes from the size of the unfiltered set as an `int`, which is at least the number
of entries to serve unless the set has 2^31 entries or more. -/

namespace PrimaryElection.Core

open CInt

variable {κ : Type}

/-- With `i` candidates copied, the loop takes the next subscribed ones. -/
theorem takeSubscribed_eq (g : Glue κ) (total : ℤ) (i : ℕ) (cs : List κ) :
    takeSubscribed g total i cs = (cs.filter (isSubscribed g)).take (total - i).toNat := by
  induction cs generalizing i with
  | nil => simp [takeSubscribed]
  | cons c cs ih =>
    rw [takeSubscribed]
    by_cases hi : (i : ℤ) < total
    · rw [if_pos hi]
      by_cases hc : isSubscribed g c
      · have hsucc : (total - i).toNat = (total - (i + 1 : ℕ)).toNat + 1 := by omega
        rw [if_pos hc, ih, List.filter_cons_of_pos hc, hsucc, List.take_succ_cons]
      · rw [if_neg hc, ih, List.filter_cons_of_neg hc]
    · have hzero : (total - i).toNat = 0 := by omega
      rw [if_neg hi, hzero, List.take_zero]

def leading (g : Glue κ) (o : ModelOptions) (recmd : Recommend) (normal : List κ) : List κ :=
  (normal.filter (isSubscribed g)).take
    (share recmd o.maxCandidateSetSize.val (normal.filter (isSubscribed g)).length).toNat

/-- The response holds the leading subscribed candidates, one entry in each array. -/
structure Response.Leading (g : Glue κ) (describes : κ → Row → Prop) (o : ModelOptions)
    (recmd : Recommend) (normal : List κ) (r : Response κ) : Prop where
  served : r.served = (leading g o recmd normal).map (Site.normal, ·)
  arrays : r.cset.Describes describes (leading g o recmd normal)

/-- The size of the whole set as an `int` reaches what is to be served of it. -/
def ReachesLeading (g : Glue κ) (o : ModelOptions) (recmd : Recommend) (normal : List κ) : Prop :=
  share recmd o.maxCandidateSetSize.val (normal.filter (isSubscribed g)).length ≤
    max 0 (toInt32 normal.length)

theorem reachesLeading_of_short (g : Glue κ) (o : ModelOptions) (recmd : Recommend)
    {normal : List κ} (h : normal.length < 2147483648) : ReachesLeading g o recmd normal := by
  have hs := (share_le recmd o.maxCandidateSetSize.val
    (normal.filter (isSubscribed g)).length).1
  have hf := List.length_filter_le (isSubscribed g) normal
  have hi : toInt32 normal.length = normal.length := toInt32_eq (by omega) (by omega)
  unfold ReachesLeading
  omega

/-- What is served once both the normal news and the history are there. -/
theorem subscription_served {g : Glue κ} {t : Tables κ} {o : ModelOptions} {recmd : Recommend}
    {query : Query} {cset : CandidateSet} {normal : Filled κ} {ids : List UInt64}
    (hn : normalSet g t recmd query = .ok normal) (hh : history t recmd = .ok ids) :
    (querySubscriptionCandidateSet g t o recmd query cset).status = .ok ∧
      (querySubscriptionCandidateSet g t o recmd query cset).served =
        (takeSubscribed g (totalSubscribed o recmd normal.set.length) 0 normal.set).map
          (Site.normal, ·) := by
  unfold querySubscriptionCandidateSet
  rw [hn, hh]
  exact ⟨rfl, rfl⟩

theorem takeSubscribed_leading_iff (g : Glue κ) {o : ModelOptions} (recmd : Recommend)
    (hmax : 0 ≤ o.maxCandidateSetSize.val) (normal : List κ) :
    takeSubscribed g (totalSubscribed o recmd normal.length) 0 normal =
        leading g o recmd normal ↔ ReachesLeading g o recmd normal := by
  have hcap := capOf_nonneg recmd hmax
  rw [takeSubscribed_eq, leading, totalSubscribed, totalCapped_eq, List.take_eq_take_iff]
  unfold ReachesLeading share
  generalize capOf recmd o.maxCandidateSetSize.val = cap at hcap ⊢
  generalize toInt32 normal.length = size
  generalize (normal.filter (isSubscribed g)).length = kept
  constructor
  · intro h
    omega
  · intro h
    omega

/-- A subscription query into an empty response serves subscribed candidates only, and
exactly the leading ones that the limits allow if and only if the size of the set
reaches their number. -/
theorem subscription_leading_iff {g : Glue κ} {describes : κ → Row → Prop}
    (hg : g.AppendsRow describes) (t : Tables κ) {o : ModelOptions}
    (hmax : 0 ≤ o.maxCandidateSetSize.val) (recmd : Recommend) (query : Query)
    (hok : (querySubscriptionCandidateSet g t o recmd query .empty).status = .ok) :
    ∃ normal, normalSet g t recmd query = .ok normal ∧
      (∀ p ∈ (querySubscriptionCandidateSet g t o recmd query .empty).served,
        g.candidateType p.2 = .top ∨ g.candidateType p.2 = .partialTop ∨
          g.candidateType p.2 = .subscribe) ∧
      ((querySubscriptionCandidateSet g t o recmd query .empty).Leading g describes o recmd
        normal.set ↔ ReachesLeading g o recmd normal.set) := by
  obtain ⟨normal, ids, hn, -, heq⟩ := subscription_ok hok
  have hlead := takeSubscribed_leading_iff g recmd hmax normal.set
  have hdesc := respond_describes hg ((takeSubscribed g
    (totalSubscribed o recmd normal.set.length) 0 normal.set).map (Site.normal, ·))
    (setBase_holds recmd ids)
  have hsnd : ∀ cs : List κ, (cs.map (Site.normal, ·)).map Prod.snd = cs := fun cs => by simp
  rw [hsnd] at hdesc
  refine ⟨normal, hn, ?_, ?_⟩
  · rw [heq]
    intro p hp
    obtain ⟨c, hc, rfl⟩ := List.mem_map.mp hp
    rw [takeSubscribed_eq] at hc
    have hsub := (List.mem_filter.mp (List.mem_of_mem_take hc)).2
    simpa [isSubscribed] using hsub
  · rw [heq]
    constructor
    · intro h
      have hmap := congrArg (List.map Prod.snd) h.served
      rw [hsnd, hsnd] at hmap
      exact hlead.mp hmap
    · intro h
      have hserved := hlead.mpr h
      rw [hserved] at hdesc
      exact ⟨by rw [hserved], by rw [hserved]; exact hdesc⟩

/-! ### Fixed inputs -/

theorem subscription_leading_default : ∃ normal,
    normalSet rowGlue videoTables wifiRequest ⟨.normal, 0, 0, 0⟩ = .ok normal ∧
      (∀ p ∈ (querySubscriptionCandidateSet rowGlue videoTables (.default ⟨i32 3⟩) wifiRequest
          ⟨.normal, 0, 0, 0⟩ .empty).served,
        rowGlue.candidateType p.2 = .top ∨ rowGlue.candidateType p.2 = .partialTop ∨
          rowGlue.candidateType p.2 = .subscribe) ∧
      ((querySubscriptionCandidateSet rowGlue videoTables (.default ⟨i32 3⟩) wifiRequest
          ⟨.normal, 0, 0, 0⟩ .empty).Leading rowGlue (fun c row => row.itemId = c)
          (.default ⟨i32 3⟩) wifiRequest normal.set ↔
        ReachesLeading rowGlue (.default ⟨i32 3⟩) wifiRequest normal.set) :=
  subscription_leading_iff rowGlue_appendsRow videoTables (by decide) wifiRequest
    ⟨.normal, 0, 0, 0⟩ rfl

def manyNews : List UInt64 := List.replicate 4294967296 12

theorem manyNews_length : manyNews.length = 4294967296 := List.length_replicate

theorem manyNews_subscribed : manyNews.filter (isSubscribed rowGlue) = manyNews :=
  List.filter_replicate_of_pos (by decide)

theorem manyNews_none : takeSubscribed rowGlue (totalSubscribed (.default ⟨i32 3⟩) wifiRequest
    manyNews.length) 0 manyNews = [] := by
  have htotal : totalSubscribed (.default ⟨i32 3⟩) wifiRequest manyNews.length = 0 := by
    rw [manyNews_length]
    decide
  rw [htotal, takeSubscribed_eq]
  exact List.take_zero

def manyTables : Tables UInt64 where
  queryCandidateSet _ _ set := (.ok, set ++ manyNews)
  filterCandidateSet _ _ set := (.ok, set)
  queryHistory _ := (.notFound, [])

theorem manyTables_normal : normalSet rowGlue manyTables wifiRequest ⟨.normal, 0, 0, 0⟩ =
    .ok ⟨manyNews, some .ok⟩ := by
  have hpos : 0 < manyNews.length := by
    rw [manyNews_length]
    norm_num
  have hset : filterSet manyTables .normal wifiRequest.userId manyNews =
      ⟨manyNews, some .ok⟩ := if_pos hpos
  have hquery : manyTables.queryCandidateSet .normal ⟨.normal, 0, 0, 0⟩ [] = (.ok, manyNews) :=
    congrArg (Status.ok, ·) (List.nil_append manyNews)
  have hkind : rowGlue.kInvalidRegionID = 0 := rfl
  simp only [normalSet, hkind, hquery, hset]
  rfl

/-- The size 2^32 is 0 as an `int`: nothing is served, where 5000 should be. -/
theorem long_subscription_empty :
    normalSet rowGlue manyTables wifiRequest ⟨.normal, 0, 0, 0⟩ = .ok ⟨manyNews, some .ok⟩ ∧
      (querySubscriptionCandidateSet rowGlue manyTables (.default ⟨i32 3⟩) wifiRequest
        ⟨.normal, 0, 0, 0⟩ .empty).status = .ok ∧
      (querySubscriptionCandidateSet rowGlue manyTables (.default ⟨i32 3⟩) wifiRequest
        ⟨.normal, 0, 0, 0⟩ .empty).served = [] ∧
      (leading rowGlue (.default ⟨i32 3⟩) wifiRequest manyNews).length = 5000 ∧
      ¬ (querySubscriptionCandidateSet rowGlue manyTables (.default ⟨i32 3⟩) wifiRequest
        ⟨.normal, 0, 0, 0⟩ .empty).Leading rowGlue (fun c row => row.itemId = c)
        (.default ⟨i32 3⟩) wifiRequest manyNews := by
  have hhistory : history manyTables wifiRequest = .ok [] := rfl
  obtain ⟨hstatus, hrun⟩ : (querySubscriptionCandidateSet rowGlue manyTables (.default ⟨i32 3⟩)
      wifiRequest ⟨.normal, 0, 0, 0⟩ .empty).status = .ok ∧ _ :=
    subscription_served manyTables_normal hhistory
  have hserved := hrun.trans (congrArg (List.map (Site.normal, ·)) manyNews_none)
  have hshare : share wifiRequest (ModelOptions.default ⟨i32 3⟩).maxCandidateSetSize.val
      4294967296 = 5000 := by decide
  have hlen : (leading rowGlue (.default ⟨i32 3⟩) wifiRequest manyNews).length = 5000 := by
    rw [leading, manyNews_subscribed, List.length_take, manyNews_length, hshare]
    rfl
  refine ⟨manyTables_normal, hstatus, hserved, hlen, fun h => ?_⟩
  have hmap := congrArg List.length (hserved.symm.trans h.served)
  rw [List.length_map, List.length_map, hlen] at hmap
  cases hmap

end PrimaryElection.Core
