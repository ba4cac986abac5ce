import PrimaryElection.Core.ModelOptions

/-! Queries of the candidate database, candidate_db.cpp. The item table, the user
table and the conversions to protocol messages lie outside this repository and
are parameters; a table answers each call on its own, so that two calls of one
query may differ in any way. Weights are rationals. The response remembers which
call each of its entries comes from. -/

namespace PrimaryElection.Core

open CInt

inductive ItemType where
  | normal
  | video
  | region
  deriving DecidableEq

inductive CandidateType where
  | top
  | partialTop
  | subscribe
  | other (code : ℕ)
  deriving DecidableEq

inductive Network where
  | wifi
  | other (code : ℕ)
  deriving DecidableEq

/-- The members of a request that the queries read. -/
structure Recommend where
  userId : UInt64
  begTime : ℤ
  recommendNum : I32
  network : Network
  zone : List UInt8
  deriving DecidableEq

/-- The members of `query_t` that the queries set. -/
structure Query where
  itemType : ItemType
  regionId : UInt64
  startTime : ℤ
  endTime : ℤ
  deriving DecidableEq

structure CandidateSet where
  userId : UInt64
  historyId : List UInt64
  itemId : List UInt64
  power : List ℚ
  publishTime : List ℤ
  categoryId : List ℤ
  pictureNum : List ℤ
  type : List ℤ
  deriving DecidableEq

def CandidateSet.empty : CandidateSet := ⟨0, [], [], [], [], [], [], []⟩

/-- The conversions of namespace glue, for candidates of type `κ`. -/
structure Glue (κ : Type) where
  structedQuery : Recommend → Query
  zoneToRegionId : List UInt8 → ℤ × UInt64 × UInt64
  kInvalidRegionID : UInt64
  candidateType : κ → CandidateType
  itemId : κ → UInt64
  copyToProto : κ → CandidateSet → CandidateSet
  remedyCandidateWeight : κ → CandidateSet → CandidateSet

/-- The calls that fill or filter a candidate set. -/
inductive Site where
  | normal
  | video
  | region
  | province
  deriving DecidableEq

/-- What the tables answer: a query fills the set it is given, a filter rewrites it. -/
structure Tables (κ : Type) where
  queryCandidateSet : Site → Query → List κ → Status × List κ
  filterCandidateSet : Site → UInt64 → List κ → Status × List κ
  queryHistory : UInt64 → Status × List UInt64

/-- A candidate set after its last fill and, if it was then filtered, the status
of that call. -/
structure Filled (κ : Type) where
  set : List κ
  filtered : Option Status

/-- Entries of a response by the set they were copied from, and the status of the
filter call on each set. -/
structure Response (κ : Type) where
  status : Status
  cset : CandidateSet
  served : List (Site × κ)
  filtered : Site → Option Status

variable {κ : Type}

/-! ### Fetching the sets -/

def filterSet (t : Tables κ) (site : Site) (userId : UInt64) (set : List κ) : Filled κ :=
  if 0 < set.length then
    ⟨(t.filterCandidateSet site userId set).2, some (t.filterCandidateSet site userId set).1⟩
  else ⟨set, none⟩

/-- The statuses that the code accepts from the user table. -/
def Status.accepted (s : Status) : Bool := s = .ok ∨ s = .notFound

def normalSet (g : Glue κ) (t : Tables κ) (recmd : Recommend) (query : Query) :
    Except Status (Filled κ) :=
  let q := t.queryCandidateSet .normal
    { query with regionId := g.kInvalidRegionID, itemType := .normal } []
  if q.1 ≠ .ok then .error q.1
  else
    let f := filterSet t .normal recmd.userId q.2
    match f.filtered with
    | some s => if s.accepted then .ok f else .error s
    | none => .ok f

/-- The videos, for clients on wifi only. -/
def videoSet (g : Glue κ) (t : Tables κ) (recmd : Recommend) (query : Query) : Filled κ :=
  if recmd.network = .wifi then
    filterSet t .video recmd.userId (t.queryCandidateSet .video
      { query with regionId := g.kInvalidRegionID, itemType := .video } []).2
  else ⟨[], none⟩

/-- The news of the city or, if it has none, of the province. -/
def regionSet (g : Glue κ) (t : Tables κ) (recmd : Recommend) (query : Query) : Filled κ :=
  if recmd.zone.length > 0 then
    let (regionNum, city, province) := g.zoneToRegionId recmd.zone
    if regionNum > 0 then
      let query := { query with itemType := .region }
      let set := (t.queryCandidateSet .region { query with regionId := city } []).2
      let set :=
        if regionNum > 1 ∧ set.length = 0 ∧ city ≠ province then
          (t.queryCandidateSet .province { query with regionId := province } set).2
        else set
      filterSet t .region recmd.userId set
    else ⟨[], none⟩
  else ⟨[], none⟩

def history (t : Tables κ) (recmd : Recommend) : Except Status (List UInt64) :=
  let h := t.queryHistory recmd.userId
  if h.1.accepted then .ok h.2 else .error h.1

/-! ### Composing the response -/

def setBase (recmd : Recommend) (history : List UInt64) (cset : CandidateSet) : CandidateSet :=
  { cset with historyId := cset.historyId ++ history, userId := recmd.userId }

/-- Copy one candidate; the last weight is summed unless it is the sentinel. -/
def copyOne (g : Glue κ) (a : CandidateSet × ℚ) (c : κ) : CandidateSet × ℚ :=
  let cset := g.remedyCandidateWeight c (g.copyToProto c a.1)
  let power := cset.power.getLastD 0
  (cset, if power ≠ -100000 then a.2 + power else a.2)

def copyAll (g : Glue κ) (cs : List κ) (a : CandidateSet × ℚ) : CandidateSet × ℚ :=
  cs.foldl (copyOne g) a

def normalize (totalWeight : ℚ) (cset : CandidateSet) : CandidateSet :=
  let w := if totalWeight ≤ 0 then 1 else totalWeight
  { cset with power := cset.power.map fun p => if p = -100000 then p else p / w }

/-- The `int` of a set's size after the cap by `recommend_num`. -/
def capRequest (recmd : Recommend) (total : ℤ) : ℤ :=
  if recmd.recommendNum.val > 0 ∧ total > recmd.recommendNum.val then recmd.recommendNum.val else total

/-- `total_video` and `total_region`. -/
def totalCapped (recmd : Recommend) (maxSize : I32) (size : ℕ) : ℤ :=
  let total := capRequest recmd (toInt32 size)
  if total > maxSize.val then maxSize.val else total

/-- What `max_candidate_set_size` leaves for the normal news. -/
def remainder (o : ModelOptions) (recmd : Recommend) (videoSize regionSize : ℕ) : ℤ :=
  capRequest recmd (toInt32 (o.maxCandidateSetSize.val -
    totalCapped recmd o.maxCandidateRegionSize regionSize -
    totalCapped recmd o.maxCandidateVideoSize videoSize))

/-- `total_normal`; the size of the set is compared with it as a `size_t`. -/
def totalNormal (o : ModelOptions) (recmd : Recommend) (videoSize regionSize normalSize : ℕ) : ℤ :=
  let total := remainder o recmd videoSize regionSize
  if normalSize < toSize total then toInt32 normalSize else total

/-- The candidates that the three loops copy, in order. -/
def mixSets (o : ModelOptions) (recmd : Recommend) (video region normal : List κ) :
    List (Site × κ) :=
  ((video.take (totalCapped recmd o.maxCandidateVideoSize video.length).toNat).map (.video, ·)) ++
  ((region.take (totalCapped recmd o.maxCandidateRegionSize region.length).toNat).map (.region, ·)) ++
  (normal.take (totalNormal o recmd video.length region.length normal.length).toNat).map (.normal, ·)

def isSubscribed (g : Glue κ) (c : κ) : Bool :=
  g.candidateType c = .top ∨ g.candidateType c = .partialTop ∨ g.candidateType c = .subscribe

/-- The loop over the normal set: `i` candidates are copied so far. -/
def takeSubscribed (g : Glue κ) (total : ℤ) : ℕ → List κ → List κ
  | _, [] => []
  | i, c :: cs =>
    if (i : ℤ) < total then
      if isSubscribed g c then c :: takeSubscribed g total (i + 1) cs else takeSubscribed g total i cs
    else []

def totalSubscribed (o : ModelOptions) (recmd : Recommend) (size : ℕ) : ℤ :=
  totalCapped recmd o.maxCandidateSetSize size

def respond (g : Glue κ) (served : List (Site × κ)) (cset : CandidateSet) : CandidateSet :=
  let a := copyAll g (served.map Prod.snd) (cset, 0)
  normalize a.2 a.1

/-! ### The queries -/

/-- A query that fails before it touches the response. -/
def Response.failed (s : Status) (cset : CandidateSet) : Response κ := ⟨s, cset, [], fun _ => none⟩

def querySubscriptionCandidateSet (g : Glue κ) (t : Tables κ) (o : ModelOptions)
    (recmd : Recommend) (query : Query) (cset : CandidateSet) : Response κ :=
  match normalSet g t recmd query with
  | .error s => .failed s cset
  | .ok normal =>
    match history t recmd with
    | .error s => .failed s cset
    | .ok ids =>
      let served := (takeSubscribed g (totalSubscribed o recmd normal.set.length) 0 normal.set).map
        (Site.normal, ·)
      { status := .ok
        cset := respond g served (setBase recmd ids cset)
        served := served
        filtered := fun site => if site = .normal then normal.filtered else none }

def queryRecommendationCandidateSet (g : Glue κ) (t : Tables κ) (o : ModelOptions)
    (recmd : Recommend) (query : Query) (cset : CandidateSet) : Response κ :=
  match normalSet g t recmd query with
  | .error s => .failed s cset
  | .ok normal =>
    let video := videoSet g t recmd query
    let region := regionSet g t recmd query
    match history t recmd with
    | .error s => .failed s cset
    | .ok ids =>
      let served := mixSets o recmd video.set region.set normal.set
      { status := .ok
        cset := respond g served (setBase recmd ids cset)
        served := served
        filtered := fun site => match site with
          | .normal => normal.filtered
          | .video => video.filtered
          | .region => region.filtered
          | .province => none }

/-- The query of a request; `now` is the clock for requests without a time. -/
def timedQuery (g : Glue κ) (o : ModelOptions) (now : ℤ) (recmd : Recommend) : Query :=
  let endTime := if recmd.begTime ≤ 0 then now else recmd.begTime
  { g.structedQuery recmd with
    endTime := endTime
    startTime := endTime - o.intervalRecommendation.val }

def queryCandidateSet (g : Glue κ) (t : Tables κ) (o : ModelOptions) (now : ℤ)
    (recmd : Recommend) (cset : CandidateSet) : Response κ :=
  if o.serviceType.val ≠ 0 then
    querySubscriptionCandidateSet g t o recmd (timedQuery g o now recmd) cset
  else queryRecommendationCandidateSet g t o recmd (timedQuery g o now recmd) cset

/-! ### Successful queries -/

theorem normalSet_error {g : Glue κ} {t : Tables κ} {recmd : Recommend} {query : Query} {s : Status}
    (h : normalSet g t recmd query = .error s) : s ≠ .ok := by
  rintro rfl
  unfold normalSet at h
  dsimp only at h
  split_ifs at h with hq
  · exact hq (Except.error.inj h)
  · split at h
    · split_ifs at h with ha
      cases h
      exact ha rfl
    · cases h

theorem history_error {t : Tables κ} {recmd : Recommend} {s : Status}
    (h : history t recmd = .error s) : s ≠ .ok := by
  rintro rfl
  unfold history at h
  dsimp only at h
  split_ifs at h with ha
  rw [Except.error.inj h] at ha
  exact ha rfl

theorem recommendation_ok {g : Glue κ} {t : Tables κ} {o : ModelOptions} {recmd : Recommend}
    {query : Query} {cset : CandidateSet}
    (h : (queryRecommendationCandidateSet g t o recmd query cset).status = .ok) :
    ∃ normal ids, normalSet g t recmd query = .ok normal ∧ history t recmd = .ok ids ∧
      queryRecommendationCandidateSet g t o recmd query cset =
        { status := .ok
          cset := respond g (mixSets o recmd (videoSet g t recmd query).set
            (regionSet g t recmd query).set normal.set) (setBase recmd ids cset)
          served := mixSets o recmd (videoSet g t recmd query).set
            (regionSet g t recmd query).set normal.set
          filtered := fun site => match site with
            | .normal => normal.filtered
            | .video => (videoSet g t recmd query).filtered
            | .region => (regionSet g t recmd query).filtered
            | .province => none } := by
  unfold queryRecommendationCandidateSet at h ⊢
  cases hn : normalSet g t recmd query with
  | error s =>
    simp only [hn] at h
    exact absurd h (normalSet_error hn)
  | ok normal =>
    cases hh : history t recmd with
    | error s =>
      simp only [hn, hh] at h
      exact absurd h (history_error hh)
    | ok ids => exact ⟨normal, ids, rfl, rfl, rfl⟩

/-- A subscription query that succeeds serves the leading subscribed candidates of
the normal set. -/
theorem subscription_ok {g : Glue κ} {t : Tables κ} {o : ModelOptions} {recmd : Recommend}
    {query : Query} {cset : CandidateSet}
    (h : (querySubscriptionCandidateSet g t o recmd query cset).status = .ok) :
    ∃ normal ids, normalSet g t recmd query = .ok normal ∧ history t recmd = .ok ids ∧
      querySubscriptionCandidateSet g t o recmd query cset =
        { status := .ok
          cset := respond g ((takeSubscribed g (totalSubscribed o recmd normal.set.length) 0
            normal.set).map (Site.normal, ·)) (setBase recmd ids cset)
          served := (takeSubscribed g (totalSubscribed o recmd normal.set.length) 0
            normal.set).map (Site.normal, ·)
          filtered := fun site => if site = .normal then normal.filtered else none } := by
  unfold querySubscriptionCandidateSet at h ⊢
  cases hn : normalSet g t recmd query with
  | error s =>
    simp only [hn] at h
    exact absurd h (normalSet_error hn)
  | ok normal =>
    cases hh : history t recmd with
    | error s =>
      simp only [hn, hh] at h
      exact absurd h (history_error hh)
    | ok ids => exact ⟨normal, ids, rfl, rfl, rfl⟩

end PrimaryElection.Core
