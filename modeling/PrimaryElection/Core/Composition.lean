import PrimaryElection.Core.CandidateCount

/-! What a recommendation is composed of: leading videos, then leading regional news,
then leading normal news, in parallel arrays. The counts are minima of the sizes and
the caps as long as the sizes of the videos and of the regional news, converted to
`int`, say so. -/

namespace PrimaryElection.Core

open CInt

variable {κ : Type}

/-! ### Parallel arrays -/

structure Row where
  itemId : UInt64
  power : ℚ
  publishTime : ℤ
  categoryId : ℤ
  pictureNum : ℤ
  type : ℤ
  deriving DecidableEq

def Row.scaled (w : ℚ) (r : Row) : Row :=
  { r with power := if r.power = -100000 then r.power else r.power / w }

/-- The parallel arrays hold the rows, and nothing else. -/
structure CandidateSet.Holds (cset : CandidateSet) (rows : List Row) : Prop where
  itemId : cset.itemId = rows.map Row.itemId
  power : cset.power = rows.map Row.power
  publishTime : cset.publishTime = rows.map Row.publishTime
  categoryId : cset.categoryId = rows.map Row.categoryId
  pictureNum : cset.pictureNum = rows.map Row.pictureNum
  type : cset.type = rows.map Row.type

/-- Copying a candidate and adjusting its weight appends one row to the arrays, and
the row describes the candidate. -/
def Glue.AppendsRow (g : Glue κ) (describes : κ → Row → Prop) : Prop :=
  ∀ c cset rows, cset.Holds rows → ∃ row, describes c row ∧
    (g.remedyCandidateWeight c (g.copyToProto c cset)).Holds (rows ++ [row])

theorem copyAll_holds {g : Glue κ} {describes : κ → Row → Prop} (hg : g.AppendsRow describes)
    (cs : List κ) {a : CandidateSet × ℚ} {rows : List Row} (ha : a.1.Holds rows) :
    ∃ new, List.Forall₂ describes cs new ∧ (copyAll g cs a).1.Holds (rows ++ new) := by
  induction cs generalizing a rows with
  | nil => exact ⟨[], .nil, by simpa [copyAll] using ha⟩
  | cons c cs ih =>
    obtain ⟨row, hrow, hone⟩ := hg c a.1 rows ha
    obtain ⟨new, hnew, hall⟩ := ih (a := copyOne g a c) hone
    refine ⟨row :: new, .cons hrow hnew, ?_⟩
    rwa [List.append_assoc, List.singleton_append] at hall

theorem normalize_holds {cset : CandidateSet} {rows : List Row} (h : cset.Holds rows)
    (totalWeight : ℚ) : ∃ w, 0 < w ∧ (normalize totalWeight cset).Holds (rows.map (Row.scaled w)) := by
  refine ⟨if totalWeight ≤ 0 then 1 else totalWeight, ?_, ?_, ?_, ?_, ?_, ?_, ?_⟩
  · split_ifs with hw
    · exact one_pos
    · exact not_le.mp hw
  · simpa [normalize, Row.scaled, Function.comp_def] using h.itemId
  · simp [normalize, Row.scaled, Function.comp_def, h.power]
  · simpa [normalize, Row.scaled, Function.comp_def] using h.publishTime
  · simpa [normalize, Row.scaled, Function.comp_def] using h.categoryId
  · simpa [normalize, Row.scaled, Function.comp_def] using h.pictureNum
  · simpa [normalize, Row.scaled, Function.comp_def] using h.type

/-- The arrays are parallel and their positions describe the candidates in order; `w`
has divided the weights. -/
def CandidateSet.Describes (describes : κ → Row → Prop) (cset : CandidateSet) (cs : List κ) : Prop :=
  ∃ rows w, 0 < w ∧ List.Forall₂ describes cs rows ∧ cset.Holds (rows.map (Row.scaled w))

/-- Each of the arrays has one entry for each candidate. -/
theorem CandidateSet.Describes.lengths {describes : κ → Row → Prop} {cset : CandidateSet}
    {cs : List κ} (h : cset.Describes describes cs) :
    cset.itemId.length = cs.length ∧ cset.power.length = cs.length ∧
      cset.publishTime.length = cs.length ∧ cset.categoryId.length = cs.length ∧
      cset.pictureNum.length = cs.length ∧ cset.type.length = cs.length := by
  obtain ⟨rows, w, -, hrows, hall⟩ := h
  simp [hall.itemId, hall.power, hall.publishTime, hall.categoryId, hall.pictureNum, hall.type,
    hrows.length_eq]

theorem respond_describes {g : Glue κ} {describes : κ → Row → Prop} (hg : g.AppendsRow describes)
    (served : List (Site × κ)) {cset : CandidateSet} (hc : cset.Holds []) :
    (respond g served cset).Describes describes (served.map Prod.snd) := by
  obtain ⟨rows, hrows, hall⟩ := copyAll_holds hg (served.map Prod.snd) (a := (cset, 0)) hc
  obtain ⟨w, hw, hscaled⟩ := normalize_holds hall
    (copyAll g (served.map Prod.snd) (cset, 0)).2
  exact ⟨rows, w, hw, hrows, hscaled⟩

theorem setBase_holds (recmd : Recommend) (ids : List UInt64) :
    (setBase recmd ids .empty).Holds [] := ⟨rfl, rfl, rfl, rfl, rfl, rfl⟩

/-! ### Counts -/

def capOf (recmd : Recommend) (limit : ℤ) : ℤ :=
  if 0 < recmd.recommendNum.val then min limit recmd.recommendNum.val else limit

/-- How many of `size` candidates a limit and the request allow. -/
def share (recmd : Recommend) (limit : ℤ) (size : ℕ) : ℤ := min size (capOf recmd limit)

/-- How many normal news go behind the videos and the regional news. -/
def normalShare (o : ModelOptions) (recmd : Recommend) (nv nr nn : ℕ) : ℤ :=
  share recmd (o.maxCandidateSetSize.val - share recmd o.maxCandidateVideoSize.val nv -
    share recmd o.maxCandidateRegionSize.val nr) nn

def composition (o : ModelOptions) (recmd : Recommend) (video region normal : List κ) :
    List (Site × κ) :=
  ((video.take (share recmd o.maxCandidateVideoSize.val video.length).toNat).map (.video, ·)) ++
  ((region.take (share recmd o.maxCandidateRegionSize.val region.length).toNat).map (.region, ·)) ++
  (normal.take (normalShare o recmd video.length region.length normal.length).toNat).map (.normal, ·)

/-- The `int` of the size reaches the share, as it does for fewer than 2^31 entries. -/
def Reaches (recmd : Recommend) (limit : ℤ) (size : ℕ) : Prop :=
  share recmd limit size ≤ max 0 (toInt32 size)

/-- Cut by `x` as the code cuts it, with the size compared as a `size_t`, a normal list
of `size` entries has the share of the limit `k` left. -/
def CutsTo (recmd : Recommend) (x k : ℤ) (size : ℕ) : Prop :=
  (0 ≤ capOf recmd x ∧ min (size : ℤ) (capOf recmd x) = share recmd k size) ∨
    (capOf recmd x < 0 ∧ size < toSize (capOf recmd x) ∧
      max 0 (toInt32 size) = share recmd k size) ∨
    (toSize (capOf recmd x) ≤ size ∧ capOf recmd x < 0 ∧ share recmd k size = 0)

/-- The sizes of the videos and of the regional news reach their shares. A size that is
negative as an `int` enters the remainder for the normal news; that remainder must then
cut them to their share all the same. -/
def Counted (o : ModelOptions) (recmd : Recommend) (nv nr nn : ℕ) : Prop :=
  Reaches recmd o.maxCandidateVideoSize.val nv ∧ Reaches recmd o.maxCandidateRegionSize.val nr ∧
    ((0 ≤ toInt32 nv ∧ 0 ≤ toInt32 nr) ∨
      CutsTo recmd (toInt32 (o.maxCandidateSetSize.val -
          min (toInt32 nr) (capOf recmd o.maxCandidateRegionSize.val) -
          min (toInt32 nv) (capOf recmd o.maxCandidateVideoSize.val)))
        (o.maxCandidateSetSize.val - share recmd o.maxCandidateVideoSize.val nv -
          share recmd o.maxCandidateRegionSize.val nr) nn)

theorem capRequest_eq (recmd : Recommend) (total : ℤ) :
    capRequest recmd total = capOf recmd total := by
  unfold capRequest capOf
  split_ifs <;> omega

theorem totalCapped_eq (recmd : Recommend) (maxSize : I32) (size : ℕ) :
    totalCapped recmd maxSize size = min (toInt32 size) (capOf recmd maxSize.val) := by
  unfold totalCapped capRequest capOf
  dsimp only
  split_ifs <;> omega

theorem capOf_nonneg (recmd : Recommend) {limit : ℤ} (h : 0 ≤ limit) : 0 ≤ capOf recmd limit := by
  unfold capOf
  split_ifs <;> omega

theorem capOf_le (recmd : Recommend) (limit : ℤ) : capOf recmd limit ≤ limit := by
  unfold capOf
  split_ifs <;> omega

theorem share_nonneg (recmd : Recommend) {limit : ℤ} (h : 0 ≤ limit) (size : ℕ) :
    0 ≤ share recmd limit size := le_min (by omega) (capOf_nonneg recmd h)

theorem share_le (recmd : Recommend) (limit : ℤ) (size : ℕ) :
    share recmd limit size ≤ size ∧ share recmd limit size ≤ limit :=
  ⟨min_le_left _ _, (min_le_right _ _).trans (capOf_le recmd limit)⟩

theorem normalShare_nonneg {o : ModelOptions} (recmd : Recommend)
    (hsum : o.maxCandidateVideoSize.val + o.maxCandidateRegionSize.val ≤ o.maxCandidateSetSize.val)
    (nv nr nn : ℕ) : 0 ≤ normalShare o recmd nv nr nn := by
  have hv := (share_le recmd o.maxCandidateVideoSize.val nv).2
  have hr := (share_le recmd o.maxCandidateRegionSize.val nr).2
  exact share_nonneg recmd (by omega) nn

theorem reaches_of_short (recmd : Recommend) (limit : ℤ) {size : ℕ} (h : size < 2147483648) :
    Reaches recmd limit size := by
  have hs := (share_le recmd limit size).1
  have hi : toInt32 size = size := toInt32_eq (by omega) (by omega)
  unfold Reaches
  omega

theorem counted_of_short (o : ModelOptions) (recmd : Recommend) {nv nr : ℕ}
    (hv : nv < 2147483648) (hr : nr < 2147483648) (nn : ℕ) : Counted o recmd nv nr nn := by
  have h₁ : toInt32 nv = nv := toInt32_eq (by omega) (by omega)
  have h₂ : toInt32 nr = nr := toInt32_eq (by omega) (by omega)
  exact ⟨reaches_of_short recmd _ hv, reaches_of_short recmd _ hr, .inl ⟨by omega, by omega⟩⟩

theorem totalCapped_share_iff (recmd : Recommend) {maxSize : I32} (h : 0 ≤ maxSize.val) (size : ℕ) :
    max (totalCapped recmd maxSize size) 0 = share recmd maxSize.val size ↔
      Reaches recmd maxSize.val size := by
  have h₁ := toInt32_le_natCast size
  have h₂ := capOf_nonneg recmd h
  rw [totalCapped_eq]
  unfold Reaches share
  omega

/-- The remainder for the normal news before the request's cap. -/
theorem remainder_eq (o : ModelOptions) (recmd : Recommend) (nv nr : ℕ) :
    remainder o recmd nv nr = capOf recmd (toInt32 (o.maxCandidateSetSize.val -
      min (toInt32 nr) (capOf recmd o.maxCandidateRegionSize.val) -
      min (toInt32 nv) (capOf recmd o.maxCandidateVideoSize.val))) := by
  rw [remainder, capRequest_eq, totalCapped_eq, totalCapped_eq]

theorem totalNormal_share_iff (o : ModelOptions) (recmd : Recommend) (nv nr nn : ℕ) (k : ℤ) :
    max (totalNormal o recmd nv nr nn) 0 = share recmd k nn ↔
      CutsTo recmd (toInt32 (o.maxCandidateSetSize.val -
        min (toInt32 nr) (capOf recmd o.maxCandidateRegionSize.val) -
        min (toInt32 nv) (capOf recmd o.maxCandidateVideoSize.val))) k nn := by
  have hcases := totalNormal_cases o recmd nv nr nn
  unfold CutsTo
  rw [← remainder_eq o recmd nv nr]
  rcases hcases with ⟨hx, heq⟩ | ⟨hx, hlt, heq⟩ | ⟨hx, hge, heq⟩
  · rw [heq]
    omega
  · rw [heq]
    omega
  · rw [heq]
    omega

/-- Sizes that are not negative as `int` leave exactly the remainder they should. -/
theorem cutsTo_of_nonneg {o : ModelOptions} {recmd : Recommend} {nv nr : ℕ}
    (hmv : 0 ≤ o.maxCandidateVideoSize.val) (hmr : 0 ≤ o.maxCandidateRegionSize.val)
    (hsum : o.maxCandidateVideoSize.val + o.maxCandidateRegionSize.val ≤ o.maxCandidateSetSize.val)
    (hv : Reaches recmd o.maxCandidateVideoSize.val nv)
    (hr : Reaches recmd o.maxCandidateRegionSize.val nr)
    (hiv : 0 ≤ toInt32 nv) (hir : 0 ≤ toInt32 nr) (nn : ℕ) :
    CutsTo recmd (toInt32 (o.maxCandidateSetSize.val -
        min (toInt32 nr) (capOf recmd o.maxCandidateRegionSize.val) -
        min (toInt32 nv) (capOf recmd o.maxCandidateVideoSize.val)))
      (o.maxCandidateSetSize.val - share recmd o.maxCandidateVideoSize.val nv -
        share recmd o.maxCandidateRegionSize.val nr) nn := by
  have hcv := capOf_nonneg recmd hmv
  have hcr := capOf_nonneg recmd hmr
  have hsv : min (toInt32 nv) (capOf recmd o.maxCandidateVideoSize.val) =
      share recmd o.maxCandidateVideoSize.val nv := by
    rw [← (totalCapped_share_iff recmd hmv nv).mpr hv, totalCapped_eq, max_eq_left]
    exact le_min hiv hcv
  have hsr : min (toInt32 nr) (capOf recmd o.maxCandidateRegionSize.val) =
      share recmd o.maxCandidateRegionSize.val nr := by
    rw [← (totalCapped_share_iff recmd hmr nr).mpr hr, totalCapped_eq, max_eq_left]
    exact le_min hir hcr
  have h₁ := share_nonneg recmd hmv nv
  have h₂ := share_nonneg recmd hmr nr
  have h₃ := (share_le recmd o.maxCandidateVideoSize.val nv).2
  have h₄ := (share_le recmd o.maxCandidateRegionSize.val nr).2
  have h₅ := o.maxCandidateSetSize.property.2
  have hleft : toInt32 (o.maxCandidateSetSize.val - share recmd o.maxCandidateRegionSize.val nr -
      share recmd o.maxCandidateVideoSize.val nv) = o.maxCandidateSetSize.val -
        share recmd o.maxCandidateVideoSize.val nv - share recmd o.maxCandidateRegionSize.val nr := by
    rw [toInt32_eq (by omega) (by omega)]
    ring
  rw [hsv, hsr, hleft]
  exact .inl ⟨capOf_nonneg recmd (by omega), rfl⟩

/-- The three loops copy their shares exactly when the sizes count. -/
theorem counts_iff {o : ModelOptions} (recmd : Recommend)
    (hmv : 0 ≤ o.maxCandidateVideoSize.val) (hmr : 0 ≤ o.maxCandidateRegionSize.val)
    (hsum : o.maxCandidateVideoSize.val + o.maxCandidateRegionSize.val ≤ o.maxCandidateSetSize.val)
    (nv nr nn : ℕ) :
    (max (totalCapped recmd o.maxCandidateVideoSize nv) 0 =
        share recmd o.maxCandidateVideoSize.val nv ∧
      max (totalCapped recmd o.maxCandidateRegionSize nr) 0 =
        share recmd o.maxCandidateRegionSize.val nr ∧
      max (totalNormal o recmd nv nr nn) 0 = normalShare o recmd nv nr nn) ↔
      Counted o recmd nv nr nn := by
  rw [totalCapped_share_iff recmd hmv, totalCapped_share_iff recmd hmr, normalShare,
    totalNormal_share_iff]
  constructor
  · rintro ⟨hv, hr, hn⟩
    exact ⟨hv, hr, .inr hn⟩
  · rintro ⟨hv, hr, ⟨hiv, hir⟩ | hn⟩
    · exact ⟨hv, hr, cutsTo_of_nonneg hmv hmr hsum hv hr hiv hir nn⟩
    · exact ⟨hv, hr, hn⟩

/-! ### The composition -/

theorem countP_site (l : List κ) (s s' : Site) :
    (l.map (s', ·)).countP (fun p => decide (p.1 = s)) = if s = s' then l.length else 0 := by
  induction l with
  | nil => simp
  | cons c l ih =>
    rw [List.map_cons, List.countP_cons, ih]
    by_cases h : s = s'
    · simp [h]
    · simp [h, Ne.symm h]

/-- Two mixtures of leading parts are the same exactly when the parts have the same
lengths. -/
theorem mix_eq_iff (video region normal : List κ) {a b c a' b' c' : ℕ}
    (ha : a ≤ video.length) (ha' : a' ≤ video.length) (hb : b ≤ region.length)
    (hb' : b' ≤ region.length) (hc : c ≤ normal.length) (hc' : c' ≤ normal.length) :
    ((video.take a).map (Site.video, ·) ++ (region.take b).map (Site.region, ·) ++
        (normal.take c).map (Site.normal, ·) =
      (video.take a').map (Site.video, ·) ++ (region.take b').map (Site.region, ·) ++
        (normal.take c').map (Site.normal, ·)) ↔ a = a' ∧ b = b' ∧ c = c' := by
  constructor
  · intro h
    have hcount : ∀ s : Site, ∀ x y z : ℕ, x ≤ video.length → y ≤ region.length →
        z ≤ normal.length → ((video.take x).map (Site.video, ·) ++
          (region.take y).map (Site.region, ·) ++ (normal.take z).map (Site.normal, ·)).countP
            (fun p => decide (p.1 = s)) =
          (if s = .video then x else 0) + (if s = .region then y else 0) +
            (if s = .normal then z else 0) := by
      intro s x y z hx hy hz
      rw [List.countP_append, List.countP_append, countP_site, countP_site, countP_site,
        List.length_take_of_le hx, List.length_take_of_le hy, List.length_take_of_le hz]
    have hv := hcount .video a b c ha hb hc
    have hr := hcount .region a b c ha hb hc
    have hn := hcount .normal a b c ha hb hc
    rw [h] at hv hr hn
    rw [hcount _ _ _ _ ha' hb' hc'] at hv hr hn
    have hva : a = a' := by simpa using hv.symm
    have hrb : b = b' := by simpa using hr.symm
    have hnc : c = c' := by simpa using hn.symm
    exact ⟨hva, hrb, hnc⟩
  · rintro ⟨rfl, rfl, rfl⟩
    rfl

/-- The loops serve the composition exactly when the sizes count. -/
theorem mixSets_eq_iff {o : ModelOptions} (recmd : Recommend)
    (hmv : 0 ≤ o.maxCandidateVideoSize.val) (hmr : 0 ≤ o.maxCandidateRegionSize.val)
    (hsum : o.maxCandidateVideoSize.val + o.maxCandidateRegionSize.val ≤ o.maxCandidateSetSize.val)
    (video region normal : List κ) :
    mixSets o recmd video region normal = composition o recmd video region normal ↔
      Counted o recmd video.length region.length normal.length := by
  have h₁ := totalCapped_le recmd o.maxCandidateVideoSize video.length
  have h₂ := totalCapped_le recmd o.maxCandidateRegionSize region.length
  have h₃ := totalNormal_le o recmd video.length region.length normal.length
  have s₁ := share_le recmd o.maxCandidateVideoSize.val video.length
  have s₂ := share_le recmd o.maxCandidateRegionSize.val region.length
  have s₃ : normalShare o recmd video.length region.length normal.length ≤ normal.length :=
    min_le_left _ _
  have p₁ := share_nonneg recmd hmv video.length
  have p₂ := share_nonneg recmd hmr region.length
  have p₃ := normalShare_nonneg recmd hsum video.length region.length normal.length
  unfold mixSets composition
  rw [← counts_iff recmd hmv hmr hsum, mix_eq_iff video region normal (by omega) (by omega)
    (by omega) (by omega) (by omega) (by omega)]
  omega

/-- The regional news are those of the city or, if its query gave none, of the
province, after the filter. -/
def RegionSource (g : Glue κ) (t : Tables κ) (recmd : Recommend) (query : Query)
    (region : List κ) : Prop :=
  region = [] ∨ ∃ city province set, (g.zoneToRegionId recmd.zone).2 = (city, province) ∧
    region = (filterSet t .region recmd.userId set).set ∧
    (set = (t.queryCandidateSet .region
        { query with itemType := .region, regionId := city } []).2 ∨
      ((t.queryCandidateSet .region
          { query with itemType := .region, regionId := city } []).2 = [] ∧
        set = (t.queryCandidateSet .province
          { query with itemType := .region, regionId := province } []).2))

theorem regionSet_source (g : Glue κ) (t : Tables κ) (recmd : Recommend) (query : Query) :
    RegionSource g t recmd query (regionSet g t recmd query).set := by
  unfold regionSet
  split
  · next hz =>
    dsimp only
    split
    · refine .inr ⟨_, _, _, rfl, rfl, ?_⟩
      split_ifs with hc
      · have he := List.length_eq_zero_iff.mp hc.2.1
        exact .inr ⟨he, by rw [he]⟩
      · exact .inl rfl
    · exact .inl rfl
  · exact .inl rfl

theorem videoSet_wifi (g : Glue κ) (t : Tables κ) {recmd : Recommend} (query : Query)
    (h : recmd.network ≠ .wifi) : (videoSet g t recmd query).set = [] := by
  unfold videoSet
  rw [if_neg h]

/-- The response holds the composition, `v + r + n` entries in each array. -/
structure Response.Composed (describes : κ → Row → Prop) (o : ModelOptions) (recmd : Recommend)
    (video region normal : List κ) (r : Response κ) : Prop where
  served : r.served = composition o recmd video region normal
  arrays : r.cset.Describes describes ((composition o recmd video region normal).map Prod.snd)
  length : ((composition o recmd video region normal).length : ℤ) =
    share recmd o.maxCandidateVideoSize.val video.length +
      share recmd o.maxCandidateRegionSize.val region.length +
      normalShare o recmd video.length region.length normal.length

theorem composition_length {o : ModelOptions} (recmd : Recommend)
    (hmv : 0 ≤ o.maxCandidateVideoSize.val) (hmr : 0 ≤ o.maxCandidateRegionSize.val)
    (hsum : o.maxCandidateVideoSize.val + o.maxCandidateRegionSize.val ≤ o.maxCandidateSetSize.val)
    (video region normal : List κ) :
    ((composition o recmd video region normal).length : ℤ) =
      share recmd o.maxCandidateVideoSize.val video.length +
        share recmd o.maxCandidateRegionSize.val region.length +
        normalShare o recmd video.length region.length normal.length := by
  have s₁ := share_le recmd o.maxCandidateVideoSize.val video.length
  have s₂ := share_le recmd o.maxCandidateRegionSize.val region.length
  have s₃ : normalShare o recmd video.length region.length normal.length ≤ normal.length :=
    min_le_left _ _
  have p₁ := share_nonneg recmd hmv video.length
  have p₂ := share_nonneg recmd hmr region.length
  have p₃ := normalShare_nonneg recmd hsum video.length region.length normal.length
  simp only [composition, List.length_append, List.length_map, List.length_take, Nat.cast_add]
  omega

/-- A recommendation into an empty response is the composition of the leading videos,
regional and normal news, as many of each as the caps allow, exactly when the sizes
count. The videos are fetched on wifi only, and the regional news come from one region. -/
theorem recommendation_composed_iff {g : Glue κ} {describes : κ → Row → Prop}
    (hg : g.AppendsRow describes) (t : Tables κ) {o : ModelOptions}
    (hmv : 0 ≤ o.maxCandidateVideoSize.val) (hmr : 0 ≤ o.maxCandidateRegionSize.val)
    (hsum : o.maxCandidateVideoSize.val + o.maxCandidateRegionSize.val ≤ o.maxCandidateSetSize.val)
    (recmd : Recommend) (query : Query)
    (hok : (queryRecommendationCandidateSet g t o recmd query .empty).status = .ok) :
    ∃ normal, normalSet g t recmd query = .ok normal ∧
      (recmd.network ≠ .wifi → (videoSet g t recmd query).set = []) ∧
      RegionSource g t recmd query (regionSet g t recmd query).set ∧
      ((queryRecommendationCandidateSet g t o recmd query .empty).Composed describes o recmd
          (videoSet g t recmd query).set (regionSet g t recmd query).set normal.set ↔
        Counted o recmd (videoSet g t recmd query).set.length
          (regionSet g t recmd query).set.length normal.set.length) := by
  obtain ⟨normal, ids, hn, -, heq⟩ := recommendation_ok hok
  have hmix := mixSets_eq_iff recmd hmv hmr hsum (videoSet g t recmd query).set
    (regionSet g t recmd query).set normal.set
  have hdesc := respond_describes hg (mixSets o recmd (videoSet g t recmd query).set
    (regionSet g t recmd query).set normal.set) (setBase_holds recmd ids)
  refine ⟨normal, hn, videoSet_wifi g t query, regionSet_source g t recmd query, ?_⟩
  rw [heq]
  constructor
  · exact fun h => hmix.mp h.served
  · intro h
    have hserved := hmix.mpr h
    exact ⟨hserved, by rw [hserved] at hdesc ⊢; exact hdesc,
      composition_length recmd hmv hmr hsum _ _ _⟩

/-! ### Fixed inputs -/

/-- Candidates that are their item ids, with a weight of 2 but for the sentinel of the
candidate 11; all but the candidate 2 are subscribed. -/
def rowGlue : Glue UInt64 where
  structedQuery _ := ⟨.normal, 0, 0, 0⟩
  zoneToRegionId _ := (2, 110, 100)
  kInvalidRegionID := 0
  candidateType c := if c = 2 then .other 0 else .top
  itemId := id
  copyToProto c cset :=
    { cset with
      itemId := cset.itemId ++ [c]
      power := cset.power ++ [2]
      publishTime := cset.publishTime ++ [1000]
      categoryId := cset.categoryId ++ [13]
      pictureNum := cset.pictureNum ++ [0]
      type := cset.type ++ [1] }
  remedyCandidateWeight c cset :=
    if c = 11 then { cset with power := cset.power.dropLast ++ [-100000] } else cset

theorem rowGlue_appendsRow : rowGlue.AppendsRow fun c row => row.itemId = c := by
  intro c cset rows h
  refine ⟨⟨c, if c = 11 then -100000 else 2, 1000, 13, 0, 1⟩, rfl, ?_⟩
  by_cases hc : c = 11
  · constructor <;> simp [rowGlue, hc, h.itemId, h.power, h.publishTime, h.categoryId, h.pictureNum,
      h.type]
  · constructor <;> simp [rowGlue, hc, h.itemId, h.power, h.publishTime, h.categoryId, h.pictureNum,
      h.type]

theorem recommendation_composed_default : ∃ normal,
    normalSet rowGlue videoTables wifiRequest ⟨.normal, 0, 0, 0⟩ = .ok normal ∧
      (wifiRequest.network ≠ .wifi →
        (videoSet rowGlue videoTables wifiRequest ⟨.normal, 0, 0, 0⟩).set = []) ∧
      RegionSource rowGlue videoTables wifiRequest ⟨.normal, 0, 0, 0⟩
        (regionSet rowGlue videoTables wifiRequest ⟨.normal, 0, 0, 0⟩).set ∧
      ((queryRecommendationCandidateSet rowGlue videoTables (.default ⟨i32 3⟩) wifiRequest
          ⟨.normal, 0, 0, 0⟩ .empty).Composed (fun c row => row.itemId = c) (.default ⟨i32 3⟩)
          wifiRequest [11, 12, 13] [] normal.set ↔
        Counted (.default ⟨i32 3⟩) wifiRequest 3 0 normal.set.length) :=
  recommendation_composed_iff rowGlue_appendsRow videoTables (by decide) (by decide) (by decide)
    wifiRequest ⟨.normal, 0, 0, 0⟩ rfl

def longTables : Tables UInt64 where
  queryCandidateSet site _ set := match site with
    | .normal => (.ok, set ++ [1, 2, 3, 4, 5])
    | .video => (.ok, set ++ List.replicate 4294967296 12)
    | _ => (.ok, set)
  filterCandidateSet _ _ set := (.ok, set)
  queryHistory _ := (.notFound, [])

theorem longTables_video : (videoSet rowGlue longTables wifiRequest ⟨.normal, 0, 0, 0⟩).set =
    List.replicate 4294967296 12 := by
  have hpos : 0 < (List.replicate 4294967296 (12 : UInt64)).length := by
    rw [List.length_replicate]
    norm_num
  have hset : filterSet longTables .video wifiRequest.userId (List.replicate 4294967296 12) =
      ⟨List.replicate 4294967296 12, some .ok⟩ := if_pos hpos
  unfold videoSet
  rw [if_pos (show wifiRequest.network = .wifi from rfl)]
  exact congrArg Filled.set hset

/-- The size 2^32 is 0 as an `int`: none of the videos is served, where ten should be. -/
theorem long_videos_dropped :
    normalSet rowGlue longTables wifiRequest ⟨.normal, 0, 0, 0⟩ = .ok ⟨[1, 2, 3, 4, 5], some .ok⟩ ∧
      (videoSet rowGlue longTables wifiRequest ⟨.normal, 0, 0, 0⟩).set.length = 4294967296 ∧
      (queryRecommendationCandidateSet rowGlue longTables (.default ⟨i32 3⟩) wifiRequest
        ⟨.normal, 0, 0, 0⟩ .empty).status = .ok ∧
      share wifiRequest (ModelOptions.default ⟨i32 3⟩).maxCandidateVideoSize.val 4294967296 = 10 ∧
      ¬ (queryRecommendationCandidateSet rowGlue longTables (.default ⟨i32 3⟩) wifiRequest
        ⟨.normal, 0, 0, 0⟩ .empty).Composed (fun c row => row.itemId = c) (.default ⟨i32 3⟩)
        wifiRequest (videoSet rowGlue longTables wifiRequest ⟨.normal, 0, 0, 0⟩).set
        (regionSet rowGlue longTables wifiRequest ⟨.normal, 0, 0, 0⟩).set [1, 2, 3, 4, 5] := by
  have hlen : (videoSet rowGlue longTables wifiRequest ⟨.normal, 0, 0, 0⟩).set.length =
      4294967296 := by
    rw [longTables_video, List.length_replicate]
  have hshare : share wifiRequest (ModelOptions.default ⟨i32 3⟩).maxCandidateVideoSize.val
      4294967296 = 10 := by decide
  refine ⟨rfl, hlen, rfl, hshare, fun h => ?_⟩
  have hcounted := (mixSets_eq_iff (o := .default ⟨i32 3⟩) wifiRequest (by decide) (by decide)
    (by decide) _ _ _).mp h.served
  have hreaches := hcounted.1
  rw [hlen] at hreaches
  exact absurd hreaches (by unfold Reaches; decide)

end PrimaryElection.Core
