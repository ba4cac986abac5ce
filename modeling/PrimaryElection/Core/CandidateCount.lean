import PrimaryElection.Core.CandidateDB

/-! The number of items of a recommendation. Videos, regional and normal news are
capped one by one and the normal news get what the other two leave of
max_candidate_set_size. If they leave less than nothing, the remainder is negative,
is compared with the size of the normal set as an unsigned number, and the whole
normal set is copied. -/

namespace PrimaryElection.Core

open CInt

variable {κ : Type}

/-- Copying a candidate appends its one item, adjusting the weight appends none. -/
structure Glue.Appends (g : Glue κ) : Prop where
  copy : ∀ c cset, (g.copyToProto c cset).itemId = cset.itemId ++ [g.itemId c]
  remedy : ∀ c cset, (g.remedyCandidateWeight c cset).itemId = cset.itemId

theorem copyAll_itemId {g : Glue κ} (hg : g.Appends) (cs : List κ) (a : CandidateSet × ℚ) :
    (copyAll g cs a).1.itemId = a.1.itemId ++ cs.map g.itemId := by
  induction cs generalizing a with
  | nil => simp [copyAll]
  | cons c cs ih =>
    have h : copyAll g (c :: cs) a = copyAll g cs (copyOne g a c) := rfl
    rw [h, ih, copyOne, hg.remedy, hg.copy, List.append_assoc, List.map_cons, List.singleton_append]

theorem respond_itemId {g : Glue κ} (hg : g.Appends) (served : List (Site × κ))
    (cset : CandidateSet) : (respond g served cset).itemId =
      cset.itemId ++ served.map fun p => g.itemId p.2 := by
  unfold respond normalize
  simp only [copyAll_itemId hg, List.map_map]
  rfl

/-! ### The caps -/

theorem toInt32_le_natCast (n : ℕ) : toInt32 n ≤ n := by
  unfold toInt32
  rw [Int.bmod_def]
  split_ifs <;> omega

theorem capRequest_le (recmd : Recommend) (total : ℤ) : capRequest recmd total ≤ total := by
  unfold capRequest
  split_ifs <;> omega

theorem capRequest_nonneg (recmd : Recommend) {total : ℤ} (h : 0 ≤ total) :
    0 ≤ capRequest recmd total := by
  unfold capRequest
  split_ifs <;> omega

theorem totalCapped_le (recmd : Recommend) (maxSize : I32) (size : ℕ) :
    totalCapped recmd maxSize size ≤ size ∧ totalCapped recmd maxSize size ≤ maxSize.val := by
  have h₁ := toInt32_le_natCast size
  have h₂ := capRequest_le recmd (toInt32 size)
  unfold totalCapped
  dsimp only
  split_ifs <;> omega

/-- A set whose size is an `int` has a cap that is not negative. -/
theorem totalCapped_nonneg (recmd : Recommend) {maxSize : I32} (hm : 0 ≤ maxSize.val) {size : ℕ}
    (hs : size < 2147483648) : 0 ≤ totalCapped recmd maxSize size := by
  have h₁ : toInt32 size = size := toInt32_eq (by omega) (by omega)
  have h₂ : 0 ≤ capRequest recmd (toInt32 size) := capRequest_nonneg recmd (by omega)
  unfold totalCapped
  dsimp only
  split_ifs <;> omega

theorem remainder_range (o : ModelOptions) (recmd : Recommend) (nv nr : ℕ) :
    -2147483648 ≤ remainder o recmd nv nr ∧ remainder o recmd nv nr < 2147483648 := by
  have h₁ := toInt32_range (o.maxCandidateSetSize.val -
    totalCapped recmd o.maxCandidateRegionSize nr - totalCapped recmd o.maxCandidateVideoSize nv)
  have h₂ := recmd.recommendNum.property
  unfold remainder capRequest
  split_ifs <;> omega

/-- Comparing with a negative remainder as a `size_t` is comparing with a huge size. -/
theorem lt_toSize_iff {n : ℕ} {x : ℤ} (hx : 0 ≤ x) (hx' : x < 2147483648) :
    n < toSize x ↔ (n : ℤ) < x := by
  have := toSize_eq hx (by omega)
  omega

/-- A remainder that is not negative cuts the normal list as it should. A negative one is
compared as a huge size: below it the loop goes by the size as an `int`. -/
theorem totalNormal_cases (o : ModelOptions) (recmd : Recommend) (nv nr nn : ℕ) :
    (0 ≤ remainder o recmd nv nr ∧ totalNormal o recmd nv nr nn = min (nn : ℤ) (remainder o recmd nv nr)) ∨
      (remainder o recmd nv nr < 0 ∧ nn < toSize (remainder o recmd nv nr) ∧
        totalNormal o recmd nv nr nn = toInt32 nn) ∨
      (remainder o recmd nv nr < 0 ∧ toSize (remainder o recmd nv nr) ≤ nn ∧
        totalNormal o recmd nv nr nn = remainder o recmd nv nr) := by
  have hrange := remainder_range o recmd nv nr
  unfold totalNormal
  dsimp only
  by_cases hx : 0 ≤ remainder o recmd nv nr
  · have hsize := lt_toSize_iff (n := nn) hx hrange.2
    refine .inl ⟨hx, ?_⟩
    split_ifs with hlt
    · have hlt' := hsize.mp hlt
      rw [toInt32_eq (by omega) (by omega)]
      omega
    · have hge := fun hl => hlt (hsize.mpr hl)
      omega
  · split_ifs with hlt
    · exact .inr (.inl ⟨by omega, hlt, rfl⟩)
    · exact .inr (.inr ⟨by omega, by omega, rfl⟩)

theorem totalNormal_le (o : ModelOptions) (recmd : Recommend) (nv nr nn : ℕ) :
    totalNormal o recmd nv nr nn ≤ nn := by
  have hint := toInt32_le_natCast nn
  rcases totalNormal_cases o recmd nv nr nn with ⟨-, h⟩ | ⟨-, -, h⟩ | ⟨hneg, -, h⟩ <;> omega

/-- Each loop copies as many candidates as its bound says. -/
theorem mixSets_length (o : ModelOptions) (recmd : Recommend) (video region normal : List κ) :
    ((mixSets o recmd video region normal).length : ℤ) =
      max (totalCapped recmd o.maxCandidateVideoSize video.length) 0 +
      max (totalCapped recmd o.maxCandidateRegionSize region.length) 0 +
      max (totalNormal o recmd video.length region.length normal.length) 0 := by
  have h₁ := (totalCapped_le recmd o.maxCandidateVideoSize video.length).1
  have h₂ := (totalCapped_le recmd o.maxCandidateRegionSize region.length).1
  have h₃ := totalNormal_le o recmd video.length region.length normal.length
  simp only [mixSets, List.length_append, List.length_map, List.length_take, Nat.cast_add]
  omega

/-! ### The bound -/

/-- What the videos and the regional news leave of the total. -/
def room (o : ModelOptions) (recmd : Recommend) (nv nr : ℕ) : ℤ :=
  o.maxCandidateSetSize.val - max (totalCapped recmd o.maxCandidateVideoSize nv) 0 -
    max (totalCapped recmd o.maxCandidateRegionSize nr) 0

/-- Videos and regional news together leave room in the total. Lists of 2^31 entries
or more have a size that is negative as an `int`; with one of these, the remainder
or the normal list must fit the room besides. -/
def Fits (o : ModelOptions) (recmd : Recommend) (nv nr nn : ℕ) : Prop :=
  0 ≤ room o recmd nv nr ∧
    ((0 ≤ totalCapped recmd o.maxCandidateVideoSize nv ∧
        0 ≤ totalCapped recmd o.maxCandidateRegionSize nr) ∨
      (0 ≤ remainder o recmd nv nr ∧ remainder o recmd nv nr ≤ room o recmd nv nr) ∨
      (room o recmd nv nr < remainder o recmd nv nr ∧ (nn : ℤ) ≤ room o recmd nv nr) ∨
      (remainder o recmd nv nr < 0 ∧
        (nn < toSize (remainder o recmd nv nr) → toInt32 nn ≤ room o recmd nv nr)))

/-- For lists of fewer than 2^31 entries only the two caps matter. -/
theorem fits_iff_of_short {o : ModelOptions} {recmd : Recommend} {nv nr : ℕ}
    (hv : 0 ≤ o.maxCandidateVideoSize.val) (hr : 0 ≤ o.maxCandidateRegionSize.val)
    (hnv : nv < 2147483648) (hnr : nr < 2147483648) (nn : ℕ) : Fits o recmd nv nr nn ↔
      totalCapped recmd o.maxCandidateVideoSize nv +
        totalCapped recmd o.maxCandidateRegionSize nr ≤ o.maxCandidateSetSize.val := by
  have h₁ := totalCapped_nonneg recmd hv hnv
  have h₂ := totalCapped_nonneg recmd hr hnr
  unfold Fits room
  rw [max_eq_left h₁, max_eq_left h₂]
  constructor
  · rintro ⟨h, -⟩
    omega
  · intro h
    exact ⟨by omega, .inl ⟨h₁, h₂⟩⟩

theorem remainder_le_room (o : ModelOptions) (recmd : Recommend) (nv nr : ℕ)
    (h₁ : 0 ≤ totalCapped recmd o.maxCandidateVideoSize nv)
    (h₂ : 0 ≤ totalCapped recmd o.maxCandidateRegionSize nr) (h : 0 ≤ room o recmd nv nr) :
    0 ≤ remainder o recmd nv nr ∧ remainder o recmd nv nr ≤ room o recmd nv nr := by
  have hm := o.maxCandidateSetSize.property.2
  have hroom : room o recmd nv nr = o.maxCandidateSetSize.val -
      totalCapped recmd o.maxCandidateRegionSize nr -
      totalCapped recmd o.maxCandidateVideoSize nv := by
    unfold room
    rw [max_eq_left h₁, max_eq_left h₂]
    ring
  have hint : toInt32 (o.maxCandidateSetSize.val -
      totalCapped recmd o.maxCandidateRegionSize nr -
      totalCapped recmd o.maxCandidateVideoSize nv) = room o recmd nv nr := by
    rw [← hroom]
    exact toInt32_eq (by omega) (by omega)
  unfold remainder
  rw [hint]
  exact ⟨capRequest_nonneg recmd h, capRequest_le recmd _⟩

theorem totalNormal_le_room_iff {o : ModelOptions} {recmd : Recommend} {nv nr nn : ℕ}
    (h : 0 ≤ room o recmd nv nr) :
    totalNormal o recmd nv nr nn ≤ room o recmd nv nr ↔ Fits o recmd nv nr nn := by
  have hcases := totalNormal_cases o recmd nv nr nn
  have hcaps := fun h₁ h₂ => remainder_le_room o recmd nv nr h₁ h₂ h
  unfold Fits
  by_cases hc : 0 ≤ totalCapped recmd o.maxCandidateVideoSize nv ∧
      0 ≤ totalCapped recmd o.maxCandidateRegionSize nr
  · have := hcaps hc.1 hc.2
    rcases hcases with ⟨hx, heq⟩ | ⟨hx, hlt, heq⟩ | ⟨hx, hge, heq⟩ <;> omega
  · rcases hcases with ⟨hx, heq⟩ | ⟨hx, hlt, heq⟩ | ⟨hx, hge, heq⟩ <;> omega

/-- The three counts stay within the total exactly when the lists fit. -/
theorem counts_le_iff (o : ModelOptions) (recmd : Recommend) (nv nr nn : ℕ) :
    max (totalCapped recmd o.maxCandidateVideoSize nv) 0 +
        max (totalCapped recmd o.maxCandidateRegionSize nr) 0 +
        max (totalNormal o recmd nv nr nn) 0 ≤ o.maxCandidateSetSize.val ↔
      Fits o recmd nv nr nn := by
  have hroom : room o recmd nv nr = o.maxCandidateSetSize.val -
      max (totalCapped recmd o.maxCandidateVideoSize nv) 0 -
      max (totalCapped recmd o.maxCandidateRegionSize nr) 0 := rfl
  by_cases h : 0 ≤ room o recmd nv nr
  · rw [← totalNormal_le_room_iff h]
    omega
  · have hfalse : ¬ Fits o recmd nv nr nn := fun hf => h hf.1
    simp only [hfalse, iff_false]
    omega

/-- A recommendation into an empty response has at most max_candidate_set_size items
exactly when its videos and regional news leave room in the total. -/
theorem recommendation_le_max_iff {g : Glue κ} (hg : g.Appends) (t : Tables κ) (o : ModelOptions)
    (recmd : Recommend) (query : Query)
    (hok : (queryRecommendationCandidateSet g t o recmd query .empty).status = .ok) :
    ∃ normal, normalSet g t recmd query = .ok normal ∧
      (((queryRecommendationCandidateSet g t o recmd query .empty).cset.itemId.length : ℤ) ≤
          o.maxCandidateSetSize.val ↔
        Fits o recmd (videoSet g t recmd query).set.length (regionSet g t recmd query).set.length
          normal.set.length) := by
  obtain ⟨normal, ids, hn, -, heq⟩ := recommendation_ok hok
  refine ⟨normal, hn, ?_⟩
  have hlen := mixSets_length o recmd (videoSet g t recmd query).set
    (regionSet g t recmd query).set normal.set
  rw [heq]
  simp only [respond_itemId hg, setBase, CandidateSet.empty, List.nil_append, List.length_map]
  rw [hlen]
  exact counts_le_iff o recmd _ _ _

/-! ### Fixed inputs -/

def idGlue : Glue UInt64 where
  structedQuery _ := ⟨.normal, 0, 0, 0⟩
  zoneToRegionId _ := (0, 0, 0)
  kInvalidRegionID := 0
  candidateType _ := .other 0
  itemId := id
  copyToProto c cset := { cset with itemId := cset.itemId ++ [c], power := cset.power ++ [1] }
  remedyCandidateWeight _ cset := cset

theorem idGlue_appends : idGlue.Appends := ⟨fun _ _ => rfl, fun _ _ => rfl⟩

def videoTables : Tables UInt64 where
  queryCandidateSet site _ set := match site with
    | .normal => (.ok, set ++ [1, 2, 3, 4, 5])
    | .video => (.ok, set ++ [11, 12, 13])
    | _ => (.ok, set)
  filterCandidateSet _ _ set := (.notFound, set)
  queryHistory _ := (.notFound, [])

def wifiRequest : Recommend := ⟨7, 0, i32 0, .wifi, []⟩

def plainStore : Conf → Options → Status × Options := fun _ base => (.ok, base)

def confWithMax (n : I32) : Conf :=
  .parsed (fun name => if name = "max_candidate_set_size" then some n else none) fun _ => none

def optionsWithMax (n : I32) : ModelOptions :=
  (ModelOptions.fromConf plainStore (confWithMax n) (.default ⟨i32 3⟩)).2

theorem recommendation_le_max_four : ∃ normal,
    normalSet idGlue videoTables wifiRequest ⟨.normal, 0, 0, 0⟩ = .ok normal ∧
      (((queryRecommendationCandidateSet idGlue videoTables (optionsWithMax (i32 4))
          wifiRequest ⟨.normal, 0, 0, 0⟩ .empty).cset.itemId.length : ℤ) ≤ 4 ↔
        Fits (optionsWithMax (i32 4)) wifiRequest 3 0 normal.set.length) :=
  recommendation_le_max_iff idGlue_appends videoTables _ _ _ rfl

/-- A file may ask for at most 2 candidates and leave the default of 10 videos: three
videos and all five normal news are returned. -/
theorem recommendation_exceeds_max :
    (ModelOptions.fromConf plainStore (confWithMax (i32 2)) (.default ⟨i32 3⟩)).1 = .ok ∧
      (optionsWithMax (i32 2)).maxCandidateSetSize.val = 2 ∧
      (queryRecommendationCandidateSet idGlue videoTables (optionsWithMax (i32 2))
        wifiRequest ⟨.normal, 0, 0, 0⟩ .empty).status = .ok ∧
      (queryRecommendationCandidateSet idGlue videoTables (optionsWithMax (i32 2))
        wifiRequest ⟨.normal, 0, 0, 0⟩ .empty).cset.itemId = [11, 12, 13, 1, 2, 3, 4, 5] := by
  refine ⟨rfl, rfl, rfl, ?_⟩
  decide

end PrimaryElection.Core
