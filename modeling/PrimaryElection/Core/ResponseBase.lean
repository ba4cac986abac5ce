import PrimaryElection.Core.Normalize

/-! The head of a response, its user and history. Every call that can fail comes before
the first write to the response, so a query that fails leaves it as it was. The copies
of the candidates do not touch the head. -/

namespace PrimaryElection.Core

open CInt

variable {κ : Type}

/-- Copying a candidate and adjusting its weight leave the user and the history alone. -/
structure Glue.KeepsBase (g : Glue κ) : Prop where
  copy : ∀ c cset, (g.copyToProto c cset).userId = cset.userId ∧
    (g.copyToProto c cset).historyId = cset.historyId
  remedy : ∀ c cset, (g.remedyCandidateWeight c cset).userId = cset.userId ∧
    (g.remedyCandidateWeight c cset).historyId = cset.historyId

theorem copyAll_base {g : Glue κ} (hg : g.KeepsBase) (cs : List κ) (a : CandidateSet × ℚ) :
    (copyAll g cs a).1.userId = a.1.userId ∧ (copyAll g cs a).1.historyId = a.1.historyId := by
  induction cs generalizing a with
  | nil => exact ⟨rfl, rfl⟩
  | cons c cs ih =>
    obtain ⟨hu, hh⟩ := ih (copyOne g a c)
    have hcopy := hg.copy c a.1
    have hremedy := hg.remedy c (g.copyToProto c a.1)
    exact ⟨hu.trans (hremedy.1.trans hcopy.1), hh.trans (hremedy.2.trans hcopy.2)⟩

theorem respond_base {g : Glue κ} (hg : g.KeepsBase) (served : List (Site × κ))
    (cset : CandidateSet) : (respond g served cset).userId = cset.userId ∧
      (respond g served cset).historyId = cset.historyId :=
  copyAll_base hg (served.map Prod.snd) (cset, 0)

/-- The response holds the user of the request and the ids in `set`, each once. -/
def CandidateSet.Headed (cset : CandidateSet) (recmd : Recommend) (set : List UInt64) : Prop :=
  cset.userId = recmd.userId ∧ ∀ id, cset.historyId.count id = if id ∈ set then 1 else 0

theorem respond_headed {g : Glue κ} (hg : g.KeepsBase) {recmd : Recommend} {ids : List UInt64}
    (hset : ids.Nodup) (served : List (Site × κ)) :
    (respond g served (setBase recmd ids .empty)).Headed recmd ids := by
  obtain ⟨hu, hh⟩ := respond_base hg served (setBase recmd ids .empty)
  have hids : (setBase recmd ids .empty).historyId = ids := List.nil_append ids
  refine ⟨hu, fun id => ?_⟩
  rw [hh, hids]
  split_ifs with hid
  · exact List.count_eq_one_of_mem hset hid
  · exact List.count_eq_zero_of_not_mem hid

/-- A subscription query that fails has not touched the response. -/
theorem subscription_failed {g : Glue κ} {t : Tables κ} {o : ModelOptions} {recmd : Recommend}
    {query : Query} {cset : CandidateSet}
    (h : (querySubscriptionCandidateSet g t o recmd query cset).status ≠ .ok) :
    (querySubscriptionCandidateSet g t o recmd query cset).cset = cset := by
  unfold querySubscriptionCandidateSet at h ⊢
  cases hn : normalSet g t recmd query with
  | error s => rfl
  | ok normal =>
    cases hh : history t recmd with
    | error s => rfl
    | ok ids =>
      simp only [hn, hh] at h
      exact absurd rfl h

/-- A recommendation that fails has not touched the response. -/
theorem recommendation_failed {g : Glue κ} {t : Tables κ} {o : ModelOptions} {recmd : Recommend}
    {query : Query} {cset : CandidateSet}
    (h : (queryRecommendationCandidateSet g t o recmd query cset).status ≠ .ok) :
    (queryRecommendationCandidateSet g t o recmd query cset).cset = cset := by
  unfold queryRecommendationCandidateSet at h ⊢
  cases hn : normalSet g t recmd query with
  | error s => rfl
  | ok normal =>
    cases hh : history t recmd with
    | error s => rfl
    | ok ids =>
      simp only [hn, hh] at h
      exact absurd rfl h

/-- A query that fails leaves the response as it was; one that succeeds on an empty
response sets its user and its history, of which the user table has each id once. -/
theorem response_head {g : Glue κ} (hg : g.KeepsBase) (t : Tables κ) (o : ModelOptions) (now : ℤ)
    (recmd : Recommend) (hset : (t.queryHistory recmd.userId).2.Nodup) :
    (∀ cset, (queryCandidateSet g t o now recmd cset).status ≠ .ok →
        (queryCandidateSet g t o now recmd cset).cset = cset) ∧
      ((queryCandidateSet g t o now recmd .empty).status = .ok →
        (queryCandidateSet g t o now recmd .empty).cset.Headed recmd
          (t.queryHistory recmd.userId).2) := by
  unfold queryCandidateSet
  by_cases hs : o.serviceType.val ≠ 0
  · simp only [if_pos hs]
    refine ⟨fun cset => subscription_failed, fun hok => ?_⟩
    obtain ⟨normal, ids, -, hh, heq⟩ := subscription_ok hok
    rw [heq, ← history_ok hh] at *
    exact respond_headed hg hset _
  · simp only [if_neg hs]
    refine ⟨fun cset => recommendation_failed, fun hok => ?_⟩
    obtain ⟨normal, ids, -, hh, heq⟩ := recommendation_ok hok
    rw [heq, ← history_ok hh] at *
    exact respond_headed hg hset _

def readTables : Tables UInt64 where
  queryCandidateSet := videoTables.queryCandidateSet
  filterCandidateSet := videoTables.filterCandidateSet
  queryHistory _ := (.ok, [21, 22])

theorem rowGlue_keepsBase : rowGlue.KeepsBase := by
  refine ⟨fun c cset => ⟨rfl, rfl⟩, fun c cset => ?_⟩
  by_cases hc : c = 11 <;> simp [rowGlue, hc]

theorem response_head_example :
    (∀ cset, (queryCandidateSet rowGlue readTables (.default ⟨i32 3⟩) 1000 wifiRequest
          cset).status ≠ .ok →
        (queryCandidateSet rowGlue readTables (.default ⟨i32 3⟩) 1000 wifiRequest cset).cset = cset) ∧
      (queryCandidateSet rowGlue readTables (.default ⟨i32 3⟩) 1000 wifiRequest
        .empty).cset.Headed wifiRequest [21, 22] := by
  have h := response_head rowGlue_keepsBase readTables (.default ⟨i32 3⟩) 1000 wifiRequest
    (by decide)
  exact ⟨h.1, h.2 rfl⟩

end PrimaryElection.Core
