import PrimaryElection.Core.Composition
import PrimaryElection.Lib.Rescale

/-! The weights of a response. The loops that copy candidates add up the weight that
each copy leaves last; the division afterwards runs over the whole array. Both skip
the sentinel -100000. In a response that starts empty they speak about the same
entries, so that the division is the one of the library. -/

namespace PrimaryElection.Core

open CInt Rescale

variable {κ : Type}

/-- Copying a candidate and adjusting its weight leaves one weight more. -/
def Glue.OnePower (g : Glue κ) : Prop :=
  ∀ c cset, ∃ p, (g.remedyCandidateWeight c (g.copyToProto c cset)).power = cset.power ++ [p]

/-- The weights of a response before they are divided: those after the candidates
served are copied behind the user and the history. -/
def undivided (g : Glue κ) (t : Tables κ) (recmd : Recommend) (r : Response κ) : List ℚ :=
  (copyAll g (r.served.map Prod.snd)
    (setBase recmd (t.queryHistory recmd.userId).2 .empty, 0)).1.power

/-- The response has a weight for each candidate served, and its weights are the
undivided ones rescaled. -/
def Response.Normalized (g : Glue κ) (t : Tables κ) (recmd : Recommend) (r : Response κ) : Prop :=
  (undivided g t recmd r).length = r.served.length ∧
    Uniform (-100000) (undivided g t recmd r) r.cset.power

theorem history_ok {t : Tables κ} {recmd : Recommend} {ids : List UInt64}
    (h : history t recmd = .ok ids) : ids = (t.queryHistory recmd.userId).2 := by
  unfold history at h
  dsimp only at h
  split_ifs at h
  exact (Except.ok.inj h).symm

theorem copyAll_power {g : Glue κ} (hg : g.OnePower) (cs : List κ) (a : CandidateSet × ℚ) :
    ∃ ps, ps.length = cs.length ∧ (copyAll g cs a).1.power = a.1.power ++ ps ∧
      (copyAll g cs a).2 = a.2 + total (-100000) ps := by
  induction cs generalizing a with
  | nil => exact ⟨[], rfl, by simp [copyAll], by simp [copyAll]⟩
  | cons c cs ih =>
    obtain ⟨p, hp⟩ := hg c a.1
    obtain ⟨ps, hlen, hpower, hsum⟩ := ih (copyOne g a c)
    have hstep : copyAll g (c :: cs) a = copyAll g cs (copyOne g a c) := rfl
    have hlast : (copyOne g a c).2 = a.2 + total (-100000) [p] := by
      unfold copyOne
      dsimp only
      rw [hp, List.getLastD_concat, total_singleton]
      split_ifs <;> simp
    refine ⟨p :: ps, by rw [List.length_cons, List.length_cons, hlen], ?_, ?_⟩
    · rw [hstep, hpower]
      unfold copyOne
      dsimp only
      rw [hp, List.append_assoc, List.singleton_append]
    · have hcons : total (-100000) (p :: ps) = total (-100000) [p] + total (-100000) ps :=
        total_append (-100000) [p] ps
      rw [hstep, hsum, hlast, hcons, add_assoc]

/-- The division is the guarded one of the library. -/
theorem normalize_power (totalWeight : ℚ) (cset : CandidateSet) :
    (normalize totalWeight cset).power =
      rescale (-100000) (if totalWeight ≤ 0 then 1 else totalWeight) cset.power := rfl

theorem respond_power {g : Glue κ} (hg : g.OnePower) (served : List (Site × κ))
    {cset : CandidateSet} (he : cset.power = []) :
    (copyAll g (served.map Prod.snd) (cset, 0)).1.power.length = served.length ∧
      Uniform (-100000) (copyAll g (served.map Prod.snd) (cset, 0)).1.power
        (respond g served cset).power := by
  obtain ⟨ps, hlen, hpower, hsum⟩ := copyAll_power hg (served.map Prod.snd) (cset, 0)
  have hps : (copyAll g (served.map Prod.snd) (cset, 0)).1.power = ps := by
    rw [hpower]
    exact congrArg (· ++ ps) he
  rw [hps]
  refine ⟨hlen.trans (List.length_map _), ?_⟩
  unfold respond
  dsimp only
  rw [normalize_power, hps, hsum, zero_add]
  exact uniform_rescale (-100000) ps

/-- Both queries end with the weights that the copies left, rescaled by one positive
number, the sentinel left alone. -/
theorem weights_normalized {g : Glue κ} (hg : g.OnePower) (t : Tables κ) (o : ModelOptions)
    (recmd : Recommend) (query : Query) :
    ((querySubscriptionCandidateSet g t o recmd query .empty).status = .ok →
        (querySubscriptionCandidateSet g t o recmd query .empty).Normalized g t recmd) ∧
      ((queryRecommendationCandidateSet g t o recmd query .empty).status = .ok →
        (queryRecommendationCandidateSet g t o recmd query .empty).Normalized g t recmd) := by
  constructor
  · intro hok
    obtain ⟨normal, ids, -, hh, heq⟩ := subscription_ok hok
    rw [heq, history_ok hh]
    exact respond_power hg _ rfl
  · intro hok
    obtain ⟨normal, ids, -, hh, heq⟩ := recommendation_ok hok
    rw [heq, history_ok hh]
    exact respond_power hg _ rfl

theorem rowGlue_onePower : rowGlue.OnePower := by
  intro c cset
  by_cases hc : c = 11
  · exact ⟨-100000, by simp [rowGlue, hc]⟩
  · exact ⟨2, by simp [rowGlue, hc]⟩

theorem weights_normalized_example :
    (querySubscriptionCandidateSet rowGlue videoTables (optionsWithMax (i32 3)) wifiRequest
        ⟨.normal, 0, 0, 0⟩ .empty).Normalized rowGlue videoTables wifiRequest ∧
      (queryRecommendationCandidateSet rowGlue videoTables (optionsWithMax (i32 3)) wifiRequest
        ⟨.normal, 0, 0, 0⟩ .empty).Normalized rowGlue videoTables wifiRequest := by
  have h := weights_normalized rowGlue_onePower videoTables (optionsWithMax (i32 3))
    wifiRequest ⟨.normal, 0, 0, 0⟩
  exact ⟨h.1 rfl, h.2 rfl⟩

end PrimaryElection.Core
