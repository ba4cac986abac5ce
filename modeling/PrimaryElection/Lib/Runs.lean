import Mathlib.Tactic

/-! Runs of a partial step function with observations. `step s a` takes the label
`a` in the state `s` to a next state and an observation, or has no result. A run
collects the observations of its steps. An invariant may speak about the state
and everything observed so far; a condition that every step of a run meets is
stated with `Along`. -/

namespace PrimaryElection.Runs

variable {σ α ω : Type*} (step : σ → α → Option (σ × ω))

def run : σ → List α → Option (σ × List ω)
  | s, [] => some (s, [])
  | s, a :: as => (step s a).bind fun r => (run r.1 as).map fun q => (q.1, r.2 :: q.2)

/-- `P` holds of every state of the run with the label taken there. -/
def Along (P : σ → α → Prop) : σ → List α → Prop
  | _, [] => True
  | s, a :: as => P s a ∧ ∀ s' o, step s a = some (s', o) → Along P s' as

@[simp] theorem run_nil (s : σ) : run step s [] = some (s, []) := rfl

@[simp] theorem along_nil (P : σ → α → Prop) (s : σ) : Along step P s [] := trivial

instance decidableAlong {P : σ → α → Prop} [∀ s a, Decidable (P s a)] :
    ∀ (s : σ) (as : List α), Decidable (Along step P s as)
  | _, [] => isTrue trivial
  | s, a :: as =>
    match h : step s a with
    | none => decidable_of_iff (P s a) ⟨fun hp => ⟨hp, fun _ _ hs => nomatch h ▸ hs⟩, And.left⟩
    | some (s', _) =>
      have : Decidable (Along step P s' as) := decidableAlong s' as
      decidable_of_iff (P s a ∧ Along step P s' as)
        ⟨fun hp => ⟨hp.1, fun _ _ hs => by cases h.symm.trans hs; exact hp.2⟩,
          fun hp => ⟨hp.1, hp.2 _ _ h⟩⟩

variable {step}

theorem run_cons_iff {s t : σ} {a : α} {as : List α} {os : List ω} :
    run step s (a :: as) = some (t, os) ↔
      ∃ s' o os', step s a = some (s', o) ∧ run step s' as = some (t, os') ∧ os = o :: os' := by
  simp only [run, Option.bind_eq_some_iff, Option.map_eq_some_iff, Prod.mk.injEq, Prod.exists]
  constructor
  · rintro ⟨s', o, hs, t', os', hr, rfl, rfl⟩
    exact ⟨s', o, os', hs, hr, rfl⟩
  · rintro ⟨s', o, os', hs, hr, rfl⟩
    exact ⟨s', o, hs, t, os', hr, rfl, rfl⟩

theorem run_append_iff {s t : σ} {as bs : List α} {os : List ω} :
    run step s (as ++ bs) = some (t, os) ↔
      ∃ s' o₁ o₂, run step s as = some (s', o₁) ∧ run step s' bs = some (t, o₂) ∧ os = o₁ ++ o₂ := by
  induction as generalizing s os with
  | nil =>
    constructor
    · intro h; exact ⟨s, [], os, rfl, h, rfl⟩
    · rintro ⟨s', o₁, o₂, h₁, h₂, rfl⟩
      cases h₁
      exact h₂
  | cons a as ih =>
    rw [List.cons_append, run_cons_iff]
    constructor
    · rintro ⟨s', o, os', hs, hr, rfl⟩
      obtain ⟨u, o₁, o₂, h₁, h₂, rfl⟩ := ih.mp hr
      exact ⟨u, o :: o₁, o₂, run_cons_iff.mpr ⟨s', o, o₁, hs, h₁, rfl⟩, h₂, rfl⟩
    · rintro ⟨u, o₁, o₂, h₁, h₂, rfl⟩
      obtain ⟨s', o, os', hs, hr, rfl⟩ := run_cons_iff.mp h₁
      exact ⟨s', o, os' ++ o₂, hs, ih.mpr ⟨u, os', o₂, hr, h₂, rfl⟩, rfl⟩

theorem run_singleton_iff {s t : σ} {a : α} {os : List ω} :
    run step s [a] = some (t, os) ↔ ∃ o, step s a = some (t, o) ∧ os = [o] := by
  rw [run_cons_iff]
  constructor
  · rintro ⟨s', o, os', hs, hr, rfl⟩
    cases hr
    exact ⟨o, hs, rfl⟩
  · rintro ⟨o, hs, rfl⟩
    exact ⟨t, o, [], hs, rfl, rfl⟩

theorem run_concat {s t u : σ} {as : List α} {a : α} {os : List ω} {o : ω} (h : run step s as = some (t, os))
    (ha : step t a = some (u, o)) : run step s (as ++ [a]) = some (u, os ++ [o]) :=
  run_append_iff.mpr ⟨t, os, [o], h, run_singleton_iff.mpr ⟨o, ha, rfl⟩, rfl⟩

theorem run_length {s t : σ} {as : List α} {os : List ω} (h : run step s as = some (t, os)) :
    os.length = as.length := by
  induction as generalizing s os with
  | nil => cases h; rfl
  | cons a as ih =>
    obtain ⟨s', o, os', -, hr, rfl⟩ := run_cons_iff.mp h
    rw [List.length_cons, List.length_cons, ih hr]

/-! ### Invariants -/

/-- What every step meeting `P` preserves, the rest of a run along `P` preserves. -/
theorem run_invariant_from {P : σ → α → Prop} {I : List ω → σ → Prop}
    (hstep : ∀ os s a s' o, I os s → P s a → step s a = some (s', o) → I (os ++ [o]) s')
    {s t : σ} {as : List α} {os os' : List ω} (ha : Along step P s as) (hi : I os s)
    (h : run step s as = some (t, os')) : I (os ++ os') t := by
  induction as generalizing s os os' with
  | nil => cases h; simpa using hi
  | cons a as ih =>
    obtain ⟨s', o, os₁, hs, hr, rfl⟩ := run_cons_iff.mp h
    have hn := ih (ha.2 s' o hs) (hstep os s a s' o hi ha.1 hs) hr
    simpa using hn

theorem run_invariant_along {P : σ → α → Prop} {I : List ω → σ → Prop}
    (hstep : ∀ os s a s' o, I os s → P s a → step s a = some (s', o) → I (os ++ [o]) s')
    {s t : σ} {as : List α} {os : List ω} (ha : Along step P s as) (hi : I [] s)
    (h : run step s as = some (t, os)) : I os t := by
  simpa using run_invariant_from hstep ha hi h

theorem along_true (s : σ) (as : List α) : Along step (fun _ _ => True) s as := by
  induction as generalizing s with
  | nil => trivial
  | cons a as ih => exact ⟨trivial, fun s' _ _ => ih s'⟩

theorem run_invariant {I : List ω → σ → Prop}
    (hstep : ∀ os s a s' o, I os s → step s a = some (s', o) → I (os ++ [o]) s')
    {s t : σ} {as : List α} {os : List ω} (hi : I [] s) (h : run step s as = some (t, os)) :
    I os t :=
  run_invariant_along (P := fun _ _ => True) (fun os s a s' o hi _ hs => hstep os s a s' o hi hs)
    (along_true s as) hi h

/-- A run along a condition that enables every step is never stuck. -/
theorem run_some_along {P : σ → α → Prop} {I : σ → Prop}
    (hstep : ∀ s a, I s → P s a → ∃ s' o, step s a = some (s', o) ∧ I s')
    {s : σ} {as : List α} (ha : Along step P s as) (hi : I s) :
    ∃ t os, run step s as = some (t, os) ∧ I t := by
  induction as generalizing s with
  | nil => exact ⟨s, [], rfl, hi⟩
  | cons a as ih =>
    obtain ⟨s', o, hs, hi'⟩ := hstep s a hi ha.1
    obtain ⟨t, os, hr, ht⟩ := ih (ha.2 s' o hs) hi'
    exact ⟨t, o :: os, run_cons_iff.mpr ⟨s', o, os, hs, hr, rfl⟩, ht⟩

/-- Conditions that agree wherever the invariant holds agree along every run,
if the steps meeting the second condition preserve the invariant. -/
theorem along_iff {P Q : σ → α → Prop} {I : σ → Prop}
    (hinv : ∀ s a s' o, I s → Q s a → step s a = some (s', o) → I s')
    (hpq : ∀ s a, I s → (P s a ↔ Q s a)) {s : σ} (as : List α) (hi : I s) :
    Along step P s as ↔ Along step Q s as := by
  induction as generalizing s with
  | nil => exact Iff.rfl
  | cons a as ih =>
    constructor
    · rintro ⟨hp, hr⟩
      have hq := (hpq s a hi).mp hp
      exact ⟨hq, fun s' o hs => (ih (hinv s a s' o hi hq hs)).mp (hr s' o hs)⟩
    · rintro ⟨hq, hr⟩
      exact ⟨(hpq s a hi).mpr hq, fun s' o hs => (ih (hinv s a s' o hi hq hs)).mpr (hr s' o hs)⟩

/-- An invariant that gives `P` for the labels of a kind gives it along a run of them. -/
theorem along_of_forall {P : σ → α → Prop} {I : σ → Prop} {K : α → Prop}
    (hinv : ∀ s a s' o, I s → K a → step s a = some (s', o) → I s')
    (hp : ∀ s a, I s → K a → P s a) {s : σ} {as : List α} (hk : ∀ a ∈ as, K a) (hi : I s) :
    Along step P s as := by
  induction as generalizing s with
  | nil => trivial
  | cons a as ih =>
    obtain ⟨ha, has⟩ := List.forall_mem_cons.mp hk
    exact ⟨hp s a hi ha, fun s' o hs => ih has (hinv s a s' o hi ha hs)⟩

theorem Along.and {P Q : σ → α → Prop} {s : σ} {as : List α} (hp : Along step P s as)
    (hq : Along step Q s as) : Along step (fun s a => P s a ∧ Q s a) s as := by
  induction as generalizing s with
  | nil => trivial
  | cons a as ih =>
    exact ⟨⟨hp.1, hq.1⟩, fun s' o hs => ih (hp.2 s' o hs) (hq.2 s' o hs)⟩

/-! ### Every prefix of a run -/

theorem Along.left {P : σ → α → Prop} {s : σ} {as bs : List α} (h : Along step P s (as ++ bs)) :
    Along step P s as := by
  induction as generalizing s with
  | nil => trivial
  | cons a as ih => exact ⟨h.1, fun s' o hs => ih (h.2 s' o hs)⟩

/-- `G` holds after every beginning of a run. -/
def Always (step : σ → α → Option (σ × ω)) (G : List ω → σ → Prop) (s : σ) (as : List α) : Prop :=
  ∀ bs cs t os, as = bs ++ cs → run step s bs = some (t, os) → G os t

/-- If a condition keeps an invariant that gives `G`, and a step that violates it
is possible and breaks `G`, then `G` holds throughout a run exactly when the run
is along the condition. -/
theorem always_iff_along {P : σ → α → Prop} {I G : List ω → σ → Prop}
    (hgood : ∀ os s, I os s → G os s)
    (hkeep : ∀ os s a s' o, I os s → P s a → step s a = some (s', o) → I (os ++ [o]) s')
    (hbreak : ∀ os s a, I os s → ¬ P s a → ∃ s' o, step s a = some (s', o) ∧ ¬ G (os ++ [o]) s')
    {s : σ} (as : List α) (hi : I [] s) : Always step G s as ↔ Along step P s as := by
  constructor
  · intro hall
    have hfrom : ∀ bs cs t os, as = bs ++ cs → run step s bs = some (t, os) → I os t →
        Along step P t cs := by
      intro bs cs t os has hrun ht
      induction cs generalizing bs t os with
      | nil => trivial
      | cons a cs ih =>
        have hnext : ∀ t' o, step t a = some (t', o) →
            run step s (bs ++ [a]) = some (t', os ++ [o]) := fun t' o hs =>
          run_append_iff.mpr ⟨t, os, [o], hrun, run_singleton_iff.mpr ⟨o, hs, rfl⟩, rfl⟩
        have hP : P t a := by
          by_contra hn
          obtain ⟨t', o, hs, hG⟩ := hbreak os t a ht hn
          exact hG (hall (bs ++ [a]) cs t' _ (by simp [has]) (hnext t' o hs))
        exact ⟨hP, fun t' o hs => ih (bs ++ [a]) t' _ (by simp [has]) (hnext t' o hs)
          (hkeep os t a t' o ht hP hs)⟩
    exact hfrom [] as s [] rfl rfl hi
  · rintro halong bs cs t os rfl hrun
    exact hgood os t (run_invariant_along hkeep halong.left hi hrun)

/-- What an invariant gives for labels of a kind holds throughout a run of them. -/
theorem always_of_invariant {I G : List ω → σ → Prop} {K : α → Prop} (hgood : ∀ os s, I os s → G os s)
    (hkeep : ∀ os s a s' o, I os s → K a → step s a = some (s', o) → I (os ++ [o]) s')
    {s : σ} {as : List α} (hk : ∀ a ∈ as, K a) (hi : I [] s) : Always step G s as := by
  rintro bs cs t os rfl hrun
  have halong : Along step (fun _ a => K a) s bs :=
    along_of_forall (I := fun _ => True) (fun _ _ _ _ _ _ _ => trivial) (fun _ _ _ ha => ha)
      (fun a ha => hk a (List.mem_append_left _ ha)) trivial
  exact hgood os t (run_invariant_along hkeep halong hi hrun)

/-- What holds at each place of the observations so far, with those before it, holds at
each place after one more if it holds there. -/
theorem forall_split_concat {P : List ω → ω → Prop} {os : List ω} {o : ω}
    (h : ∀ us w ws, os = us ++ w :: ws → P us w) (ho : P os o) :
    ∀ us w ws, os ++ [o] = us ++ w :: ws → P us w := by
  intro us w ws hw
  induction ws using List.reverseRecOn with
  | nil =>
    obtain ⟨rfl, hlast⟩ := List.append_inj' hw rfl
    cases hlast
    exact ho
  | append_singleton ws u _ =>
    rw [← List.cons_append, ← List.append_assoc] at hw
    obtain ⟨rfl, -⟩ := List.append_inj' hw rfl
    exact h us w ws rfl

/-! ### Loops -/

theorem foldl_range_succ {τ : Type*} (f : τ → ℕ → τ) (t : τ) (n : ℕ) :
    (List.range (n + 1)).foldl f t = f ((List.range n).foldl f t) n := by
  rw [List.range_succ, List.foldl_append, List.foldl_cons, List.foldl_nil]

theorem foldlM_concat {β τ : Type} {f : τ → β → Option τ} {bs : List β} {b : β} {t t' u : τ}
    (h : bs.foldlM f t = some t') (hb : f t' b = some u) : (bs ++ [b]).foldlM f t = some u := by
  rw [List.foldlM_append, h]
  simp [hb]

end PrimaryElection.Runs
