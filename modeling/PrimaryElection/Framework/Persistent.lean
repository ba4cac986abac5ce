import PrimaryElection.Framework.NumberText
import PrimaryElection.Lib.Runs

/-! The thread that makes the module persistent, `thread_persistent` in
CF_framework_module.h. The clock is a signed number and the stamp an unsigned one, so a
clock that is set back behind the stamp gives a difference that wraps; the interval in
seconds is a product in `int`. -/

namespace PrimaryElection.Framework.Persistent

open CInt Runs
open JsonText (decimal)

abbrev Time := {x : ℤ // -9223372036854775808 ≤ x ∧ x < 9223372036854775808}

/-- A signed value converted to `var_u8`. -/
def toU64 (x : ℤ) : UInt64 := UInt64.ofNat (toSize x)

/-- The stamp in memory and the file `md_persistent_flag`, if it is there. -/
structure State where
  saveTimeStamp : UInt64
  flag : Option (List UInt8)
  deriving DecidableEq

/-- What one round finds: the clock, the result of `persistent_library` if it is called,
and whether the flag file can be opened for writing. -/
structure Round where
  now : Time
  result : I32
  opened : Bool
  deriving DecidableEq

/-- A round that is over, with whether it has called `persistent_library`. -/
structure Visit extends Round where
  called : Bool
  deriving DecidableEq

def Visit.Saved (v : Visit) : Prop := v.called = true ∧ v.result.val = 0

instance (v : Visit) : Decidable v.Saved := inferInstanceAs (Decidable (_ ∧ _))

/-- `md_persistent_interval * 60`, compared as an unsigned number. -/
def period (interval : I32) : UInt64 := toU64 (toInt32 (interval.val * 60))

def step (interval : I32) (s : State) (r : Round) : Option (State × Visit) :=
  if toU64 r.now.val - s.saveTimeStamp < period interval then some (s, ⟨r, false⟩)
  else if r.result.val ≠ 0 then some (s, ⟨r, true⟩)
  else
    let now := toU64 r.now.val
    some (⟨now, if r.opened then some (decimal now.toNat) else s.flag⟩, ⟨r, true⟩)

/-- The clock at the last successful call, `stamp` before the first one. -/
def lastStamp (stamp : ℤ) (vs : List Visit) : ℤ :=
  vs.foldl (fun t v => if v.Saved then v.now.val else t) stamp

/-- The rounds `vs` have called `persistent_library` only when the interval had passed
since the stamp of the last successful call. That stamp is the one in memory, and the
one in the flag file if every write of it succeeded. -/
structure Respected (interval : I32) (stamp : ℤ) (vs : List Visit) (s : State) : Prop where
  spaced : ∀ us v ws, vs = us ++ v :: ws → v.called = true →
    interval.val * 60 ≤ v.now.val - lastStamp stamp us
  stamp : s.saveTimeStamp = toU64 (lastStamp stamp vs)
  flag : (∀ v ∈ vs, v.Saved → v.opened = true) → readStamp s.flag = some s.saveTimeStamp

def State.time (s : State) : ℤ := (s.saveTimeStamp.toNat : ℤ).bmod 18446744073709551616

/-- The clock is not behind the stamp, and an interval that wraps in the product has not
shortened the wait; or it is so far behind that the wrapped difference is below the
interval. -/
def OnTime (interval : I32) (s : State) (r : Round) : Prop :=
  if s.time ≤ r.now.val then
    r.now.val - s.time < (period interval).toNat ∨ interval.val * 60 ≤ r.now.val - s.time
  else 18446744073709551616 - (period interval).toNat < s.time - r.now.val

instance (interval : I32) (s : State) (r : Round) : Decidable (OnTime interval s r) :=
  inferInstanceAs (Decidable (ite _ _ _))

/-! ### Stamps -/

theorem toU64_toNat (x : ℤ) : (toU64 x).toNat = toSize x := by
  unfold toU64
  rw [UInt64.toNat_ofNat']
  unfold toSize
  omega

theorem toU64_sub (x y : ℤ) : (toU64 x - toU64 y).toNat = toSize (x - y) := by
  rw [UInt64.toNat_sub, toU64_toNat, toU64_toNat]
  unfold toSize
  omega

theorem time_eq {s : State} (t : Time) (h : s.saveTimeStamp = toU64 t.val) : s.time = t.val := by
  obtain ⟨t, h₁, h₂⟩ := t
  unfold State.time
  rw [h, toU64_toNat, Int.bmod_def]
  unfold toSize
  dsimp only
  split_ifs <;> omega

def Due (interval : I32) (s : State) (r : Round) : Prop :=
  ¬ toU64 r.now.val - s.saveTimeStamp < period interval

instance (interval : I32) (s : State) (r : Round) : Decidable (Due interval s r) :=
  inferInstanceAs (Decidable (¬ _))

/-- A round is on time exactly when the interval has passed if it is due. -/
theorem onTime_iff {interval : I32} {s : State} {r : Round} {t : Time} (hk : 0 < interval.val)
    (h : s.saveTimeStamp = toU64 t.val) :
    OnTime interval s r ↔ (Due interval s r → interval.val * 60 ≤ r.now.val - t.val) := by
  have hdue : Due interval s r ↔ (period interval).toNat ≤ toSize (r.now.val - t.val) := by
    unfold Due
    rw [UInt64.lt_iff_toNat_lt, h, toU64_sub, not_lt]
  have hperiod := (period interval).toNat_lt
  have hnow := r.now.property
  have hlast := t.property
  unfold OnTime
  rw [time_eq t h, hdue]
  generalize (period interval).toNat = p at *
  unfold toSize
  split_ifs with hle
  · omega
  · -- the difference wraps, and no interval has passed
    omega

/-- For an interval whose product does not wrap, and clocks that are not negative, a round
is on time exactly when the clock is not behind the stamp. -/
theorem onTime_iff_le {interval : I32} {s : State} {r : Round} (hk : 0 < interval.val)
    (hfit : interval.val * 60 < 2147483648) (hnow : 0 ≤ r.now.val) (hs : 0 ≤ s.time) :
    OnTime interval s r ↔ s.time ≤ r.now.val := by
  have hperiod : ((period interval).toNat : ℤ) = interval.val * 60 := by
    unfold period
    rw [toInt32_eq (by omega) hfit, toU64_toNat, toSize_eq (by omega) (by omega)]
  have htime : s.time < 9223372036854775808 := by
    unfold State.time
    have := Int.bmod_lt (x := s.saveTimeStamp.toNat) (m := 18446744073709551616) (by norm_num)
    norm_num at this
    exact this
  unfold OnTime
  split_ifs with hle
  · omega
  · omega

/-! ### Runs -/

theorem lastStamp_concat (stamp : ℤ) (vs : List Visit) (v : Visit) :
    lastStamp stamp (vs ++ [v]) = if v.Saved then v.now.val else lastStamp stamp vs := by
  unfold lastStamp
  rw [List.foldl_append, List.foldl_cons, List.foldl_nil]

theorem lastStamp_range (stamp : Time) (vs : List Visit) :
    -9223372036854775808 ≤ lastStamp stamp.val vs ∧ lastStamp stamp.val vs < 9223372036854775808 := by
  induction vs using List.reverseRecOn with
  | nil => exact stamp.property
  | append_singleton vs v ih =>
    rw [lastStamp_concat]
    split_ifs
    · exact v.now.property
    · exact ih

/-- What a round does: it is not due, its call fails, or its call succeeds. -/
theorem step_cases {interval : I32} {s s' : State} {r : Round} {v : Visit}
    (h : step interval s r = some (s', v)) :
    (¬ Due interval s r ∧ s' = s ∧ v = ⟨r, false⟩) ∨
      (Due interval s r ∧ r.result.val ≠ 0 ∧ s' = s ∧ v = ⟨r, true⟩) ∨
      (Due interval s r ∧ r.result.val = 0 ∧ v = ⟨r, true⟩ ∧
        s' = ⟨toU64 r.now.val,
          if r.opened then some (decimal (toU64 r.now.val).toNat) else s.flag⟩) := by
  unfold step at h
  split at h
  next hd =>
    cases h
    exact .inl ⟨not_not.mpr hd, rfl, rfl⟩
  next hd =>
    split at h
    next hr =>
      cases h
      exact .inr (.inl ⟨hd, hr, rfl, rfl⟩)
    next hr =>
      cases h
      exact .inr (.inr ⟨hd, not_not.mp hr, rfl, rfl⟩)

theorem step_some (interval : I32) (s : State) (r : Round) :
    ∃ s' v, step interval s r = some (s', v) ∧ v.toRound = r ∧
      (v.called = true ↔ Due interval s r) := by
  unfold step
  split
  next hd => exact ⟨_, _, rfl, rfl, by simpa [Due] using hd⟩
  next hd =>
    split
    · exact ⟨_, _, rfl, rfl, by simpa [Due] using hd⟩
    · exact ⟨_, _, rfl, rfl, by simpa [Due] using hd⟩

theorem Respected.init {interval : I32} {stamp : ℤ} {s : State} (h : s.saveTimeStamp = toU64 stamp)
    (hflag : readStamp s.flag = some s.saveTimeStamp) : Respected interval stamp [] s :=
  ⟨fun us v ws hv => by simp at hv, h, fun _ => hflag⟩

/-- A round that is on time keeps the law. -/
theorem Respected.step {interval : I32} {stamp : Time} {vs : List Visit} {s s' : State} {r : Round}
    {v : Visit} (hk : 0 < interval.val) (h : Respected interval stamp.val vs s)
    (ht : OnTime interval s r) (hs : step interval s r = some (s', v)) :
    Respected interval stamp.val (vs ++ [v]) s' := by
  have hdue := (onTime_iff (t := ⟨_, lastStamp_range stamp vs⟩) hk h.stamp).mp ht
  have hflag (hall : ∀ w ∈ vs ++ [v], w.Saved → w.opened = true) :
      readStamp s.flag = some s.saveTimeStamp :=
    h.flag fun w hw => hall w (List.mem_append_left _ hw)
  obtain ⟨hn, rfl, rfl⟩ | ⟨hd, hr, rfl, rfl⟩ | ⟨hd, hr, rfl, rfl⟩ := step_cases hs
  · refine ⟨forall_split_concat h.spaced (fun hc => by simp at hc), ?_, hflag⟩
    rw [lastStamp_concat, if_neg (by simp [Visit.Saved])]
    exact h.stamp
  · refine ⟨forall_split_concat h.spaced fun _ => hdue hd, ?_, hflag⟩
    rw [lastStamp_concat, if_neg (by simp [Visit.Saved, hr])]
    exact h.stamp
  · have hsaved : Visit.Saved ⟨r, true⟩ := ⟨rfl, hr⟩
    refine ⟨forall_split_concat h.spaced fun _ => hdue hd, ?_, fun hall => ?_⟩
    · rw [lastStamp_concat, if_pos hsaved]
    · have hopened : r.opened = true := hall ⟨r, true⟩ (by simp) hsaved
      rw [if_pos hopened]
      exact readStamp_written _

theorem Respected.broken {interval : I32} {stamp : Time} {vs : List Visit} {s : State} {r : Round}
    (hk : 0 < interval.val) (h : Respected interval stamp.val vs s) (ht : ¬ OnTime interval s r) :
    ∃ s' v, Persistent.step interval s r = some (s', v) ∧
      ¬ Respected interval stamp.val (vs ++ [v]) s' := by
  rw [onTime_iff (t := ⟨_, lastStamp_range stamp vs⟩) hk h.stamp, Classical.not_imp] at ht
  obtain ⟨s', v, hs, rfl, hcalled⟩ := step_some interval s r
  exact ⟨s', v, hs, fun hn => ht.2 (hn.spaced vs v [] rfl (hcalled.mpr ht.1))⟩

/-- The interval is respected throughout a run exactly when every round of it is on time. -/
theorem persistent_respected_iff {interval : I32} (hk : 0 < interval.val) {stamp : Time}
    {flag : Option (List UInt8)} (hflag : readStamp flag = some (toU64 stamp.val))
    (rounds : List Round) :
    Always (step interval) (Respected interval stamp.val) ⟨toU64 stamp.val, flag⟩ rounds ↔
      Along (step interval) (OnTime interval) ⟨toU64 stamp.val, flag⟩ rounds :=
  always_iff_along (fun _ _ h => h) (fun _ _ _ _ _ h ht hs => h.step hk ht hs)
    (fun _ _ _ h ht => h.broken hk ht) rounds (.init rfl hflag)

def minute : I32 := ⟨1, by decide⟩

def epoch : Time := ⟨0, by decide⟩

def savedAt (now : Time) : Round := ⟨now, ⟨0, by decide⟩, true⟩

theorem persistent_respected_iff_example :
    Always (step minute) (Respected minute epoch.val) ⟨toU64 epoch.val, none⟩
      [savedAt ⟨1000, by decide⟩, savedAt ⟨1030, by decide⟩, savedAt ⟨1070, by decide⟩] :=
  (persistent_respected_iff (by decide) rfl _).mpr (by decide +kernel)

/-- A clock that steps back by one second after a call makes the next call at once. -/
theorem clockBack_not_respected :
    ¬ Always (step minute) (Respected minute epoch.val) ⟨toU64 epoch.val, none⟩
      [savedAt ⟨1000, by decide⟩, savedAt ⟨999, by decide⟩] := by
  intro h
  have hrun : run (step minute) ⟨toU64 epoch.val, none⟩
      [savedAt ⟨1000, by decide⟩, savedAt ⟨999, by decide⟩] =
      some (⟨999, some (decimal 999)⟩,
        [⟨savedAt ⟨1000, by decide⟩, true⟩, ⟨savedAt ⟨999, by decide⟩, true⟩]) := by
    decide +kernel
  have hspaced := (h _ [] _ _ (List.append_nil _).symm hrun).spaced
    [⟨savedAt ⟨1000, by decide⟩, true⟩] ⟨savedAt ⟨999, by decide⟩, true⟩ [] rfl rfl
  exact absurd hspaced (by decide)

end PrimaryElection.Framework.Persistent
