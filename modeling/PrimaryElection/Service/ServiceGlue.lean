import PrimaryElection.Lib.CInt
import PrimaryElection.Lib.Runs
import PrimaryElection.Lib.Schedule

/-! The flush timer of the module, `init_module` and `persistent_library` of
service_glue.cpp. The next flush time and the clock are 32-bit fields, so the
schedule is followed as long as its instants fit. `ChronoExpr::next` is a
parameter, taken to give the first scheduled instant after its argument. -/

namespace PrimaryElection.Service

open CInt Runs Schedule

/-- The member of the glue that the timer uses. -/
structure ServiceGlue where
  nextFlushTime : ℤ
  deriving DecidableEq

/-- What a call of `persistent_library` meets: `time(NULL)` and whether
`CandidateDB::flush` succeeds. -/
structure Tick where
  time : ℤ
  flushed : Bool

/-- A flush for a scheduled instant, at the time of the call. -/
structure Flush where
  instant : ℤ
  time : ℤ
  deriving DecidableEq

namespace ServiceGlue

variable (next : ℤ → ℤ)

def initModule (start : ℤ) : ServiceGlue := ⟨toInt32 (next start)⟩

/-- One call, with the flush it makes, if any. -/
def persistentLibrary (s : ServiceGlue) (c : Tick) : Option (ServiceGlue × Option Flush) :=
  let ctime := toInt32 c.time
  if s.nextFlushTime < ctime then
    if c.flushed then some (⟨toInt32 (next s.nextFlushTime)⟩, some ⟨s.nextFlushTime, c.time⟩)
    -- LOG(FATAL) ends the process
    else none
  else some (s, none)

def flushes (os : List (Option Flush)) : List Flush := os.filterMap id

/-- The flushes made so far are those of the first scheduled instants after the
start, each after its instant has passed, and the member holds the first instant
that was not flushed yet. -/
structure OnSchedule (S : Set ℤ) (start : ℤ) (os : List (Option Flush)) (s : ServiceGlue) :
    Prop where
  progress : Progress S start ((flushes os).map Flush.instant) s.nextFlushTime
  passed : ∀ f ∈ flushes os, f.instant < f.time

/-- After `init_module` and after every call the flushes are on schedule. -/
def FollowsSchedule (S : Set ℤ) (start : ℤ) (calls : List Tick) : Prop :=
  Always (persistentLibrary next) (OnSchedule S start) (initModule next start) calls

/-- The instant fits in `next_flush_time_`. -/
def Fits (x : ℤ) : Prop := -2147483648 ≤ x ∧ x < 2147483648

instance (x : ℤ) : Decidable (Fits x) := inferInstanceAs (Decidable (_ ∧ _))

/-- A call that flushes reads a clock that has passed the stored instant also before
its conversion, and the instant after the stored one fits. -/
def InRange (s : ServiceGlue) (c : Tick) : Prop :=
  s.nextFlushTime < toInt32 c.time → c.flushed →
    s.nextFlushTime < c.time ∧ Fits (next s.nextFlushTime)

instance (s : ServiceGlue) (c : Tick) : Decidable (InRange next s c) :=
  inferInstanceAs (Decidable (_ → _ → _))

theorem toInt32_eq_iff {x : ℤ} : toInt32 x = x ↔ Fits x := by
  constructor
  · intro h
    have hr := toInt32_range x
    rwa [h] at hr
  · exact fun h => toInt32_eq h.1 h.2

/-- What a call does: nothing, or the flush of the stored instant. -/
theorem persistentLibrary_cases {next : ℤ → ℤ} {s s' : ServiceGlue} {c : Tick} {o : Option Flush}
    (h : persistentLibrary next s c = some (s', o)) :
    (toInt32 c.time ≤ s.nextFlushTime ∧ s' = s ∧ o = none) ∨ (s.nextFlushTime < toInt32 c.time ∧ c.flushed ∧
      s' = ⟨toInt32 (next s.nextFlushTime)⟩ ∧ o = some ⟨s.nextFlushTime, c.time⟩) := by
  simp only [persistentLibrary] at h
  split at h
  next hlt =>
    split at h
    next hok =>
      cases h
      exact .inr ⟨hlt, hok, rfl, rfl⟩
    next => cases h
  next hlt =>
    cases h
    exact .inl ⟨not_lt.mp hlt, rfl, rfl⟩

theorem flushes_concat_some (os : List (Option Flush)) (f : Flush) :
    flushes (os ++ [some f]) = flushes os ++ [f] := by simp [flushes]

theorem flushes_concat_none (os : List (Option Flush)) : flushes (os ++ [none]) = flushes os := by
  simp [flushes]

theorem OnSchedule.init {next : ℤ → ℤ} {S : Set ℤ} (h : Successor S next) {start : ℤ}
    (hf : Fits (next start)) : OnSchedule S start [] (initModule next start) := by
  refine ⟨?_, by simp [flushes]⟩
  rw [initModule, toInt32_eq_iff.mpr hf]
  exact Progress.init h start

/-- A call in range keeps to the schedule. -/
theorem OnSchedule.step {next : ℤ → ℤ} {S : Set ℤ} (h : Successor S next) {start : ℤ}
    {os : List (Option Flush)} {s s' : ServiceGlue} {c : Tick} {o : Option Flush}
    (hs : OnSchedule S start os s) (hr : InRange next s c)
    (hc : persistentLibrary next s c = some (s', o)) : OnSchedule S start (os ++ [o]) s' := by
  obtain ⟨-, rfl, rfl⟩ | ⟨hlt, hok, rfl, rfl⟩ := persistentLibrary_cases hc
  · refine ⟨?_, ?_⟩
    · rw [flushes_concat_none]
      exact hs.progress
    · rw [flushes_concat_none]
      exact hs.passed
  · obtain ⟨hpassed, hfits⟩ := hr hlt hok
    refine ⟨?_, ?_⟩
    · rw [flushes_concat_some, List.map_append, toInt32_eq_iff.mpr hfits]
      exact hs.progress.advance h
    · rw [flushes_concat_some]
      intro f hf
      rcases List.mem_append.mp hf with hf | hf
      · exact hs.passed f hf
      · rwa [List.mem_singleton.mp hf]

/-- A call out of range leaves the schedule. -/
theorem OnSchedule.not_step {next : ℤ → ℤ} {S : Set ℤ} (h : Successor S next) {start : ℤ}
    {os : List (Option Flush)} {s : ServiceGlue} {c : Tick} (hs : OnSchedule S start os s)
    (hr : ¬ InRange next s c) :
    ∃ s' o, persistentLibrary next s c = some (s', o) ∧ ¬ OnSchedule S start (os ++ [o]) s' := by
  unfold InRange at hr
  push Not at hr
  obtain ⟨hlt, hok, hr⟩ := hr
  refine ⟨⟨toInt32 (next s.nextFlushTime)⟩, some ⟨s.nextFlushTime, c.time⟩, ?_, ?_⟩
  · simp [persistentLibrary, hlt, hok]
  · rintro ⟨hprog, hpassed⟩
    rw [flushes_concat_some] at hprog hpassed
    have hp : s.nextFlushTime < c.time := hpassed ⟨s.nextFlushTime, c.time⟩ (by simp)
    rw [List.map_append] at hprog
    exact hr hp (toInt32_eq_iff.mp (hprog.unique (hs.progress.advance h)))

/-- From `init_module` on, the flushes follow the schedule exactly when its first
instant fits and every call is in range. -/
theorem followsSchedule_iff {next : ℤ → ℤ} {S : Set ℤ} (h : Successor S next) (start : ℤ)
    (calls : List Tick) :
    FollowsSchedule next S start calls ↔
      Fits (next start) ∧
        Along (persistentLibrary next) (InRange next) (initModule next start) calls := by
  have hrun (hf : Fits (next start)) :
      FollowsSchedule next S start calls ↔
        Along (persistentLibrary next) (InRange next) (initModule next start) calls :=
    always_iff_along (fun _ _ hs => hs) (fun _ _ _ _ _ hs hr hc => hs.step h hr hc)
      (fun _ _ _ hs hr => hs.not_step h hr) calls (OnSchedule.init h hf)
  constructor
  · intro hall
    -- no call yet: the stored instant is the first one after the start
    have h₀ : OnSchedule S start [] (initModule next start) := hall [] calls _ _ rfl rfl
    have hf : Fits (next start) :=
      toInt32_eq_iff.mp (h₀.progress.unique (Progress.init h start))
    exact ⟨hf, (hrun hf).mp hall⟩
  · rintro ⟨hf, halong⟩
    exact (hrun hf).mpr halong

/-- In a run on schedule, a call after an instant that is not flushed yet flushes one, the
first of them. -/
theorem late_flushed {next : ℤ → ℤ} {S : Set ℤ} {start : ℤ} {calls : List Tick} {c : Tick}
    (h : FollowsSchedule next S start (calls ++ [c])) (hfits : Fits c.time) {s s' : ServiceGlue}
    {os : List (Option Flush)} {o : Option Flush}
    (hrun : run (persistentLibrary next) (initModule next start) calls = some (s, os))
    (hc : persistentLibrary next s c = some (s', o)) {x : ℤ} (hS : x ∈ S) (hstart : start < x)
    (hlate : x < c.time) (hleft : x ∉ (flushes os).map Flush.instant) :
    ∃ f, o = some f ∧ f.time = c.time ∧
      IsLeast {y | y ∈ S ∧ start < y ∧ y ∉ (flushes os).map Flush.instant} f.instant := by
  have hfirst := (h calls [c] s os rfl hrun).progress.first
  rcases persistentLibrary_cases hc with ⟨hle, -, -⟩ | ⟨-, -, -, rfl⟩
  · have hx : s.nextFlushTime ≤ x := hfirst.2 ⟨hS, hstart, hleft⟩
    rw [toInt32_eq_iff.mpr hfits] at hle
    exact absurd (hx.trans_lt hlate) (not_lt.mpr hle)
  · exact ⟨_, rfl, rfl, hfirst⟩

/-- Every day at 23:00 UTC. -/
def daily (t : ℤ) : ℤ := t + 1 + (82799 - t) % 86400

theorem daily_successor : Successor {x | x % 86400 = 82800} daily := by
  intro t
  unfold daily
  refine ⟨⟨?_, by omega⟩, ?_⟩
  · show (t + 1 + (82799 - t) % 86400) % 86400 = 82800
    omega
  · rintro x ⟨hx, hlt⟩
    have : x % 86400 = 82800 := hx
    omega

/-- The clock stalls for three days: one flush at each call until the schedule is
caught up. -/
theorem followsSchedule_iff_example :
    FollowsSchedule daily {x | x % 86400 = 82800} 1000
      [⟨50000, true⟩, ⟨300000, true⟩, ⟨300060, true⟩, ⟨300120, true⟩, ⟨300180, true⟩] :=
  (followsSchedule_iff daily_successor 1000 _).mpr ⟨by decide, by decide⟩

/-- On the last day of the 32-bit clock the next instant wraps below zero, and the
call a few minutes later flushes it. -/
theorem last_day_not_followed :
    ¬ FollowsSchedule daily {x | x % 86400 = 82800} 2147483000 [⟨2147483600, true⟩] := by
  intro h
  have hrun : run (persistentLibrary daily) (initModule daily 2147483000) [⟨2147483600, true⟩] =
      some (⟨-2147389200⟩, [some ⟨-2147412496, 2147483600⟩]) := by
    decide
  have hf := (h [⟨2147483600, true⟩] [] _ _ rfl hrun).progress.scheduled (-2147412496) (by decide)
  exact absurd hf.2 (by decide)

end ServiceGlue

end PrimaryElection.Service
