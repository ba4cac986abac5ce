import PrimaryElection.Framework.CenterFlags

/-! How the threads of the center can wait for each other. A thread that puts a refill into
the full queue holds the flag of its user, and a refilling thread needs the flag of its
user before it comes back to the queue. So when every refilling thread needs the flag of a
user whose thread waits at the full queue, no list is refilled again. It takes one new user
with enough requests before the first of them is refilled. -/

namespace PrimaryElection.Framework.CenterThreads

open Runs Util Cache

variable {k : Center}

abbrev flushBuffer : Monitor.Buffer (Queue.QueueVL 100 12) Data := Queue.QueueVL.buffer 100 12

/-! ### Waiting -/

/-- The thread waits: for a task, for a flag, or asleep at the queue. -/
def Waits (s : State k) (t : k.Thread) : Prop :=
  match s.thread t with
  | .out => True
  | .flagging job => (s.flags.add job.uid k.noValue false).2 ≠ 0
  | .popping => s.flush.phase t = .popAsleep
  | .pushing uid log => s.flush.phase t = .pushAsleep (data uid log)
  | _ => False

structure Idle (s : State k) : Prop where
  process : ∀ p, s.thread (.inl p) = .out
  refill : ∀ f, s.thread (.inr f) = .popping ∧ s.flush.phase (.inr f) = .popAsleep

/-- A thread asleep at the full queue holds the flag of the user. -/
def Blocked (s : State k) (uid : Uid) : Prop :=
  ∃ t log, s.thread t = .pushing uid log ∧ s.flush.phase t = .pushAsleep (data uid log)

/-- Every refilling thread needs such a flag, and so does every thread that needs one. -/
structure Deadlocked (s : State k) : Prop where
  full : flushBuffer.size s.flush.buf = 100
  asleep : ∃ uid, Blocked s uid
  refill : ∀ f, ∃ uid lst, s.thread (.inr f) = .flagging (.refill uid lst) ∧ Blocked s uid
  process : ∀ p, s.thread (.inl p) = .out ∨
    (∃ uid log, s.thread (.inl p) = .pushing uid log ∧ s.flush.phase (.inl p) = .pushAsleep (data uid log)) ∨
    ∃ uid n log, s.thread (.inl p) = .flagging (.query uid n log) ∧ Blocked s uid

/-- The flags never fill up: a flag that is not free is held. -/
theorem Inv.flag_held {os : List Observed} {s : State k} (h : Inv os s) {uid : Uid}
    (hadd : (s.flags.add uid k.noValue false).2 ≠ 0) : uid ∈ s.flags.keys := by
  by_contra hnot
  have hnone : s.flags.lookup uid = none := by
    rw [HashTable.Table.mem_keys] at hnot
    exact Option.not_isSome_iff_eq_none.mp hnot
  have hcard := h.locks.card_le
  have hthreads := k.threads_lt
  rw [Fintype.card_sum, Fintype.card_fin, Fintype.card_fin] at hcard
  have hroom : s.flags.keys.card < k.flagSizes.maxKeyNum := by
    change _ < 18446744073709551615
    omega
  exact hadd (s.flags.add_absent _ _ hnone hroom).1

theorem add_of_mem {s : State k} {uid : Uid} (h : uid ∈ s.flags.keys) :
    (s.flags.add uid k.noValue false).2 ≠ 0 := by
  rw [(s.flags.add_present _ _ ((s.flags.mem_keys uid).mp h)).1]
  exact one_ne_zero

theorem Inv.blocked_mem {os : List Observed} {s : State k} (h : Inv os s) {uid : Uid} (hb : Blocked s uid) :
    uid ∈ s.flags.keys := by
  obtain ⟨t, log, ht, -⟩ := hb
  exact (h.locks.mem_iff uid).mpr ⟨t, by rw [holder, ht]; rfl⟩

/-- If all threads wait, a flag that is held is one of a thread asleep at the queue. -/
theorem Inv.blocked_of_mem {os : List Observed} {s : State k} (h : Inv os s) (hw : ∀ t, Waits s t) {uid : Uid}
    (huid : uid ∈ s.flags.keys) : Blocked s uid := by
  obtain ⟨t, ht⟩ := (h.locks.mem_iff uid).mp huid
  rw [holder] at ht
  have hwt := hw t
  unfold Waits at hwt
  cases hp : s.thread t with
  | pushing u log =>
    rw [hp] at ht hwt
    cases ht
    exact ⟨t, log, hp, hwt⟩
  | out | popping | working | flagging =>
    rw [hp] at ht
    cases ht
  | flagged | read | answered | leaving =>
    rw [hp] at hwt
    exact absurd hwt id

/-- A processing thread waits for a task, at the full queue or for a flag. -/
theorem Inv.process_waits {os : List Observed} {s : State k} (h : Inv os s) {p : Fin k.processThreadNum}
    (hw : Waits s (.inl p)) : s.thread (.inl p) = .out ∨
      (∃ uid log, s.thread (.inl p) = .pushing uid log ∧ s.flush.phase (.inl p) = .pushAsleep (data uid log)) ∨
      ∃ uid n log, s.thread (.inl p) = .flagging (.query uid n log) ∧ uid ∈ s.flags.keys := by
  have hkind := h.kind (.inl p)
  unfold Waits at hw
  cases hp : s.thread (.inl p) with
  | out => exact .inl rfl
  | pushing uid log =>
    rw [hp] at hw
    exact .inr (.inl ⟨uid, log, rfl, hw⟩)
  | flagging job =>
    rw [hp] at hw hkind
    cases job with
    | query uid n log => exact .inr (.inr ⟨uid, n, log, rfl, h.flag_held hw⟩)
    | refill => exact absurd hkind id
  | popping =>
    rw [hp] at hkind
    exact absurd hkind id
  | working | flagged | read | answered | leaving =>
    rw [hp] at hw
    exact absurd hw id

theorem Inv.refill_waits {os : List Observed} {s : State k} (h : Inv os s) {f : Fin k.updateThreadNum}
    (hw : Waits s (.inr f)) :
    (s.thread (.inr f) = .popping ∧ s.flush.phase (.inr f) = .popAsleep) ∨
      ∃ uid lst, s.thread (.inr f) = .flagging (.refill uid lst) ∧ uid ∈ s.flags.keys := by
  have hkind := h.kind (.inr f)
  unfold Waits at hw
  cases hp : s.thread (.inr f) with
  | popping =>
    rw [hp] at hw
    exact .inl ⟨rfl, hw⟩
  | flagging job =>
    rw [hp] at hw hkind
    cases job with
    | query => exact absurd hkind id
    | refill uid lst => exact .inr ⟨uid, lst, rfl, h.flag_held hw⟩
  | out | pushing =>
    rw [hp] at hkind
    exact absurd hkind id
  | working | flagged | read | answered | leaving =>
    rw [hp] at hw
    exact absurd hw id

/-- All threads of the center wait exactly when there is nothing to do or they wait for
each other. -/
theorem Inv.wait_iff {os : List Observed} {s : State k} (h : Inv os s) :
    (∀ t, Waits s t) ↔ Idle s ∨ Deadlocked s := by
  constructor
  · intro hw
    by_cases hsome : ∃ uid, uid ∈ s.flags.keys
    · obtain ⟨uid₀, huid₀⟩ := hsome
      have hblocked := h.blocked_of_mem hw huid₀
      have hfull : flushBuffer.size s.flush.buf = 100 := by
        obtain ⟨t, log, -, ht⟩ := hblocked
        exact h.awake.full t _ ht
      refine .inr ⟨hfull, ⟨uid₀, hblocked⟩, fun f => ?_, fun p => ?_⟩
      · rcases h.refill_waits (hw (.inr f)) with ⟨-, hasleep⟩ | ⟨uid, lst, hf, huid⟩
        · have hempty := h.awake.empty _ hasleep
          exact absurd (hfull.symm.trans hempty) (by decide)
        · exact ⟨uid, lst, hf, h.blocked_of_mem hw huid⟩
      · rcases h.process_waits (hw (.inl p)) with hout | hpush | ⟨uid, n, log, hp, huid⟩
        · exact .inl hout
        · exact .inr (.inl hpush)
        · exact .inr (.inr ⟨uid, n, log, hp, h.blocked_of_mem hw huid⟩)
    · -- without a flag nobody waits for one, and nobody is in `PushData`
      refine .inl ⟨fun p => ?_, fun f => ?_⟩
      · rcases h.process_waits (hw (.inl p)) with hout | ⟨uid, log, hp, -⟩ | ⟨uid, -, -, -, huid⟩
        · exact hout
        · exact absurd ⟨uid, (h.locks.mem_iff uid).mpr ⟨.inl p, by rw [holder, hp]; rfl⟩⟩ hsome
        · exact absurd ⟨uid, huid⟩ hsome
      · rcases h.refill_waits (hw (.inr f)) with hasleep | ⟨uid, -, -, huid⟩
        · exact hasleep
        · exact absurd ⟨uid, huid⟩ hsome
  · rintro (hi | hd)
    · rintro (p | f)
      · rw [Waits, hi.process p]
        trivial
      · rw [Waits, (hi.refill f).1]
        exact (hi.refill f).2
    · rintro (p | f)
      · rcases hd.process p with hp | ⟨uid, log, hp, hq⟩ | ⟨uid, n, log, hp, hb⟩
        · rw [Waits, hp]
          trivial
        · rw [Waits, hp]
          exact hq
        · rw [Waits, hp]
          exact add_of_mem (h.blocked_mem hb)
      · obtain ⟨uid, lst, hf, hb⟩ := hd.refill f
        rw [Waits, hf]
        exact add_of_mem (h.blocked_mem hb)

theorem threads_wait_iff (k : Center) (es : List (Event k)) :
    Always CenterThreads.step (fun _ s => (∀ t, Waits s t) ↔ Idle s ∨ Deadlocked s) (State.init k) es :=
  always_of_invariant (I := Inv) (K := fun _ => True) (fun _ _ h => h.wait_iff)
    (fun _ _ _ _ _ h _ hs => h.step hs) (fun _ _ => trivial) .init

/-! ### No way out -/

/-- The queue is full, and every refilling thread needs the flag of a user whose thread is
in `PushData`. -/
structure Lost (s : State k) : Prop where
  full : flushBuffer.size s.flush.buf = 100
  refill : ∀ f, ∃ uid lst t log, s.thread (.inr f) = .flagging (.refill uid lst) ∧
    s.thread t = .pushing uid log

theorem Deadlocked.lost {s : State k} (h : Deadlocked s) : Lost s := by
  refine ⟨h.full, fun f => ?_⟩
  obtain ⟨uid, lst, hf, t, log, ht, -⟩ := h.refill f
  exact ⟨uid, lst, t, log, hf, ht⟩

def Observed.IsPut : Observed → Prop
  | called _ (.put _ _) _ => True
  | _ => False

/-- Nothing is refilled any more, and who is in `PushData` does not come out. -/
structure Stays (s s' : State k) : Prop where
  lost : Lost s'
  pushing : ∀ t uid log, s.thread t = .pushing uid log → s'.thread t = .pushing uid log

/-- Only the thread of an event moves, and it stays where it is if it waits for ever. -/
theorem Lost.of_frame {s s' : State k} (h : Lost s) (hbuf : s'.flush.buf = s.flush.buf)
    (hf : ∀ f, s'.thread (.inr f) = s.thread (.inr f))
    (hp : ∀ t uid log, s.thread t = .pushing uid log → s'.thread t = .pushing uid log) : Stays s s' := by
  refine ⟨⟨by rw [hbuf, h.full], fun f => ?_⟩, hp⟩
  obtain ⟨uid, lst, t, log, hr, ht⟩ := h.refill f
  exact ⟨uid, lst, t, log, by rw [hf, hr], hp t uid log ht⟩

/-- A thread that is not in `PushData` goes on. -/
theorem Lost.set {s s' : State k} (h : Lost s) {p : Fin k.processThreadNum} {q : Phase}
    (hs : ∀ uid log, s.thread (.inl p) ≠ .pushing uid log) (hbuf : s'.flush.buf = s.flush.buf)
    (hthread : s'.thread = Function.update s.thread (.inl p) q) : Stays s s' := by
  refine h.of_frame hbuf (fun f => ?_) fun t uid log ht => ?_
  · rw [hthread, Function.update_of_ne (by simp)]
  · rw [hthread, Function.update_of_ne]
    · exact ht
    · rintro rfl
      exact hs uid log ht

theorem Lost.refill_stuck {os : List Observed} {s : State k} (h : Lost s) (hi : Inv os s)
    (f : Fin k.updateThreadNum) : ∃ job, s.thread (.inr f) = .flagging job ∧
      (s.flags.add job.uid k.noValue false).2 ≠ 0 := by
  obtain ⟨uid, lst, t, log, hf, ht⟩ := h.refill f
  exact ⟨_, hf, add_of_mem ((hi.locks.mem_iff uid).mpr ⟨t, by rw [holder, ht]; rfl⟩)⟩

/-- The refilling threads wait for their flags: any other thread processes requests. -/
theorem Lost.process_of_ne {s : State k} (h : Lost s) {t : k.Thread} {q : Phase} (ht : s.thread t = q)
    (hne : ∀ job, q ≠ .flagging job) : ∃ p, t = .inl p := by
  cases t with
  | inl p => exact ⟨p, rfl⟩
  | inr f =>
    obtain ⟨uid, lst, -, -, hf, -⟩ := h.refill f
    exact absurd (ht.symm.trans hf) (hne _)

/-- No thread goes on with a refill. -/
theorem Lost.no_refill {os : List Observed} {s : State k} (h : Lost s) (hi : Inv os s) {t : k.Thread} {q : Phase}
    (ht : s.thread t = q) (hne : ∀ job, q ≠ .flagging job)
    (hq : ∀ p : Fin k.processThreadNum, ¬ q.Of (.inl p : k.Thread)) : False := by
  obtain ⟨p, rfl⟩ := h.process_of_ne ht hne
  have hkind := hi.kind (.inl p)
  rw [ht] at hkind
  exact hq p hkind

/-- A thread in a queue that is full stays there. -/
theorem Lost.step_queue {os : List Observed} {s s' : State k} {o : Observed} (h : Lost s) (hi : Inv os s)
    {t : k.Thread} (hs : step s (.queue t) = some (s', o)) : Stays s s' ∧ o = .silent := by
  obtain ⟨⟨m, o'⟩, hm, hq⟩ := Option.map_eq_some_iff.mp hs
  have hin := hi.queue t
  obtain ⟨x, ht, ⟨-, rfl, rfl⟩ | ⟨b, hput, rfl, rfl⟩⟩ | ⟨ht, -⟩ := Monitor.enter_cases hm
  · cases hq
    exact ⟨h.of_frame rfl (fun _ => rfl) fun _ _ _ hp => hp, rfl⟩
  · have hsize : flushBuffer.size b = flushBuffer.size s.flush.buf + 1 := Monitor.Buffer.size_put hput
    have hle : flushBuffer.size b ≤ 100 := flushBuffer.size_le b
    rw [hsize, h.full] at hle
    exact absurd hle (by decide)
  · rw [ht] at hin
    exact (h.no_refill hi hin.popping_eq (by simp) fun _ hc => hc).elim

theorem Lost.step {os : List Observed} {s s' : State k} {e : Event k} {o : Observed} (h : Lost s)
    (hi : Inv os s) (hs : CenterThreads.step s e = some (s', o)) : Stays s s' ∧ ¬ o.IsPut := by
  cases e with
  | query p uid requestNum log =>
    simp only [CenterThreads.step] at hs
    split at hs
    next ht =>
      cases hs
      exact ⟨h.set (by simp [ht]) rfl rfl, id⟩
    next => cases hs
  | flag t =>
    simp only [CenterThreads.step] at hs
    split at hs
    next job ht =>
      split_ifs at hs with hadd
      cases hs
      cases t with
      | inl p => exact ⟨h.set (by simp [ht]) rfl rfl, id⟩
      | inr f =>
        obtain ⟨job', hf, hstuck⟩ := h.refill_stuck hi f
        cases ht.symm.trans hf
        exact absurd (not_not.mp hadd) hstuck
    next => cases hs
  | read t =>
    simp only [CenterThreads.step] at hs
    split at hs
    next ht =>
      cases hs
      obtain ⟨p, rfl⟩ := h.process_of_ne ht (by simp)
      exact ⟨h.set (by simp [ht]) rfl rfl, id⟩
    next => cases hs
  | answer t e =>
    simp only [CenterThreads.step] at hs
    split at hs
    next ht =>
      obtain ⟨r, hr, hq⟩ := Option.map_eq_some_iff.mp hs
      cases hq
      obtain ⟨p, rfl⟩ := h.process_of_ne ht (by simp)
      exact ⟨h.set (by simp [ht]) rfl rfl, id⟩
    next => cases hs
  | goOn t =>
    simp only [CenterThreads.step] at hs
    split at hs
    next ht =>
      obtain ⟨p, rfl⟩ := h.process_of_ne ht (by simp)
      split_ifs at hs
      · obtain ⟨⟨m, o'⟩, hm, hq⟩ := Option.map_eq_some_iff.mp hs
        cases hq
        simp only [Monitor.step] at hm
        split_ifs at hm
        cases hm
        exact ⟨h.set (by simp [ht]) rfl rfl, id⟩
      · cases hs
        exact ⟨h.set (by simp [ht]) rfl rfl, id⟩
    next => cases hs
  | queue t =>
    obtain ⟨hl, rfl⟩ := h.step_queue hi hs
    exact ⟨hl, id⟩
  | spurious t =>
    obtain ⟨⟨m, o'⟩, hm, hq⟩ := Option.map_eq_some_iff.mp hs
    cases hq
    have hbuf : m.buf = s.flush.buf := by
      simp only [Monitor.step] at hm
      split at hm
      next => cases hm; rfl
      next => cases hm; rfl
      next => cases hm
    exact ⟨h.of_frame hbuf (fun _ => rfl) fun _ _ _ hp => hp, id⟩
  | leave t =>
    simp only [CenterThreads.step] at hs
    split at hs
    next ht =>
      obtain ⟨s₁, hback, hq⟩ := Option.map_eq_some_iff.mp hs
      cases hq
      obtain ⟨p, rfl⟩ := h.process_of_ne ht (by simp)
      cases hback
      exact ⟨h.set (by simp [ht]) rfl rfl, id⟩
    next => cases hs
  | fail t =>
    simp only [CenterThreads.step] at hs
    split at hs
    next ht => exact (h.no_refill hi ht (by simp) fun _ hc => hc).elim
    next => cases hs
  | list t lst =>
    simp only [CenterThreads.step] at hs
    split at hs
    next ht => exact (h.no_refill hi ht (by simp) fun _ hc => hc).elim
    next => cases hs
  | put t e =>
    simp only [CenterThreads.step] at hs
    split at hs
    next ht => exact (h.no_refill hi ht (by simp) fun _ hc => hc).elim
    next => cases hs

/-- Whatever the threads do from then on, no list is put. -/
theorem Lost.run {s s' : State k} {es : List (Event k)} {os os' : List Observed} (hi : Inv os s) (h : Lost s)
    (hr : Runs.run CenterThreads.step s es = some (s', os')) : Stays s s' ∧ ∀ o ∈ os', ¬ o.IsPut := by
  induction es generalizing s os os' with
  | nil =>
    cases hr
    exact ⟨⟨h, fun _ _ _ ht => ht⟩, (by simp)⟩
  | cons e es ih =>
    obtain ⟨s₁, o, os₁, hs, hrest, rfl⟩ := run_cons_iff.mp hr
    obtain ⟨hl, ho⟩ := h.step hi hs
    obtain ⟨hl', hos⟩ := ih (hi.step hs) hl.lost hrest
    refine ⟨⟨hl'.lost, fun t uid log ht => hl'.pushing t uid log (hl.pushing t uid log ht)⟩, fun q hq => ?_⟩
    rcases List.mem_cons.mp hq with rfl | hq
    · exact ho
    · exact hos q hq

/-! ### The way in -/

/-- The threads when the one of `q` is in `PushData` and `i` refilling threads need the
flag of its user. -/
def phases (k : Center) (uid : Uid) (q : Option (Fin k.processThreadNum)) (i : ℕ) : k.Thread → Phase :=
  Sum.elim (fun p => if q = some p then .pushing uid 0 else .out)
    fun f => if f.val < i then .flagging (.refill uid []) else .popping

def queuePhases (k : Center) (uid : Uid) (q : Option (Fin k.processThreadNum)) (i : ℕ) :
    k.Thread → Monitor.Phase Data :=
  Sum.elim (fun p => if q = some p then .pushing (data uid 0) else .out)
    fun f => if f.val < i then .out else .popping

/-- A user without an entry has asked, and `j` refills are in the queue. -/
structure Stage (uid : Uid) (q : Option (Fin k.processThreadNum)) (i j : ℕ) (s : State k) : Prop where
  flags : s.flags.keys = if q = none then ∅ else {uid}
  table : s.table uid = none
  thread : s.thread = phases k uid q i
  phase : s.flush.phase = queuePhases k uid q i
  contents : flushBuffer.contents s.flush.buf = List.replicate j (data uid 0)

theorem Stage.init (uid : Uid) : Stage uid none 0 0 (State.init k) := by
  refine ⟨HashTable.Table.keys_empty, rfl, ?_, ?_, rfl⟩
  · funext t
    cases t <;> rfl
  · funext t
    cases t <;> rfl

theorem update_inl {A : Type} {g : Fin k.processThreadNum → A} {h : Fin k.updateThreadNum → A}
    {g' : Fin k.processThreadNum → A} {p : Fin k.processThreadNum} {a : A} (hp : g' p = a)
    (hne : ∀ r, r ≠ p → g' r = g r) :
    Function.update (Sum.elim g h : k.Thread → A) (.inl p) a = Sum.elim g' h := by
  funext t
  rcases t with r | f
  · by_cases hr : r = p
    · subst hr
      rw [Function.update_self, Sum.elim_inl, hp]
    · rw [Function.update_of_ne (by simpa using hr), Sum.elim_inl, Sum.elim_inl, hne r hr]
  · rw [Function.update_of_ne (by simp), Sum.elim_inr, Sum.elim_inr]

theorem update_inr {A : Type} {g : Fin k.processThreadNum → A} {h h' : Fin k.updateThreadNum → A}
    {f : Fin k.updateThreadNum} {a : A} (hf : h' f = a) (hne : ∀ r, r ≠ f → h' r = h r) :
    Function.update (Sum.elim g h : k.Thread → A) (.inr f) a = Sum.elim g h' := by
  funext t
  rcases t with p | r
  · rw [Function.update_of_ne (by simp), Sum.elim_inl, Sum.elim_inl]
  · by_cases hr : r = f
    · subst hr
      rw [Function.update_self, Sum.elim_inr, hf]
    · rw [Function.update_of_ne (by simpa using hr), Sum.elim_inr, Sum.elim_inr, hne r hr]

/-- The user asks: the thread has the flag, finds no entry and goes to the queue. -/
theorem Stage.ask {uid : Uid} {i j : ℕ} {s : State k} (h : Stage uid none i j s)
    (p : Fin k.processThreadNum) (e : Env) : ∃ s' os, Runs.run CenterThreads.step s
      [.query p uid 1 0, .flag (.inl p), .read (.inl p), .answer (.inl p) e, .goOn (.inl p)] = some (s', os) ∧
      Stage uid (some p) i j s' := by
  have hout : s.thread (.inl p) = .out := by
    rw [h.thread]
    rfl
  have hqueue : s.flush.phase (.inl p) = .out := by
    rw [h.phase]
    rfl
  have hnone : s.flags.lookup uid = none := by
    rw [← Option.not_isSome_iff_eq_none, ← HashTable.Table.mem_keys, h.flags]
    simp
  have hroom : s.flags.keys.card < k.flagSizes.maxKeyNum := by
    rw [h.flags]
    exact Nat.zero_lt_succ _
  obtain ⟨flags, hadd, -, hkeys, -⟩ := s.flags.add_new (k.noValue : HashTable.Value k.flagSizes) false hnone hroom
  have hflush : flushes (-1) = true := rfl
  refine ⟨{ s.set (.inl p) (.pushing uid 0) with
    flags := flags, flush := s.flush.move (.inl p) (.pushing (data uid 0)) },
    [.silent, .silent, .silent, .called uid (.get (CacheBounds.cappedRequest 1) e) ⟨-1, []⟩, .silent],
    ?_, ?_, ?_, ?_, ?_, ?_⟩
  · simp only [Runs.run, CenterThreads.step, hout, if_pos, Job.uid, hadd, ne_eq, not_true_eq_false,
      if_false, Option.bind_some, State.set, Function.update_self, h.table, respond, Option.map_some, store,
      hflush, Monitor.step, hqueue, Function.update_idem]
  · rw [if_neg (by simp)]
    change flags.keys = _
    rw [hkeys, h.flags, if_pos rfl]
    rfl
  · exact h.table
  · change Function.update s.thread (.inl p) (.pushing uid 0) = _
    rw [h.thread]
    refine update_inl (if_pos rfl) fun r hr => ?_
    rw [if_neg (by simpa using Ne.symm hr), if_neg (by simp)]
  · change Function.update s.flush.phase (.inl p) (.pushing (data uid 0)) = _
    rw [h.phase]
    refine update_inl (if_pos rfl) fun r hr => ?_
    rw [if_neg (by simpa using Ne.symm hr), if_neg (by simp)]
  · exact h.contents

theorem wake_queuePhases (uid : Uid) (q : Option (Fin k.processThreadNum)) (i : ℕ) (t : k.Thread) :
    (queuePhases k uid q i t).wake = queuePhases k uid q i t := by
  rcases t with p | f
  · change (if _ then _ else _ : Monitor.Phase Data).wake = if _ then _ else _
    split_ifs <;> rfl
  · change (if _ then _ else _ : Monitor.Phase Data).wake = if _ then _ else _
    split_ifs <;> rfl

/-- A thread leaves the queue, and nobody was asleep. -/
theorem Stage.leave_phase {uid : Uid} {q : Option (Fin k.processThreadNum)} {i j : ℕ} {s : State k}
    (h : Stage uid q i j s) (t : k.Thread) (b : Queue.QueueVL 100 12) (broadcast : Prop) [Decidable broadcast] :
    (s.flush.leave t b broadcast).phase = Function.update (queuePhases k uid q i) t .out := by
  funext u
  rw [Monitor.State.phase_leave, Function.update_apply, h.phase]
  split_ifs
  · rfl
  · exact wake_queuePhases uid q i u
  · rfl

/-- While there is room, the record goes into the queue and the thread back to its tasks. -/
theorem Stage.enqueue {uid : Uid} {p : Fin k.processThreadNum} {i j : ℕ} {s : State k}
    (h : Stage uid (some p) i j s) (hj : j < 100) : ∃ s' os, Runs.run CenterThreads.step s
      [.queue (.inl p), .leave (.inl p)] = some (s', os) ∧ Stage uid none i (j + 1) s' := by
  have hthread : s.thread (.inl p) = .pushing uid 0 := by
    rw [h.thread]
    exact if_pos rfl
  have hqueue : s.flush.phase (.inl p) = .pushing (data uid 0) := by
    rw [h.phase]
    exact if_pos rfl
  obtain ⟨b, hput⟩ : ∃ b, flushBuffer.put s.flush.buf (data uid 0) = some b := by
    refine Option.ne_none_iff_exists'.mp fun hnone => ?_
    have hfull : flushBuffer.size s.flush.buf = 100 := flushBuffer.put_none _ _ hnone
    rw [← flushBuffer.length_contents, h.contents, List.length_replicate] at hfull
    omega
  have hkeys := h.flags
  rw [if_neg (by simp)] at hkeys
  have hmem : uid ∈ s.flags.keys := by
    rw [hkeys]
    exact Finset.mem_singleton_self uid
  obtain ⟨hcode, hdel⟩ := keys_delFlag hmem
  refine ⟨{ s.set (.inl p) .out with
    flags := (s.flags.del uid).1, flush := s.flush.leave (.inl p) b (flushBuffer.size b = 1) },
    [.silent, .deleted (s.flags.del uid).2], ?_, ?_, ?_, ?_, ?_, ?_⟩
  · simp only [Runs.run, CenterThreads.step, hthread, Monitor.step, hqueue, hput, Option.map_some,
      Option.bind_some, State.set, Function.update_self, goBack, Function.update_idem]
  · rw [if_pos rfl]
    change (s.flags.del uid).1.keys = ∅
    rw [hdel, hkeys, Finset.erase_singleton]
  · exact h.table
  · change Function.update s.thread (.inl p) .out = _
    rw [h.thread]
    refine update_inl (if_neg (by simp)) fun r hr => ?_
    rw [if_neg (by simp), if_neg (by simpa using Ne.symm hr)]
  · change (s.flush.leave (.inl p) b (flushBuffer.size b = 1)).phase = _
    rw [h.leave_phase]
    refine update_inl (if_neg (by simp)) fun r hr => ?_
    rw [if_neg (by simp), if_neg (by simpa using Ne.symm hr)]
  · change flushBuffer.contents b = _
    rw [flushBuffer.contents_put _ _ _ hput, h.contents, List.replicate_succ']

theorem dataUid_data (uid : Uid) (log : ℤ) : dataUid (data uid log) = uid := by
  rw [dataUid, data, Bytes.take_word8_append, Bytes.word8Val_word8]

/-- The next refilling thread takes a record and comes back for the flag. -/
theorem Stage.take {uid : Uid} {f : Fin k.updateThreadNum} {j : ℕ} {s : State k}
    (h : Stage uid none f.val (j + 1) s) : ∃ s' os, Runs.run CenterThreads.step s
      [.queue (.inr f), .list (.inr f) []] = some (s', os) ∧ Stage uid none (f.val + 1) j s' := by
  have hqueue : s.flush.phase (.inr f) = .popping := by
    rw [h.phase]
    exact if_neg (lt_irrefl _)
  obtain ⟨⟨x, b⟩, htake⟩ : ∃ r, flushBuffer.take s.flush.buf = some r := by
    refine Option.ne_none_iff_exists'.mp fun hnone => ?_
    have hempty : flushBuffer.size s.flush.buf = 0 := flushBuffer.take_none _ hnone
    rw [← flushBuffer.length_contents, h.contents, List.length_replicate] at hempty
    omega
  have hcontents := flushBuffer.contents_take _ _ _ htake
  rw [h.contents, List.replicate_succ] at hcontents
  obtain ⟨hx, hb⟩ := List.cons.inj hcontents
  have hnext : ∀ r : Fin k.updateThreadNum, r ≠ f → (r.val < f.val + 1 ↔ r.val < f.val) := by
    intro r hr
    have := Fin.val_ne_of_ne hr
    omega
  refine ⟨{ s.set (.inr f) (.flagging (.refill uid [])) with
    flush := s.flush.leave (.inr f) b (flushBuffer.size b + 1 = flushBuffer.capacity) },
    [.silent, .silent], ?_, h.flags, h.table, ?_, ?_, hb.symm⟩
  · simp only [Runs.run, CenterThreads.step, Monitor.step, hqueue, htake, Option.map_some, Option.bind_some,
      State.set, Function.update_self, Function.update_idem, ← hx, dataUid_data]
  · change Function.update s.thread (.inr f) (.flagging (.refill uid [])) = _
    rw [h.thread]
    refine update_inr (if_pos (Nat.lt_succ_self _)) fun r hr => ?_
    simp only [hnext r hr]
  · change (s.flush.leave (.inr f) b _).phase = _
    rw [h.leave_phase]
    refine update_inr (if_pos (Nat.lt_succ_self _)) fun r hr => ?_
    simp only [hnext r hr]

def Event.OfUser (uid : Uid) : Event k → Prop
  | .query _ u _ _ => u = uid
  | _ => True

def Reachable (uid : Uid) (s : State k) : Prop :=
  ∃ es os, Runs.run CenterThreads.step (State.init k) es = some (s, os) ∧ ∀ e ∈ es, e.OfUser uid

theorem Reachable.run {uid : Uid} {s s' : State k} {es : List (Event k)} {os : List Observed}
    (h : Reachable uid s) (hr : Runs.run CenterThreads.step s es = some (s', os)) (hes : ∀ e ∈ es, e.OfUser uid) :
    Reachable uid s' := by
  obtain ⟨es₀, os₀, h₀, hes₀⟩ := h
  refine ⟨es₀ ++ es, os₀ ++ os, run_append_iff.mpr ⟨s, os₀, os, h₀, hr, rfl⟩, fun e he => ?_⟩
  rcases List.mem_append.mp he with he | he
  · exact hes₀ e he
  · exact hes e he

theorem Stage.reach_ask {uid : Uid} (p : Fin k.processThreadNum) (e : Env) {i j : ℕ} {s : State k}
    (h : Stage uid none i j s) (hr : Reachable uid s) :
    ∃ s' : State k, Reachable uid s' ∧ Stage uid (some p) i j s' := by
  obtain ⟨s', os, h', hs'⟩ := h.ask p e
  exact ⟨s', hr.run h' (by simp [Event.OfUser]), hs'⟩

theorem Stage.request {uid : Uid} (p : Fin k.processThreadNum) (e : Env) {i j : ℕ} {s : State k}
    (h : Stage uid none i j s) (hr : Reachable uid s) (hj : j < 100) :
    ∃ s' : State k, Reachable uid s' ∧ Stage uid none i (j + 1) s' := by
  obtain ⟨s₁, hr₁, hs₁⟩ := h.reach_ask p e hr
  obtain ⟨s₂, os₂, h₂, hs₂⟩ := hs₁.enqueue hj
  exact ⟨s₂, hr₁.run h₂ (by simp [Event.OfUser]), hs₂⟩

/-- The queue is full, and every refilling thread and a thread asleep in `PushData` are on
the user. -/
structure Jammed (p : Fin k.processThreadNum) (uid : Uid) (s : State k) : Prop where
  contents : flushBuffer.contents s.flush.buf = List.replicate 100 (data uid 0)
  refill : ∀ f, s.thread (.inr f) = .flagging (.refill uid [])
  thread : s.thread (.inl p) = .pushing uid 0
  phase : s.flush.phase (.inl p) = .pushAsleep (data uid 0)

theorem Jammed.lost {p : Fin k.processThreadNum} {uid : Uid} {s : State k} (h : Jammed p uid s) : Lost s := by
  refine ⟨?_, fun f => ⟨uid, [], .inl p, 0, h.refill f, h.thread⟩⟩
  rw [← flushBuffer.length_contents, h.contents, List.length_replicate]

end PrimaryElection.Framework.CenterThreads
