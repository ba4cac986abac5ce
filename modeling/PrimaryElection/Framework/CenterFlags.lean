import PrimaryElection.Framework.CenterThreads

/-! The flags of the center's users. No two threads hold the flag of one user, so a `get`
that reads and writes its entry in two steps is one call: the cache and the replies are
those of the calls one after the other, and `m_flags.del` never fails. -/

namespace PrimaryElection.Framework.CenterThreads

open Runs Util Cache
open CacheStore (callStep)

variable {k : Center}

/-! ### What holds between the steps -/

/-- The calls on the cache, in the order of their writes. -/
def calls (os : List Observed) : List (Uid × Cache.Call) :=
  os.filterMap fun | .called uid a _ => some (uid, a) | _ => none

def replies (os : List Observed) : List Reply :=
  os.filterMap fun | .called _ _ r => some r | _ => none

/-- A thread is in a call of the queue exactly where it waits for it. -/
def Phase.InQueue : Phase → Monitor.Phase Data → Prop
  | popping, m => m = .popping ∨ m = .popAsleep
  | pushing uid log, m => m = .pushing (data uid log) ∨ m = .pushAsleep (data uid log)
  | _, m => m = .out

def Phase.Of : k.Thread → Phase → Prop
  | .inl _, popping | .inl _, working _ _ | .inl _, flagging (.refill _ _)
  | .inl _, flagged (.refill _ _) => False
  | .inr _, out | .inr _, flagging (.query _ _ _) | .inr _, flagged (.query _ _ _)
  | .inr _, read _ _ _ _ | .inr _, answered _ _ _ | .inr _, pushing _ _ => False
  | _, _ => True

def holder (s : State k) : k.Thread → Option Uid := fun t => (s.thread t).holds

/-- The cache is the one of the calls, and the flags are those of the threads. -/
structure Inv (os : List Observed) (s : State k) : Prop where
  serial : run (callStep k.cache) (fun _ => none) (calls os) = some (s.table, replies os)
  deleted : ∀ ret, .deleted ret ∈ os → ret = 0
  locks : Locks.Exclusive s.flags.keys (holder s)
  read : ∀ t uid requestNum log en, s.thread t = .read uid requestNum log en → s.table uid = en
  queue : ∀ t, (s.thread t).InQueue (s.flush.phase t)
  kind : ∀ t, (s.thread t).Of t
  awake : Monitor.Awake (Queue.QueueVL.buffer 100 12) s.flush

/-! ### Calls -/

theorem get_eq_respond (c : Config) (e : Env) (t : Cache.Table) (uid : Uid) (reqNum : ℤ) :
    Cache.get c e t uid reqNum = (respond c e (t uid) reqNum).map fun r => (store t uid r.1, r.2) := by
  rw [Cache.get]
  cases t uid with
  | none => rfl
  | some en =>
    rw [respond, Option.map_map]
    rfl

theorem store_of_ne {t : Cache.Table} {uid u : Uid} (h : u ≠ uid) (en : Option Entry) :
    store t uid en u = t u := by
  cases en with
  | none => rfl
  | some en => exact Function.update_of_ne h _ _

theorem serial_silent (os : List Observed) {o : Observed} (ho : ∀ uid a r, o ≠ .called uid a r) :
    calls (os ++ [o]) = calls os ∧ replies (os ++ [o]) = replies os := by
  cases o with
  | called uid a r => exact absurd rfl (ho uid a r)
  | silent | deleted => simp [calls, replies]

theorem serial_called {c : Config} {os : List Observed} {t t' : Cache.Table} {uid : Uid}
    {a : Cache.Call} {r : Reply} (h : run (callStep c) (fun _ => none) (calls os) = some (t, replies os))
    (hc : callStep c t (uid, a) = some (t', r)) :
    run (callStep c) (fun _ => none) (calls (os ++ [.called uid a r])) =
      some (t', replies (os ++ [.called uid a r])) := by
  have hcalls : calls (os ++ [.called uid a r]) = calls os ++ [(uid, a)] := by simp [calls]
  have hreplies : replies (os ++ [.called uid a r]) = replies os ++ [r] := by simp [replies]
  rw [hcalls, hreplies]
  exact run_append_iff.mpr ⟨_, _, _, h, run_singleton_iff.mpr ⟨r, hc, rfl⟩, rfl⟩

/-! ### Flags -/

theorem keys_addFlag {z : HashTable.Sizes} {t : HashTable.Table z} {key : HashTable.Key} {v : HashTable.Value z}
    (h : (t.add key v false).2 = 0) : key ∉ t.keys ∧ (t.add key v false).1.keys = insert key t.keys := by
  cases hk : t.lookup key with
  | some w =>
    rw [(t.add_present v false (by rw [hk]; rfl)).1] at h
    exact absurd h one_ne_zero
  | none =>
    have hnot : key ∉ t.keys := by rw [HashTable.Table.mem_keys, hk]; simp
    by_cases hroom : t.keys.card < z.maxKeyNum
    · obtain ⟨u, hadd, -, hkeys, -⟩ := t.add_new v false hk hroom
      exact ⟨hnot, by rw [hadd, hkeys]⟩
    · rw [t.add_full v false hk (not_lt.mp hroom)] at h
      exact absurd h (by norm_num)

theorem keys_delFlag {z : HashTable.Sizes} {t : HashTable.Table z} {key : HashTable.Key} (h : key ∈ t.keys) :
    (t.del key).2 = 0 ∧ (t.del key).1.keys = t.keys.erase key := by
  obtain ⟨hcode, hlook⟩ := t.del_present ((t.mem_keys key).mp h)
  refine ⟨hcode, ?_⟩
  ext u
  rw [HashTable.Table.mem_keys, hlook, Finset.mem_erase, HashTable.Table.mem_keys]
  by_cases hu : u = key
  · simp [hu]
  · simp [hu]

/-! ### Steps -/

theorem thread_set (s : State k) (t u : k.Thread) (p : Phase) :
    (s.set t p).thread u = if u = t then p else s.thread u := Function.update_apply _ _ _ _

theorem holder_set (s : State k) (t : k.Thread) (p : Phase) :
    holder (s.set t p) = Function.update (holder s) t p.holds := by
  funext u
  rw [holder, thread_set, Function.update_apply]
  split_ifs <;> rfl

theorem Phase.InQueue.wake {p : Phase} {m : Monitor.Phase Data} (h : p.InQueue m) : p.InQueue m.wake := by
  cases p with
  | popping => rcases h with rfl | rfl <;> exact .inl rfl
  | pushing uid log => rcases h with rfl | rfl <;> exact .inl rfl
  | out | working | flagging | flagged | read | answered | leaving =>
    have hm : m = .out := h
    rw [hm]
    exact rfl

theorem Phase.InQueue.pushing_eq {p : Phase} {x : Data} (h : p.InQueue (.pushing x)) :
    ∃ uid log, p = .pushing uid log ∧ x = data uid log := by
  cases p with
  | pushing uid log =>
    rcases h with hx | hx
    · cases hx
      exact ⟨uid, log, rfl, rfl⟩
    · cases hx
  | popping => rcases h with hx | hx <;> cases hx
  | out | working | flagging | flagged | read | answered | leaving => cases h

theorem Phase.InQueue.popping_eq {p : Phase} (h : p.InQueue .popping) : p = .popping := by
  cases p with
  | popping => rfl
  | pushing => rcases h with hx | hx <;> cases hx
  | out | working | flagging | flagged | read | answered | leaving => cases h

theorem inQueue_move {s : State k} (h : ∀ u, (s.thread u).InQueue (s.flush.phase u)) {t : k.Thread}
    (m : Monitor.Phase Data) : ∀ u, u ≠ t → (s.thread u).InQueue ((s.flush.move t m).phase u) := by
  intro u hu
  rw [Monitor.State.phase_move, if_neg hu]
  exact h u

theorem inQueue_leave {s : State k} (h : ∀ u, (s.thread u).InQueue (s.flush.phase u)) {t : k.Thread}
    (b : Queue.QueueVL 100 12) (broadcast : Prop) [Decidable broadcast] :
    ∀ u, u ≠ t → (s.thread u).InQueue ((s.flush.leave t b broadcast).phase u) := by
  intro u hu
  rw [Monitor.State.phase_leave, if_neg hu]
  split_ifs
  · exact (h u).wake
  · exact h u

/-- A thread whose holder's entry is left alone goes on. -/
theorem Inv.goes {os : List Observed} {s : State k} (h : Inv os s) {t : k.Thread} (p : Phase)
    (flags : HashTable.Table k.flagSizes) (table : Cache.Table)
    (flush : Monitor.State (Queue.QueueVL 100 12) Data k.Thread) {o : Observed}
    (hserial : run (callStep k.cache) (fun _ => none) (calls (os ++ [o])) = some (table, replies (os ++ [o])))
    (hdel : ∀ ret, o = .deleted ret → ret = 0)
    (hlocks : Locks.Exclusive flags.keys (Function.update (holder s) t p.holds))
    (htable : ∀ uid, (s.thread t).holds ≠ some uid → table uid = s.table uid)
    (hread : ∀ uid requestNum log en, p = .read uid requestNum log en → table uid = en)
    (hqueue : p.InQueue (flush.phase t))
    (hothers : ∀ u, u ≠ t → (s.thread u).InQueue (flush.phase u)) (hkind : p.Of t)
    (hawake : Monitor.Awake (Queue.QueueVL.buffer 100 12) flush) :
    Inv (os ++ [o]) { s.set t p with flags := flags, table := table, flush := flush } := by
  refine ⟨hserial, ?_, ?_, ?_, ?_, ?_, hawake⟩
  · intro ret hret
    rcases List.mem_append.mp hret with hret | hret
    · exact h.deleted ret hret
    · exact hdel ret (List.mem_singleton.mp hret).symm
  · rw [← holder_set] at hlocks
    exact hlocks
  · intro u uid requestNum log en hu
    change (s.set t p).thread u = _ at hu
    rw [thread_set] at hu
    split_ifs at hu with hut
    · exact hread uid requestNum log en hu
    · have hne : (s.thread t).holds ≠ some uid := by
        intro ht
        exact hut (h.locks.unique u t uid (by rw [holder, hu]; rfl) ht)
      change table uid = en
      rw [htable uid hne]
      exact h.read u uid requestNum log en hu
  · intro u
    change ((s.set t p).thread u).InQueue (flush.phase u)
    rw [thread_set]
    split_ifs with hut
    · rwa [hut]
    · exact hothers u hut
  · intro u
    change ((s.set t p).thread u).Of u
    rw [thread_set]
    split_ifs with hut
    · rwa [hut]
    · exact h.kind u

/-- A thread that goes on without the cache, the flags and the queue. -/
theorem Inv.moves {os : List Observed} {s : State k} (h : Inv os s) {t : k.Thread} {p : Phase}
    (hholds : p.holds = (s.thread t).holds)
    (hread : ∀ uid requestNum log en, p = .read uid requestNum log en → s.table uid = en)
    (hqueue : p.InQueue (s.flush.phase t)) (hkind : p.Of t) : Inv (os ++ [.silent]) (s.set t p) := by
  have hserial := serial_silent os (o := .silent) (by simp)
  refine h.goes _ s.flags s.table s.flush ?_ (by simp) ?_ (fun _ _ => rfl) hread
    hqueue (fun u _ => h.queue u) hkind h.awake
  · rw [hserial.1, hserial.2]
    exact h.serial
  · exact h.locks.keep hholds.symm

/-- A thread that goes on at the queue. -/
theorem Inv.queues {os : List Observed} {s : State k} (h : Inv os s) {t : k.Thread} {p : Phase}
    {flush : Monitor.State (Queue.QueueVL 100 12) Data k.Thread} (hholds : p.holds = (s.thread t).holds)
    (hread : ∀ uid requestNum log en, p ≠ .read uid requestNum log en) (hqueue : p.InQueue (flush.phase t))
    (hothers : ∀ u, u ≠ t → (s.thread u).InQueue (flush.phase u)) (hkind : p.Of t)
    (hawake : Monitor.Awake (Queue.QueueVL.buffer 100 12) flush) :
    Inv (os ++ [.silent]) { s.set t p with flush := flush } := by
  have hserial := serial_silent os (o := .silent) (by simp)
  refine h.goes _ s.flags s.table _ ?_ (by simp) ?_ (fun _ _ => rfl)
    (fun uid n log en hp => absurd hp (hread uid n log en)) hqueue hothers hkind hawake
  · rw [hserial.1, hserial.2]
    exact h.serial
  · exact h.locks.keep hholds.symm

/-- A thread in a call of the queue falls asleep or wakes up where it is. -/
theorem Inv.waits {os : List Observed} {s : State k} (h : Inv os s) {t : k.Thread} {m : Monitor.Phase Data}
    (hm : m ≠ .out) (hin : (s.thread t).InQueue m)
    (hawake : Monitor.Awake (Queue.QueueVL.buffer 100 12) (s.flush.move t m)) :
    Inv (os ++ [.silent]) { s with flush := s.flush.move t m } := by
  have hstay := h.queues (p := s.thread t) rfl (fun uid n log en hp => ?_) ?_ (inQueue_move h.queue _)
    (h.kind t) hawake
  · rwa [State.set, Function.update_eq_self] at hstay
  · rw [hp] at hin
    exact hm hin
  · rw [Monitor.State.phase_move, if_pos rfl]
    exact hin

theorem Inv.back {os : List Observed} {s s' : State k} (h : Inv os s) {t : k.Thread}
    (hout : s.flush.phase t = .out) {flags : HashTable.Table k.flagSizes} {o : Observed}
    (ho : ∀ uid a r, o ≠ .called uid a r) (hdel : ∀ ret, o = .deleted ret → ret = 0)
    (hlocks : Locks.Exclusive flags.keys (Function.update (holder s) t none)) (hs : goBack s t = some s') :
    Inv (os ++ [o]) { s' with flags := flags } := by
  have hserial := serial_silent os ho
  cases t with
  | inl p =>
    cases hs
    refine h.goes .out _ s.table s.flush ?_ hdel hlocks (fun _ _ => rfl) (by simp)
      hout (fun u _ => h.queue u) trivial h.awake
    rw [hserial.1, hserial.2]
    exact h.serial
  | inr f =>
    obtain ⟨⟨m, o'⟩, hm, rfl⟩ := Option.map_eq_some_iff.mp hs
    have hawake := h.awake.step hm
    simp only [Monitor.step, hout] at hm
    cases hm
    refine h.goes .popping _ s.table _ ?_ hdel hlocks (fun _ _ => rfl) (by simp) ?_
      (inQueue_move h.queue _) trivial hawake
    · rw [hserial.1, hserial.2]
      exact h.serial
    · rw [Monitor.State.phase_move, if_pos rfl]
      exact .inl rfl

theorem Inv.init : Inv [] (State.init k) := by
  refine ⟨rfl, (by simp), ?_, ?_, ?_, ?_, ?_⟩
  · have hholder : holder (State.init k) = fun _ => none := by
      funext t
      cases t <;> rfl
    have hkeys : (State.init k).flags.keys = ∅ := HashTable.Table.keys_empty
    rw [hholder, hkeys]
    exact .empty
  · rintro (p | f) uid n log en h <;> cases h
  · rintro (p | f)
    · exact rfl
    · exact .inl rfl
  · rintro (p | f) <;> trivial
  · constructor
    · rintro (p | f) d h <;> cases h
    · rintro (p | f) h <;> cases h

theorem Inv.step_queue {os : List Observed} {s s' : State k} {o : Observed} (h : Inv os s) {t : k.Thread}
    (hs : step s (.queue t) = some (s', o)) : Inv (os ++ [o]) s' := by
  obtain ⟨⟨m, o'⟩, hm, hq⟩ := Option.map_eq_some_iff.mp hs
  have hawake := h.awake.step hm
  have hin := h.queue t
  have hkind := h.kind t
  obtain ⟨x, ht, hput⟩ | ⟨ht, htake⟩ := Monitor.enter_cases hm
  · rw [ht] at hin
    obtain ⟨uid, log, hp, rfl⟩ := hin.pushing_eq
    obtain ⟨-, rfl, rfl⟩ | ⟨b, -, rfl, rfl⟩ := hput
    · -- a full queue: the thread sleeps where it is
      cases hq
      refine h.waits (by simp) ?_ hawake
      rw [hp]
      exact .inr rfl
    · -- the record is in the queue
      rw [hp] at hq
      cases hq
      refine h.queues (p := .leaving uid) (by rw [hp]; rfl) (by simp) ?_ (inQueue_leave h.queue b _) ?_ hawake
      · rw [Monitor.State.phase_leave, if_pos rfl]
        exact rfl
      · cases t <;> trivial
  · rw [ht] at hin
    have hp := hin.popping_eq
    obtain ⟨-, rfl, rfl⟩ | ⟨x, b, -, rfl, rfl⟩ := htake
    · -- an empty queue
      cases hq
      refine h.waits (by simp) ?_ hawake
      rw [hp]
      exact .inr rfl
    · -- a record for a refilling thread
      rw [hp] at hq hkind
      cases hq
      refine h.queues (p := .working (dataUid x) (dataLog x)) (by rw [hp]; rfl) (by simp) ?_
        (inQueue_leave h.queue b _) ?_ hawake
      · rw [Monitor.State.phase_leave, if_pos rfl]
        exact rfl
      · cases t
        · exact absurd hkind id
        · trivial

theorem Inv.step {os : List Observed} {s s' : State k} {e : Event k} {o : Observed} (h : Inv os s)
    (hs : CenterThreads.step s e = some (s', o)) : Inv (os ++ [o]) s' := by
  cases e with
  | query p uid requestNum log =>
    simp only [CenterThreads.step] at hs
    split at hs
    next ht =>
      cases hs
      have hin := h.queue (.inl p)
      rw [ht] at hin
      exact h.moves (by rw [ht]; rfl) (by simp) hin trivial
    next => cases hs
  | flag t =>
    simp only [CenterThreads.step] at hs
    split at hs
    next job ht =>
      split_ifs at hs with hadd
      cases hs
      have hin := h.queue t
      have hkind := h.kind t
      have hserial := serial_silent os (o := .silent) (by simp)
      rw [ht] at hin hkind
      obtain ⟨hfree, hkeys⟩ := keys_addFlag (not_not.mp hadd)
      refine h.goes (.flagged job) _ s.table s.flush ?_ (by simp) ?_ (fun _ _ => rfl)
        (by simp) hin (fun u _ => h.queue u) ?_ h.awake
      · rw [hserial.1, hserial.2]
        exact h.serial
      · rw [hkeys]
        exact h.locks.take (by rw [holder, ht]; rfl) hfree
      · cases t <;> cases job <;> exact hkind
    next => cases hs
  | read t =>
    simp only [CenterThreads.step] at hs
    split at hs
    next uid requestNum log ht =>
      cases hs
      have hin := h.queue t
      have hkind := h.kind t
      rw [ht] at hin hkind
      refine h.moves (by rw [ht]; rfl) (fun _ _ _ _ hp => ?_) hin ?_
      · cases hp
        rfl
      · cases t <;> exact hkind
    next => cases hs
  | answer t e =>
    simp only [CenterThreads.step] at hs
    split at hs
    next uid requestNum log en ht =>
      obtain ⟨r, hr, hq⟩ := Option.map_eq_some_iff.mp hs
      cases hq
      have hin := h.queue t
      have hkind := h.kind t
      have hen := h.read t uid requestNum log en ht
      rw [ht] at hin hkind
      refine h.goes (.answered uid log r.2.ret) s.flags _ s.flush ?_ (by simp) ?_ ?_ (by simp)
        hin (fun u _ => h.queue u) ?_ h.awake
      · refine serial_called h.serial ?_
        change Cache.get k.cache e s.table uid _ = _
        rw [get_eq_respond, hen, hr, Option.map_some]
      · exact h.locks.keep (by rw [holder, ht]; rfl)
      · intro u hu
        rw [ht] at hu
        exact store_of_ne (fun hc => hu (by rw [hc]; rfl)) r.1
      · cases t <;> exact hkind
    next => cases hs
  | goOn t =>
    simp only [CenterThreads.step] at hs
    split at hs
    next uid log ret ht =>
      have hin := h.queue t
      have hkind := h.kind t
      rw [ht] at hin hkind
      split_ifs at hs
      · obtain ⟨⟨m, o'⟩, hm, hq⟩ := Option.map_eq_some_iff.mp hs
        cases hq
        have hawake := h.awake.step hm
        have hout : s.flush.phase t = .out := hin
        simp only [Monitor.step, hout] at hm
        cases hm
        refine h.queues (p := .pushing uid log) (by rw [ht]; rfl) (by simp) ?_ (inQueue_move h.queue _) ?_ hawake
        · rw [Monitor.State.phase_move, if_pos rfl]
          exact .inl rfl
        · cases t <;> exact hkind
      · cases hs
        refine h.moves (by rw [ht]; rfl) (by simp) hin ?_
        cases t <;> trivial
    next => cases hs
  | queue t => exact h.step_queue hs
  | spurious t =>
    obtain ⟨⟨m, o'⟩, hm, hq⟩ := Option.map_eq_some_iff.mp hs
    cases hq
    have hawake := h.awake.step hm
    have hin := (h.queue t).wake
    simp only [Monitor.step] at hm
    split at hm
    next d ht =>
      cases hm
      rw [ht] at hin
      exact h.waits (by simp) hin hawake
    next ht =>
      cases hm
      rw [ht] at hin
      exact h.waits (by simp) hin hawake
    next => cases hm
  | leave t =>
    simp only [CenterThreads.step] at hs
    split at hs
    next uid ht =>
      obtain ⟨s₁, hback, hq⟩ := Option.map_eq_some_iff.mp hs
      cases hq
      have hholds : holder s t = some uid := by rw [holder, ht]; rfl
      have hin := h.queue t
      rw [ht] at hin
      obtain ⟨hcode, hkeys⟩ := keys_delFlag ((h.locks.mem_iff uid).mpr ⟨t, hholds⟩)
      refine h.back hin (by simp) ?_ ?_ hback
      · intro ret hret
        cases hret
        exact hcode
      · rw [hkeys]
        exact h.locks.release hholds
    next => cases hs
  | fail t =>
    simp only [CenterThreads.step] at hs
    split at hs
    next uid log ht =>
      obtain ⟨s₁, hback, hq⟩ := Option.map_eq_some_iff.mp hs
      cases hq
      have hin := h.queue t
      rw [ht] at hin
      have hsame : s' = { s' with flags := s.flags } := by
        cases t with
        | inl p =>
          cases hback
          rfl
        | inr f =>
          obtain ⟨m, -, rfl⟩ := Option.map_eq_some_iff.mp hback
          rfl
      rw [hsame]
      exact h.back hin (by simp) (by simp) (h.locks.keep (by rw [holder, ht]; rfl)) hback
    next => cases hs
  | list t lst =>
    simp only [CenterThreads.step] at hs
    split at hs
    next uid log ht =>
      cases hs
      have hin := h.queue t
      have hkind := h.kind t
      rw [ht] at hin hkind
      refine h.moves (by rw [ht]; rfl) (by simp) hin ?_
      cases t <;> exact hkind
    next => cases hs
  | put t e =>
    simp only [CenterThreads.step] at hs
    split at hs
    next uid lst ht =>
      obtain ⟨⟨table, ret⟩, hput, hq⟩ := Option.map_eq_some_iff.mp hs
      cases hq
      have hin := h.queue t
      rw [ht] at hin
      refine h.goes (.leaving uid) s.flags _ s.flush ?_ (by simp) ?_ ?_ (by simp) hin
        (fun u _ => h.queue u) ?_ h.awake
      · refine serial_called h.serial ?_
        change (Cache.put k.cache e s.table uid lst lst.length).map _ = _
        rw [hput]
        rfl
      · exact h.locks.keep (by rw [holder, ht]; rfl)
      · intro u hu
        rw [ht] at hu
        exact put_frame hput fun hc => hu (by rw [hc]; rfl)
      · cases t <;> trivial
    next => cases hs

end PrimaryElection.Framework.CenterThreads
