import PrimaryElection.Framework.CacheBounds
import PrimaryElection.Framework.CacheStore
import PrimaryElection.Lib.Locks
import PrimaryElection.Util.Queue

/-! The threads at the cache of the center: `thread_process` in `process_query(task)` and
`thread_flushcache` in `process_query(uid, log)`. Each holds the flag of its user in
`m_flags` while it is at the user's entry. A query that asks for a refill puts a record
into `m_flushCache`, still holding the flag, and waits there while the queue is full. -/

namespace PrimaryElection.Framework.CenterThreads

open CInt Bytes Util Cache

/-! ### States -/

structure Center where
  cache : Cache.Config
  cacheCapacity : ℕ
  processThreadNum : ℕ
  updateThreadNum : ℕ
  capacity_pos : 0 < cacheCapacity
  threads_lt : processThreadNum + updateThreadNum < 4294967296

/-- `m_flags.init(m_cfg.fw_cache_capacity)`: the default of `max_key_num` is -1. -/
def Center.flagSizes (k : Center) : HashTable.Sizes where
  tableSize := k.cacheCapacity
  maxKeyNum := 18446744073709551615
  storeSize := 0
  table_pos := k.capacity_pos
  store_lt := by decide

/-- The flags have no values. -/
def Center.noValue (k : Center) : HashTable.Value k.flagSizes := ⟨[], rfl⟩

/-- The processing threads and the refilling ones. -/
abbrev Center.Thread (k : Center) := Fin k.processThreadNum ⊕ Fin k.updateThreadNum

/-- What a thread needs the flag of a user for. -/
inductive Job where
  | query (uid : Uid) (requestNum : ℤ) (log : ℤ)
  | refill (uid : Uid) (lst : List DocId)

def Job.uid : Job → Uid
  | query uid _ _ => uid
  | refill uid _ => uid

/-- Where a thread is: between two tasks, in `PopData`, at the services for a refill, in
the loop on `m_flags.add`, behind it, behind `pop_value`, behind `get`, in `PushData`, or
before `m_flags.del`. -/
inductive Phase where
  | out
  | popping
  | working (uid : Uid) (log : ℤ)
  | flagging (job : Job)
  | flagged (job : Job)
  | read (uid : Uid) (requestNum : ℤ) (log : ℤ) (en : Option Entry)
  | answered (uid : Uid) (log : ℤ) (ret : ℤ)
  | pushing (uid : Uid) (log : ℤ)
  | leaving (uid : Uid)

/-- The user whose flag a thread holds. -/
def Phase.holds : Phase → Option Uid
  | flagged job => some job.uid
  | read uid _ _ _ => some uid
  | answered uid _ _ => some uid
  | pushing uid _ => some uid
  | leaving uid => some uid
  | _ => none

/-- uid(8), log(4). -/
abbrev Data := Queue.Record 12

def data (uid : Uid) (log : ℤ) : Data := ⟨word8 uid ++ int4 log, by simp⟩

def dataUid (d : Data) : Uid := word8Val (d.val.take 8)

def dataLog (d : Data) : ℤ := int4Val (d.val.drop 8)

/-- The flags, the cache, the queue of refills, which has room for 100, and the threads. -/
structure State (k : Center) where
  flags : HashTable.Table k.flagSizes
  table : Cache.Table
  flush : Monitor.State (Queue.QueueVL 100 12) Data k.Thread
  thread : k.Thread → Phase

variable {k : Center}

namespace State

def set (s : State k) (t : k.Thread) (p : Phase) : State k :=
  { s with thread := Function.update s.thread t p }

/-- Nothing is flagged or cached, and the refilling threads are in `PopData`. -/
def init (k : Center) : State k where
  flags := .empty
  table := fun _ => none
  flush := ⟨⟨Queue.Ring.start (by decide), List.replicate 1200 0, List.length_replicate⟩,
    Sum.elim (fun _ => .out) fun _ => .popping⟩
  thread := Sum.elim (fun _ => .out) fun _ => .popping

end State

/-! ### Steps -/

/-- What `get` makes of the entry that `pop_value` found, and its reply. -/
def respond (c : Config) (e : Env) (en : Option Entry) (reqNum : ℤ) : Option (Option Entry × Reply) :=
  match en with
  | none => some (none, ⟨-1, []⟩)
  | some en => (if Fresh c e en then getFresh c e en reqNum else getExpired c e en).map fun r =>
      (some r.1, r.2)

/-- The `add` of `get`, for a user who has an entry. -/
def store (t : Cache.Table) (uid : Uid) : Option Entry → Cache.Table
  | none => t
  | some en => Function.update t uid (some en)

/-- `is_cache_flush` -/
def flushes (ret : ℤ) : Bool := ret < 0 ∨ ret = 1 ∨ ret = 3

/-- A refilling thread goes back to `PopData`, another one to the next task. -/
def goBack (s : State k) : k.Thread → Option (State k)
  | .inl p => some (s.set (.inl p) .out)
  | .inr f => (Monitor.step (Queue.QueueVL.buffer 100 12) s.flush (.pop (.inr f))).map fun m =>
      { s.set (.inr f) .popping with flush := m.1 }

inductive Event (k : Center) where
  | query (p : Fin k.processThreadNum) (uid : Uid) (requestNum : ℤ) (log : ℤ)
  | flag (t : k.Thread)
  | read (t : k.Thread)
  | answer (t : k.Thread) (e : Env)
  | goOn (t : k.Thread)
  | queue (t : k.Thread)
  | spurious (t : k.Thread)
  | leave (t : k.Thread)
  | fail (t : k.Thread)
  | list (t : k.Thread) (lst : List DocId)
  | put (t : k.Thread) (e : Env)

/-- What is seen: a call on the cache with its reply, or what `m_flags.del` returned. -/
inductive Observed where
  | silent
  | called (uid : Uid) (a : Cache.Call) (r : Reply)
  | deleted (ret : ℤ)

/-- A `m_flags.add` that does not return 0 is repeated, and has no step. -/
def step (s : State k) : Event k → Option (State k × Observed)
  | .query p uid requestNum log =>
    match s.thread (.inl p) with
    | .out => some (s.set (.inl p) (.flagging (.query uid requestNum log)), .silent)
    | _ => none
  | .flag t =>
    match s.thread t with
    | .flagging job =>
      let r := s.flags.add job.uid k.noValue false
      if r.2 ≠ 0 then none else some ({ s.set t (.flagged job) with flags := r.1 }, .silent)
    | _ => none
  | .read t =>
    match s.thread t with
    | .flagged (.query uid requestNum log) =>
      some (s.set t (.read uid requestNum log (s.table uid)), .silent)
    | _ => none
  | .answer t e =>
    match s.thread t with
    | .read uid requestNum log en =>
      (respond k.cache e en (CacheBounds.cappedRequest requestNum)).map fun r =>
        ({ s.set t (.answered uid log r.2.ret) with table := store s.table uid r.1 },
          .called uid (.get (CacheBounds.cappedRequest requestNum) e) r.2)
    | _ => none
  | .goOn t =>
    match s.thread t with
    | .answered uid log ret =>
      if flushes ret then
        (Monitor.step (Queue.QueueVL.buffer 100 12) s.flush (.push t (data uid log))).map fun m =>
          ({ s.set t (.pushing uid log) with flush := m.1 }, .silent)
      else some (s.set t (.leaving uid), .silent)
    | _ => none
  | .queue t =>
    (Monitor.step (Queue.QueueVL.buffer 100 12) s.flush (.enter t)).map fun m =>
      match m.2, s.thread t with
      | .pushed _ _, .pushing uid _ => ({ s.set t (.leaving uid) with flush := m.1 }, .silent)
      | .popped _ d, _ => ({ s.set t (.working (dataUid d) (dataLog d)) with flush := m.1 }, .silent)
      | _, _ => ({ s with flush := m.1 }, .silent)
  | .spurious t =>
    (Monitor.step (Queue.QueueVL.buffer 100 12) s.flush (.spurious t)).map fun m =>
      ({ s with flush := m.1 }, .silent)
  | .leave t =>
    match s.thread t with
    | .leaving uid =>
      let r := s.flags.del uid
      (goBack s t).map fun s' => ({ s' with flags := r.1 }, .deleted r.2)
    | _ => none
  | .fail t =>
    match s.thread t with
    | .working _ _ => (goBack s t).map fun s' => (s', .silent)
    | _ => none
  | .list t lst =>
    match s.thread t with
    | .working uid _ => some (s.set t (.flagging (.refill uid lst)), .silent)
    | _ => none
  | .put t e =>
    match s.thread t with
    | .flagged (.refill uid lst) =>
      (Cache.put k.cache e s.table uid lst lst.length).map fun r =>
        ({ s.set t (.leaving uid) with table := r.1 }, .called uid (.put lst e) ⟨r.2, []⟩)
    | _ => none

end PrimaryElection.Framework.CenterThreads
