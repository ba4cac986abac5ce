import PrimaryElection.Framework.CacheBounds
import PrimaryElection.Framework.CenterConfig
import PrimaryElection.Framework.FanOutQuery
import PrimaryElection.Framework.FanOutUpdate
import PrimaryElection.Framework.MessageBounds

/-! What the configured sizes must be for the fixed buffers of the center: the array
`request_lst`, the buffers in which the cache makes an entry, the tables of names in the two
combinations, and the divisor of the minute in the names of the log files. `init` checks
the number of machines only. A refill gets to its list, and a combination to its names, only
if `distribute_task` has taken the request. -/

namespace PrimaryElection.Framework

open CInt Bytes Memory Runs CacheBounds
open Cache (Table Fresh retNum retNum_le_num)

/-! ### The sites -/

/-- `buffer` in `put` and in `get`. -/
def putBuffer : ℤ := 1024

def getBuffer : ℤ := 2048

/-- The `num` ids of an entry fit behind its head, and the buffer has the bytes that
`m_cache` takes from it. The shift of a negative count has no value. -/
structure EntryFits (room savecount num : ℤ) : Prop where
  nonneg : 0 ≤ num
  ids : 12 + 8 * num ≤ room
  stored : 12 + 8 * savecount ≤ room

theorem exists_memcpy {dst count : ℤ} {src : List UInt8} (h₀ : 0 ≤ count) (h : count ≤ src.length) :
    ∃ w, memcpy dst src count = .ok w := by
  have hle : toSize count ≤ src.length := by
    unfold toSize
    omega
  exact ⟨_, if_neg (not_lt.mpr hle)⟩

theorem QueryProcessor.distributeTask_ok_iff {c : CalcConfig} {message : List UInt8}
    (h8 : 8 ≤ message.length) (m : Mem) :
    (∃ m₁, QueryProcessor.distributeTask c m message = .ok m₁) ↔ (message.length : ℤ) ≤ c.fwCalcSendSize := by
  unfold distributeTask
  dsimp only
  constructor
  · rintro ⟨m₁, h⟩
    split_ifs at h with hlen
    exact not_lt.mp hlen
  · intro hlen
    have hhead : ∃ w, memcpy 0 message 8 = .ok w := exists_memcpy (by norm_num) (by omega)
    have hbody : ∃ v, memcpy (CalcConfig.offsetSend + 8 + 4) (message.drop 8) (message.length - 8) = .ok v :=
      exists_memcpy (by omega) (by rw [List.length_drop]; omega)
    rcases hhead with ⟨w, hw⟩
    rcases hbody with ⟨v, hv⟩
    rw [if_neg (not_lt.mpr hlen), hw, hv]
    exact ⟨_, rfl⟩

theorem UpdateProcessor.distributeTask_ok_iff {c : CalcConfig} (message : List UInt8) (m : Mem) :
    (∃ m₁, UpdateProcessor.distributeTask c m message = .ok m₁) ↔
      (message.length : ℤ) ≤ c.fwCalcSendSize := by
  unfold distributeTask
  dsimp only
  constructor
  · rintro ⟨m₁, h⟩
    split_ifs at h with hlen
    exact not_lt.mp hlen
  · intro hlen
    have hbody : ∃ w, memcpy 4 message message.length = .ok w := exists_memcpy (by omega) le_rfl
    rcases hbody with ⟨w, hw⟩
    rw [if_neg (not_lt.mpr hlen), hw]
    exact ⟨_, rfl⟩

section

variable {F : Type*}

/-- The bytes of the reply of a refill and of the request that is made of it. -/
def replyLength (r : Refill.FilterReply F) : ℤ := 8 + 16 * r.did.length + 8 * r.history.length

def requestLength (r : Refill.FilterReply F) : ℤ := 32 + 8 * r.did.length + 8 * r.history.length

/-- `put_message` takes the request of a refill: it is not too long for `distribute_task`, which
returns the number of machines. -/
def Distributes (c : CalcConfig) (r : Refill.FilterReply F) : Prop :=
  0 < c.fwCalcNum ∧ requestLength r ≤ c.fwCalcSendSize

instance (c : CalcConfig) (r : Refill.FilterReply F) : Decidable (Distributes c r) :=
  inferInstanceAs (Decidable (_ ∧ _))

/-- A query or a refill at the cache, which a refill does not reach if its request is not
taken. -/
def refillStep (c : CalcConfig) (k : CacheBounds.Config F) (t : Table) : Event F → Option (Table × Cache.Reply)
  | .refill uid r cr e =>
    if Distributes c r then step k t (.refill uid r cr e) else some (t, ⟨0, []⟩)
  | .query uid requestNum e => step k t (.query uid requestNum e)

/-- The list of a refill fits its array and its entry the buffer of `put`; what remains
after a query, and the head of an entry that has expired, fit the buffer of `get`. A
negative count to return ends the call before its entry is copied. -/
def EventFits (c : CalcConfig) (k : CacheBounds.Config F) (t : Table) : Event F → Prop
  | .refill _ r cr _ => Distributes c r → r.did ≠ [] → ∀ did,
    Refill.rank k.floats k.refill r cr = some did →
    Refill.requestCount k.refill.cacheSavecount did.length ≤ Refill.requestRoom ∧
      EntryFits putBuffer k.refill.cacheSavecount
        (Refill.requestCount k.refill.cacheSavecount did.length)
  | .query uid requestNum e => ∀ en, t uid = some en →
    if Fresh k.cache e en then
      0 ≤ retNum e (cappedRequest requestNum) en.num →
        EntryFits getBuffer k.refill.cacheSavecount
          (en.num - retNum e (cappedRequest requestNum) en.num)
    else EntryFits getBuffer k.refill.cacheSavecount 0

/-- The refills that there are: `thread_flushcache` runs, and the reply is not longer than the
buffer it is received in. -/
def Happens (fwUpdateThreadNum fwMaxTaskSize : ℤ) : Event F → Prop
  | .refill _ r _ _ => 0 < fwUpdateThreadNum ∧ (r.did ≠ [] → replyLength r ≤ fwMaxTaskSize)
  | .query _ _ _ => True

/-- These are the lengths of the reply in the buffer and of the request. -/
theorem lengths_eq {uid : Uid} {r : Refill.FilterReply F} {w : FilterReply} (hids : r.did = w.ids)
    (hhistory : r.history = w.history) {m : Mem} (hm : w.In m) (hlen : w.bytes.length < 2147483648)
    {req : CalcRequest} (hreq : calcRequest uid m = some req) :
    replyLength r = w.bytes.length ∧ requestLength r = req.length := by
  rcases calcRequest_length uid hm hlen with ⟨req', hreq', hlength⟩
  cases hreq.symm.trans hreq'
  have hbytes := w.bytes_length
  unfold replyLength requestLength
  rw [hids, hhistory, hlength, hbytes]
  push_cast
  exact ⟨rfl, rfl⟩

theorem distributes_iff {c : CalcConfig} {r : Refill.FilterReply F} {message : List UInt8}
    (h : (message.length : ℤ) = requestLength r) (m : Mem) :
    Distributes c r ↔ 0 < c.fwCalcNum ∧ ∃ m₁, QueryProcessor.distributeTask c m message = .ok m₁ := by
  have hlong : 32 ≤ message.length := by
    unfold requestLength at h
    omega
  refine and_congr_right fun _ => ?_
  rw [← h]
  exact (QueryProcessor.distributeTask_ok_iff (by omega) m).symm

end

/-- The entries of `name`. -/
def nameEntries : ℕ := 4

/-- The reply of machine `i` is passed over with a message. -/
def QueryProcessor.Rejects (c : CalcConfig) (m : Mem) (i : ℕ) : Prop :=
  let orgBuf := c.slotBuf head i
  let len := loadInt m orgBuf
  len = -1 ∨ len = 0 ∨ len.tmod 4 ≠ 0 ∨ toInt32 (toInt32 (loadInt m (orgBuf + 4) + 1) * 4) ≠ len

instance (c : CalcConfig) (m : Mem) (i : ℕ) : Decidable (QueryProcessor.Rejects c m i) :=
  inferInstanceAs (Decidable (_ ∨ _))

/-- The indices at which the combination of a query reads `name`: the machines that are
passed over and, with a log, those that are added up. -/
def QueryProcessor.namesRead (ops : FloatOps) (c : CalcConfig) (log : Bool) (m : Mem) : List ℕ :=
  let zeros : Store := ⟨c.resultBuf head, List.replicate (toSize (4 + c.fwCalcResultSize)) 0⟩
  (List.range c.machines).filter fun i =>
    ((List.range i).foldlM (combineMachine ops c) (true, zeros.apply m)).any fun st =>
      Rejects c st.2 i ∨ (log ∧ (combineMachine ops c st i).isSome)

def UpdateProcessor.namesRead (c : CalcConfig) (m : Mem) : List ℕ :=
  (List.range c.machines).filter fun i =>
    let buf := c.slotBuf head i
    loadInt m buf = 0 ∨ loadInt m buf ≠ 4 ∨ loadInt m (buf + 4) ≠ 0

/-- The minute in the name of a log file, in `save_log_action`, `save_log_document` and
`save_log_pushed`. -/
def logMinute (fwLogRecoderInterval tmMin : ℤ) : Option ℤ :=
  if fwLogRecoderInterval = 0 then none else some (tmMin - tmMin.tmod fwLogRecoderInterval)

theorem loadInt_zeros (a : ℤ) : loadInt (fun _ => 0) a = 0 := by
  have hload : load (fun _ => 0) a 4 = [0, 0, 0, 0] := rfl
  rw [loadInt, hload]
  decide

/-- In a handle of zeros every machine is passed over, in both combinations. -/
theorem QueryProcessor.mem_namesRead {ops : FloatOps} {k : CalcConfig} {log : Bool} {i : ℕ}
    (h : i < k.machines) : i ∈ QueryProcessor.namesRead ops k log fun _ => 0 := by
  have hzeros : ∀ a n, (⟨a, List.replicate n 0⟩ : Store).apply (fun _ => 0) = fun _ => 0 := by
    intro a n
    funext y
    unfold Store.apply
    split_ifs
    · rw [List.getElem?_replicate]
      split_ifs <;> rfl
    · rfl
  have hskip : ∀ is : List ℕ, is.foldlM (combineMachine ops k) (true, fun _ => 0) =
      some (true, fun _ => 0) := by
    intro is
    induction is with
    | nil => rfl
    | cons j is ih =>
      rw [List.foldlM_cons]
      simp only [combineMachine, loadInt_zeros]
      exact ih
  unfold QueryProcessor.namesRead
  dsimp only
  rw [hzeros, List.mem_filter, List.mem_range, hskip]
  refine ⟨h, ?_⟩
  simp [Rejects, loadInt_zeros]

theorem UpdateProcessor.mem_namesRead {k : CalcConfig} {i : ℕ} (h : i < k.machines) :
    i ∈ UpdateProcessor.namesRead k fun _ => 0 := by
  unfold UpdateProcessor.namesRead
  simp only [loadInt_zeros, true_or, decide_true, List.mem_filter, List.mem_range, and_true]
  exact h

namespace CenterConfig

variable (fl : Refill.Floats UInt32) (atof : List UInt8 → UInt32) (c : CenterConfig)

def calcConfig : CalcConfig where
  fwCalcSendSize := c.number .fwCalcSendSize
  fwCalcRecvSize := c.number .fwCalcRecvSize
  fwCalcResultSize := c.number .fwCalcResultSize
  fwCalcNum := c.number .fwCalcNum
  fwCalcFactor i := atof (c.fwCalcFactor i)

def cacheConfig : CacheBounds.Config UInt32 where
  floats := fl
  refill :=
    { filterFactor := atof (c.factor .fwFilterFactor)
      algorithmFactor := atof (c.factor .fwAlgorithmFactor)
      timeFactor := atof (c.factor .fwTimeFactor)
      cacheSavecount := c.number .fwCacheSavecount }
  flushCount := c.number .fwCacheFlushcount
  flushTime := c.number .fwCacheFlushtime

def QueryLength (len : ℤ) : Prop :=
  ∃ r : Refill.FilterReply UInt32, r.did ≠ [] ∧ 0 < c.number .fwUpdateThreadNum ∧
    replyLength r ≤ c.number .fwMaxTaskSize ∧ len = requestLength r

/-- The lengths of the updates: an accepted click behind its head and a history that the
buffer is not too small to receive, and an accepted document behind its size. -/
def UpdateLength (len : ℤ) : Prop :=
  (∃ (h : Host ℤ) (json : Json ℤ) (size : I32) (historyLen : ℤ), Encodes .action h json size ∧
    0 < historyLen ∧ historyLen ≤ c.number .fwMaxTaskSize - 8 ∧
    len = 8 + historyLen + (written .action h json size).length) ∨
  ∃ (h : Host ℤ) (json : Json ℤ) (size : I32), Encodes .document h json size ∧
    len = 4 + (written .document h json size).length

/-- The fixed buffers and the divisor are safe for all runs of queries and refills, all
messages that are distributed and memories of their handles, and all times. -/
structure BuffersSafe : Prop where
  cache : ∀ evs : List (Event UInt32),
    (∀ ev ∈ evs, Happens (c.number .fwUpdateThreadNum) (c.number .fwMaxTaskSize) ev) →
    Along (refillStep (c.calcConfig atof) (c.cacheConfig fl atof))
      (EventFits (c.calcConfig atof) (c.cacheConfig fl atof)) (fun _ => none) evs
  queryNames : ∀ message m₀ m₁, c.QueryLength (message.length : ℕ) →
    QueryProcessor.distributeTask (c.calcConfig atof) m₀ message = .ok m₁ →
    ∀ ops log m, ∀ i ∈ QueryProcessor.namesRead ops (c.calcConfig atof) log m, i < nameEntries
  updateNames : ∀ message m₀ m₁, c.UpdateLength (message.length : ℕ) →
    UpdateProcessor.distributeTask (c.calcConfig atof) m₀ message = .ok m₁ →
    ∀ m, ∀ i ∈ UpdateProcessor.namesRead (c.calcConfig atof) m, i < nameEntries
  minute : ∀ tmMin, (logMinute (c.number .fwLogRecoderInterval) tmMin).isSome

/-- A refill of one document is distributed. -/
def Refills : Prop :=
  0 < c.number .fwUpdateThreadNum ∧ 24 ≤ c.number .fwMaxTaskSize ∧ 40 ≤ c.number .fwCalcSendSize

/-- Where refills get to the cache, the saved count is not negative and at most 64, or 126 if
no refill of 65 documents does; where any message is distributed, there are at most four
machines. -/
structure Sized : Prop where
  savecount : 0 < c.number .fwCalcNum → c.Refills →
    0 ≤ c.number .fwCacheSavecount ∧ c.number .fwCacheSavecount ≤ 126 ∧
      (c.number .fwCacheSavecount ≤ 64 ∨ c.number .fwMaxTaskSize < 1048 ∨ c.number .fwCalcSendSize < 552)
  machines : c.Refills ∨ 9 ≤ c.number .fwMaxTaskSize ∧ 45 ≤ c.number .fwCalcSendSize ∨
    56 ≤ c.number .fwCalcSendSize → c.number .fwCalcNum ≤ 4
  interval : c.number .fwLogRecoderInterval ≠ 0

variable {fl atof c}

/-! ### The shortest messages -/

def emptyClick : Json ℤ :=
  .object [(lit "type", .scalar (i32 1) 1), (lit "clicktime", .scalar (i32 9) 9),
    (lit "userid", .string (.ofLit "7")), (lit "docid", .string (.ofLit "31")),
    (lit "staytime", .scalar (i32 5) 5), (lit "action", .scalar (i32 1) 1),
    (lit "location", .string (.ofLit ""))]

theorem emptyClick_encodes : Encodes .action stoppedHost emptyClick (i32 36) :=
  ⟨by decide, by decide, rfl⟩

theorem updateLength_click (h : 9 ≤ c.number .fwMaxTaskSize) : c.UpdateLength 45 :=
  .inl ⟨_, _, _, 1, emptyClick_encodes, by norm_num, by omega, rfl⟩

def emptyDocument : Json ℤ :=
  .object [(lit "type", .scalar (i32 2) 2), (lit "docid", .string (.ofLit "7")),
    (lit "publictime", .scalar (i32 1) 1), (lit "pushtime", .scalar (i32 1) 1),
    (lit "power", .scalar (i32 1) 1), (lit "category", .array []), (lit "word", .array []),
    (lit "srp", .array []), (lit "circle", .array []), (lit "topflag", .scalar (i32 0) 0),
    (lit "topsrp", .array []), (lit "topcircle", .array [])]

theorem emptyDocument_encodes : Encodes .document stoppedHost emptyDocument (i32 52) :=
  ⟨by decide, by decide, rfl⟩

theorem updateLength_document : c.UpdateLength 56 :=
  .inr ⟨_, _, _, emptyDocument_encodes, rfl⟩

/-! ### The runs of the cache -/

def plainReply (n : ℕ) : Refill.FilterReply UInt32 :=
  ⟨List.replicate n 0, List.replicate n 0, List.replicate n 0, [], by simp, by simp⟩

theorem plainReply_lengths (n : ℕ) :
    replyLength (plainReply n) = 8 + 16 * n ∧ requestLength (plainReply n) = 32 + 8 * n := by
  simp [replyLength, requestLength, plainReply]

/-- In a safe configuration with a message that is distributed there are no more machines
than names. -/
theorem BuffersSafe.machines (h : BuffersSafe fl atof c)
    (hmessage : c.Refills ∨ 9 ≤ c.number .fwMaxTaskSize ∧ 45 ≤ c.number .fwCalcSendSize ∨
      56 ≤ c.number .fwCalcSendSize) : c.number .fwCalcNum ≤ 4 := by
  by_contra hlarge
  have hmem : 4 < (c.calcConfig atof).machines := by
    simp only [CalcConfig.machines, calcConfig]
    omega
  have hupdate : ∀ n : ℕ, c.UpdateLength n → (n : ℤ) ≤ c.number .fwCalcSendSize → False := by
    intro n hn hle
    rcases (UpdateProcessor.distributeTask_ok_iff (c := c.calcConfig atof) (List.replicate n 0)
      fun _ => 0).mpr (by simpa [calcConfig] using hle) with ⟨m₁, hm⟩
    exact absurd (h.updateNames _ _ m₁ (by simpa using hn) hm _ 4 (UpdateProcessor.mem_namesRead hmem))
      (lt_irrefl 4)
  rcases hmessage with ⟨hthreads, htask, hsend⟩ | ⟨htask, hsend⟩ | hsend
  · rcases plainReply_lengths 1 with ⟨hreplyLen, hrequestLen⟩
    rcases (@QueryProcessor.distributeTask_ok_iff (c.calcConfig atof) (List.replicate 40 0)
      (by simp) fun _ => 0).mpr (by simpa [calcConfig] using hsend) with ⟨m₁, hm⟩
    have hlength : c.QueryLength ((List.replicate 40 (0 : UInt8)).length : ℕ) :=
      ⟨plainReply 1, by simp [plainReply], hthreads, by rw [hreplyLen]; push_cast; omega,
        by rw [hrequestLen]; simp⟩
    exact absurd (h.queryNames _ _ m₁ hlength hm ⟨fun a _ => a, fun a _ => a⟩ false _ 4
      (QueryProcessor.mem_namesRead hmem)) (lt_irrefl 4)
  · exact hupdate 45 (updateLength_click htask) (by exact_mod_cast hsend)
  · exact hupdate 56 updateLength_document (by exact_mod_cast hsend)

end CenterConfig

end PrimaryElection.Framework
