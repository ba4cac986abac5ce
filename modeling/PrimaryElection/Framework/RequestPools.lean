import PrimaryElection.Framework.FanOutRuns
import PrimaryElection.Framework.MessageBounds
import PrimaryElection.Lib.Pools

/-! What `process_query(uid, log)` and `process_action` take from the pools of the center
and give back: blocks of m_ma_TB, the handles of the two message processors, the stream
nodes of their `UC_CenterMessage`. A request that waits for its own message keeps a
reference to the node, and nobody else gives it back. -/

namespace PrimaryElection.Framework.RequestPools

open CInt Bytes Memory Refill Util
open Pools (Program Op)
open Encoder (Outcome)

inductive Service where
  | query
  | update
  deriving DecidableEq

inductive Pool where
  | taskBlock
  | handle (s : Service)
  | streamNode (s : Service)
  deriving DecidableEq

structure Center where
  config : CalcConfig
  fwMaxTaskSize : I32

/-- `candidate_query`; without a peer the connection or the sending fails. -/
def candidateResult (resultLen : ℤ) (peer : Option Peer) : Option Receipt :=
  peer.bind fun p =>
    let r := candidateQuery resultLen p
    if r.ok then some r else none

/-- The pools' answers to `put_message`, and the handle before and after the tasks. -/
structure Delivery where
  handle : Bool
  node : Bool
  handleBuf : Mem
  tasks : Mem → Mem

/-- `put_message` with a reference, given what `distribute_task` does to the new handle.
The node is used without a check. -/
def putMessage (s : Service) (d : Delivery) (distributed : Outcome Mem) (fwCalcNum : ℤ) :
    Program Pool (Option Mem) :=
  if d.handle = false then pure none
  else do
    .get (.handle s)
    match distributed with
    | .fault => .abort
    | .code _ => do
      .put (.handle s)
      pure none
    | .ok m =>
      if fwCalcNum ≤ 0 then do
        .put (.handle s)
        pure none
      else if d.node = false then .abort
      else do
        .get (.streamNode s)
        pure (some m)

/-- `get_message` with a reference, given the combined handle and what `extract_result`
takes from it. -/
def getMessage (s : Service) (combined : Option Mem) (extractResult : Mem → Outcome (List UInt8)) :
    Program Pool (Option (List UInt8)) :=
  match combined with
  | none => .abort
  | some m =>
    match extractResult m with
    | .fault => .abort
    | .code _ => pure none
    | .ok result => do
      .put (.handle s)
      .put (.streamNode s)
      pure (some result)

/-! ### The requests -/

/-- What a call of `process_query(uid, log)` finds: the pool's answers and the contents
of the blocks, the filter, the log file's pointer and the delivery of its message. -/
structure QueryRun where
  uid : UInt64
  filterBlock : Bool
  filterMem : Mem
  filter : Option Peer
  calcBlock : Bool
  calcMem : Mem
  logFile : UInt64
  delivery : Delivery

def QueryRun.filterBuf (r : QueryRun) (reply : Receipt) : Mem :=
  (⟨0, reply.body⟩ : Store).apply r.filterMem

/-- The sizes of the two copies out of the reply are not negative. -/
def copies (filterBuf : Mem) : Bool :=
  0 ≤ toInt32 (loadInt filterBuf 0 * 8) ∧
    0 ≤ toInt32 (loadInt filterBuf (histAt (loadInt filterBuf 0)) * 8)

def QueryRun.message (r : QueryRun) (request : CalcRequest) : List UInt8 :=
  load (applyAll (request.stores ++ [⟨0, word8 r.logFile⟩]) r.calcMem) 0 request.length.toNat

/-- `process_query(uid, log)` up to the end of its use of the pools. Copies without end leave
no result, and neither do the failed assertions, on `calc_len`, on the result's count and in
`combine_task`: a build with `-DNDEBUG` goes on behind them, which is not modelled here. -/
def processQuery (ops : QueryProcessor.FloatOps) (k : Center) (r : QueryRun) : Program Pool Unit :=
  if r.filterBlock = false then .exit (-1)
  else do
    .get .taskBlock
    match candidateResult k.fwMaxTaskSize.val r.filter with
    | none => do
      .put .taskBlock
      .exit (-1)
    | some reply =>
      if reply.header = some 0 then do
        .put .taskBlock
        .exit (-1)
      else if r.calcBlock = false then do
        .put .taskBlock
        .exit (-1)
      else do
        .get .taskBlock
        match calcRequest r.uid (r.filterBuf reply) with
        | none => do
          .put .taskBlock
          .put .taskBlock
          .exit 0
        | some request =>
          if copies (r.filterBuf reply) = false ∨ k.fwMaxTaskSize.val < request.length then .abort
          else do
            let sent ← putMessage .query r.delivery
              (QueryProcessor.distributeTask k.config r.delivery.handleBuf (r.message request))
              k.config.fwCalcNum
            match sent with
            | none => do
              .put .taskBlock
              .put .taskBlock
              .exit (-1)
            | some m => do
              let result ← getMessage .query
                (QueryProcessor.combineTask ops k.config (r.delivery.tasks m))
                fun m => QueryProcessor.extractResult k.config m k.fwMaxTaskSize.val
              match result with
              | none => do
                .put .taskBlock
                .put .taskBlock
                .exit (-1)
              | some result =>
                if int4Val (result.take 4) ≠ 0 ∧
                    int4Val (result.take 4) ≠ loadInt (r.filterBuf reply) 0 then .abort
                else do
                  .put .taskBlock
                  .put .taskBlock
                  .exit 0

structure ActionRun where
  parseBuf : List UInt8
  block : Bool
  updateMem : Mem
  history : Option Peer
  update : Option Peer
  delivery : Delivery

def ActionRun.message (r : ActionRun) (msg : Composed) : List UInt8 :=
  load (applyAll msg.stores r.updateMem) 0 msg.length.toNat

/-- `process_action`. An update beyond `update_buf` leaves no result. -/
def processAction (k : Center) (r : ActionRun) : Program Pool Unit :=
  if r.block = false then .exit (-1)
  else do
    .get .taskBlock
    match candidateResult (toInt32 (k.fwMaxTaskSize.val - 8)) r.history with
    | none => do
      .put .taskBlock
      .exit (-1)
    | some history =>
      match updateMessage r.parseBuf history with
      | none => do
        .put .taskBlock
        .exit (-1)
      | some msg =>
        match candidateResult 32 r.update with
        | none => do
          .put .taskBlock
          .exit (-1)
        | some _ =>
          if msg.length < 0 ∨ k.fwMaxTaskSize.val < msg.length then .abort
          else do
            let sent ← putMessage .update r.delivery
              (UpdateProcessor.distributeTask k.config r.delivery.handleBuf (r.message msg))
              k.config.fwCalcNum
            match sent with
            | none => do
              .put .taskBlock
              .exit (-1)
            | some m => do
              let result ← getMessage .update
                (UpdateProcessor.combineTask k.config (r.delivery.tasks m))
                fun m => UpdateProcessor.extractResult k.config m 32
              match result with
              | none => do
                .put .taskBlock
                .exit (-1)
              | some _ => do
                .put .taskBlock
                .exit 0

/-! ### What the messages keep -/

/-- What is left out of the pools by a query whose result is not taken. -/
def leaked (q : Pool) : ℤ :=
  (if Pool.handle .query = q then 1 else 0) + if Pool.streamNode .query = q then 1 else 0

/-- The call hands its request to the machines in the handle `m`. -/
structure QueryRun.Sends (k : Center) (r : QueryRun) (m : Mem) : Prop where
  filterBlock : r.filterBlock = true
  calcBlock : r.calcBlock = true
  handle : r.delivery.handle = true
  node : r.delivery.node = true
  machines : 0 < k.config.fwCalcNum
  request : ∃ reply request, candidateResult k.fwMaxTaskSize.val r.filter = some reply ∧
    reply.header ≠ some 0 ∧ calcRequest r.uid (r.filterBuf reply) = some request ∧
    copies (r.filterBuf reply) = true ∧ request.length ≤ k.fwMaxTaskSize.val ∧
    QueryProcessor.distributeTask k.config r.delivery.handleBuf (r.message request) = .ok m

theorem QueryRun.Sends.unique {k : Center} {r : QueryRun} {m m' : Mem} (h : r.Sends k m)
    (h' : r.Sends k m') : m = m' := by
  obtain ⟨reply, request, hreply, -, hrequest, -, -, hdist⟩ := h.request
  obtain ⟨reply', request', hreply', -, hrequest', -, -, hdist'⟩ := h'.request
  obtain rfl := Option.some.inj (hreply.symm.trans hreply')
  obtain rfl := Option.some.inj (hrequest.symm.trans hrequest')
  exact Outcome.ok.inj (hdist.symm.trans hdist')

/-- The result that the machines' replies combine to is longer than the buffer for it. -/
def QueryRun.Oversized (ops : QueryProcessor.FloatOps) (k : Center) (r : QueryRun) : Prop :=
  ∃ m m', r.Sends k m ∧ QueryProcessor.combineTask ops k.config (r.delivery.tasks m) = some m' ∧
    k.fwMaxTaskSize.val < loadInt m' (k.config.resultBuf QueryProcessor.head)

section

open Pools.Program

variable {α : Type} {s : Service} {b : Pool → ℤ}

/-- A message that is not sent keeps nothing; one that is keeps a handle and a node. -/
theorem keeps_putMessage {d : Delivery} {o : Outcome Mem} {n : ℤ}
    {f : Option Mem → Program Pool α}
    (hnone : (∀ m, o = .ok m → d.handle = true → ¬ 0 < n) → Keeps (f none) b)
    (hsome : ∀ m, o = .ok m → d.handle = true → d.node = true → 0 < n → Keeps (f (some m)) fun q =>
      b q - (if Pool.handle s = q then 1 else 0) - if Pool.streamNode s = q then 1 else 0) :
    Keeps (putMessage s d o n >>= f) b := by
  have hback (g : Keeps (f none) b) : Keeps (f none) fun q =>
      (b q - if Pool.handle s = q then 1 else 0) + if Pool.handle s = q then 1 else 0 := by
    simpa only [sub_add_cancel] using g
  unfold putMessage
  by_cases hhandle : d.handle = false
  · rw [if_pos hhandle, pure_bind]
    exact hnone fun m _ h => by simp [hhandle] at h
  rw [if_neg hhandle, bind_assoc]
  apply keeps_get
  cases o with
  | fault => exact keeps_abort
  | code c =>
    simp only [bind_assoc, pure_bind]
    exact keeps_put (hback (hnone fun m h => (nomatch h)))
  | ok m =>
    by_cases hn : n ≤ 0
    · simp only [hn, if_true, bind_assoc, pure_bind]
      exact keeps_put (hback (hnone fun _ _ _ => not_lt.mpr hn))
    · by_cases hnode : d.node = false
      · simp only [hn, hnode, if_true, if_false]
        exact keeps_abort
      · have hsent := hsome m rfl (by simpa using hhandle) (by simpa using hnode) (not_le.mp hn)
        simp only
        rw [if_neg hn, if_neg hnode, bind_assoc]
        exact keeps_get hsent

/-- The result that is taken gives back the handle and the node; the one that is refused
does not. -/
theorem keeps_getMessage {combined : Option Mem} {extractResult : Mem → Outcome (List UInt8)}
    {f : Option (List UInt8) → Program Pool α}
    (hnone : ∀ m c, combined = some m → extractResult m = .code c → Keeps (f none) b)
    (hsome : ∀ m result, combined = some m → extractResult m = .ok result →
      Keeps (f (some result)) fun q =>
        b q + (if Pool.handle s = q then 1 else 0) + if Pool.streamNode s = q then 1 else 0) :
    Keeps (getMessage s combined extractResult >>= f) b := by
  unfold getMessage
  cases combined with
  | none => exact keeps_abort
  | some m =>
    cases hres : extractResult m with
    | fault =>
      simp only [hres]
      exact keeps_abort
    | code c => simpa only [hres, pure_bind] using hnone m c rfl hres
    | ok result =>
      simp only [hres, bind_assoc, pure_bind]
      exact keeps_put (keeps_put (hsome m result rfl hres))

theorem getMessage_code (m : Mem) (extractResult : Mem → Outcome (List UInt8)) {c : ℤ}
    (h : extractResult m = .code c) : (getMessage s (some m) extractResult).out = .ok none := by
  unfold getMessage
  simp only [h]
  rfl

theorem extractResult_code {resBuf resultLen c : ℤ} {m : Mem}
    (h : extractResult resBuf m resultLen = .code c) : resultLen < loadInt m resBuf := by
  unfold extractResult at h
  split_ifs at h with hc
  exact hc

theorem extractResult_of_lt {resBuf resultLen : ℤ} {m : Mem} (h : resultLen < loadInt m resBuf) :
    extractResult resBuf m resultLen = .code (-1) := if_pos h

theorem extractResult_ok {resBuf resultLen : ℤ} {m : Mem} {result : List UInt8}
    (h : extractResult resBuf m resultLen = .ok result) : loadInt m resBuf ≤ resultLen := by
  unfold extractResult at h
  split_ifs at h with hc
  exact not_lt.mp hc

theorem keeps_release (c : ℤ) (h : ∀ q, b q = 0) :
    Keeps (do .put .taskBlock; .exit c : Program Pool α) fun q =>
      b q - if Pool.taskBlock = q then 1 else 0 := by
  refine keeps_put (keeps_exit fun q => ?_)
  rw [h, zero_sub, neg_add_cancel]

theorem keeps_releaseBoth (c : ℤ) (h : ∀ q, b q = 0) :
    Keeps (do .put .taskBlock; .put .taskBlock; .exit c : Program Pool α) fun q =>
      (b q - if Pool.taskBlock = q then 1 else 0) - if Pool.taskBlock = q then 1 else 0 := by
  refine keeps_put (keeps_put (keeps_exit fun q => ?_))
  rw [h]
  ring

/-- A finished query keeps nothing unless its result was oversized. -/
theorem keeps_processQuery {ops : QueryProcessor.FloatOps} {k : Center} {r : QueryRun}
    (hfit : ¬ r.Oversized ops k → ∀ q, b q = 0) (hover : r.Oversized ops k → b = leaked) :
    Keeps (processQuery ops k r) b := by
  have hstop (h : ∀ m, ¬ r.Sends k m) (q : Pool) : b q = 0 :=
    hfit (fun ⟨m, _, hs, _⟩ => h m hs) q
  unfold processQuery
  by_cases hfilterBlock : r.filterBlock = false
  · rw [if_pos hfilterBlock]
    exact keeps_exit (hstop fun m hs => by simp [hs.filterBlock] at hfilterBlock)
  rw [if_neg hfilterBlock]
  apply keeps_get
  cases hreply : candidateResult k.fwMaxTaskSize.val r.filter with
  | none =>
    refine keeps_release (-1) (hstop fun m hs => ?_)
    obtain ⟨reply, -, h, -⟩ := hs.request
    cases hreply.symm.trans h
  | some reply =>
    have hsame {reply' : Receipt} (h : candidateResult k.fwMaxTaskSize.val r.filter = some reply') :
        reply' = reply := Option.some.inj (h.symm.trans hreply)
    simp only
    by_cases hempty : reply.header = some 0
    · rw [if_pos hempty]
      refine keeps_release (-1) (hstop fun m hs => ?_)
      obtain ⟨reply', -, h, hne, -⟩ := hs.request
      exact hne (hsame h ▸ hempty)
    rw [if_neg hempty]
    by_cases hcalcBlock : r.calcBlock = false
    · rw [if_pos hcalcBlock]
      exact keeps_release (-1) (hstop fun m hs => by simp [hs.calcBlock] at hcalcBlock)
    rw [if_neg hcalcBlock]
    apply keeps_get
    cases hrequest : calcRequest r.uid (r.filterBuf reply) with
    | none =>
      refine keeps_releaseBoth 0 (hstop fun m hs => ?_)
      obtain ⟨reply', request, h, -, hr, -⟩ := hs.request
      rw [hsame h, hrequest] at hr
      cases hr
    | some request =>
      simp only
      split_ifs with hbad
      · exact keeps_abort
      obtain ⟨hcopies, hlength⟩ := not_or.mp hbad
      refine keeps_putMessage (fun hno => ?_) fun m hdist hhandle hnode hmachines => ?_
      · refine keeps_releaseBoth (-1) (hstop fun m hs => ?_)
        obtain ⟨reply', request', h, -, hr, -, -, hdist⟩ := hs.request
        rw [hsame h, hrequest] at hr
        cases hr
        exact hno m hdist hs.handle hs.machines
      · have hsends : r.Sends k m :=
          { filterBlock := by simpa using hfilterBlock
            calcBlock := by simpa using hcalcBlock
            handle := hhandle
            node := hnode
            machines := hmachines
            request := ⟨reply, request, hreply, hempty, hrequest, by simpa using hcopies,
              not_lt.mp hlength, hdist⟩ }
        refine keeps_getMessage (fun m' c hcomb hext => ?_) fun m' result hcomb hext => ?_
        · have hb := hover ⟨m, m', hsends, hcomb, extractResult_code hext⟩
          have hleft : ∀ q, b q - leaked q = 0 := fun q => by rw [hb, sub_self]
          refine (keeps_releaseBoth (-1) hleft).congr fun q => ?_
          unfold leaked
          ring
        · have hb := hfit fun ⟨m₁, m₁', hs₁, hcomb₁, hlt⟩ => by
            obtain rfl := hsends.unique hs₁
            obtain rfl := Option.some.inj (hcomb.symm.trans hcomb₁)
            exact absurd (extractResult_ok hext) (not_le.mpr hlt)
          simp only
          split_ifs
          · exact keeps_abort
          · refine (keeps_releaseBoth 0 hb).congr fun q => ?_
            ring

theorem processQuery_oversized {ops : QueryProcessor.FloatOps} {k : Center} {r : QueryRun}
    (h : r.Oversized ops k) : (processQuery ops k r).out = .code (-1) := by
  obtain ⟨m, m', hs, hcomb, hlt⟩ := h
  obtain ⟨reply, request, hreply, hempty, hrequest, hcopies, hlength, hdist⟩ := hs.request
  have hput : (putMessage .query r.delivery (.ok m) k.config.fwCalcNum).out = .ok (some m) := by
    unfold putMessage
    rw [if_neg (by simp [hs.handle])]
    simp only
    rw [if_neg (not_le.mpr hs.machines), if_neg (by simp [hs.node])]
    rfl
  have hext : QueryProcessor.extractResult k.config m' k.fwMaxTaskSize.val = .code (-1) :=
    extractResult_of_lt hlt
  -- every test is decided before the kernel compares two programs
  unfold processQuery
  simp only [hreply, hrequest, hdist]
  rw [if_neg (by simp [hs.filterBlock]), if_neg hempty, if_neg (by simp [hs.calcBlock]),
    if_neg (by simp [hcopies, hlength]), out_get_bind, out_get_bind, out_bind hput]
  simp only [hcomb]
  rw [out_bind (getMessage_code m' (fun m => QueryProcessor.extractResult k.config m _) hext)]
  rfl

theorem update_size {c : CalcConfig} {m m' : Mem} (h : UpdateProcessor.combineTask c m = some m') :
    loadInt m' (c.resultBuf UpdateProcessor.head) = 4 := by
  unfold UpdateProcessor.combineTask at h
  obtain rfl := Option.some.inj h
  exact UpdateProcessor.loadInt_result _ _ m

theorem keeps_processAction {k : Center} {r : ActionRun} : Keeps (processAction k r) 0 := by
  have hnothing (q : Pool) : (0 : Pool → ℤ) q = 0 := rfl
  unfold processAction
  split_ifs with hblock
  · exact keeps_exit hnothing
  apply keeps_get
  cases candidateResult (toInt32 (k.fwMaxTaskSize.val - 8)) r.history with
  | none => exact keeps_release (-1) hnothing
  | some history =>
    simp only
    cases updateMessage r.parseBuf history with
    | none => exact keeps_release (-1) hnothing
    | some msg =>
      simp only
      cases candidateResult 32 r.update with
      | none => exact keeps_release (-1) hnothing
      | some reply =>
        simp only
        split_ifs with hbad
        · exact keeps_abort
        refine keeps_putMessage (fun _ => keeps_release (-1) hnothing) fun m _ _ _ _ => ?_
        refine keeps_getMessage (fun m' c hcomb hext => ?_) fun m' result hcomb hext => ?_
        · have hlong := extractResult_code hext
          rw [update_size hcomb] at hlong
          exact absurd hlong (by norm_num)
        · refine (keeps_release 0 hnothing).congr fun q => ?_
          ring

end

/-! ### Any number of requests -/

theorem leaked_nonneg (q : Pool) : 0 ≤ leaked q := by
  unfold leaked
  split_ifs <;> norm_num

inductive Request where
  | query (r : QueryRun)
  | action (r : ActionRun)

def Request.run (ops : QueryProcessor.FloatOps) (k : Center) : Request → Program Pool Unit
  | query r => processQuery ops k r
  | action r => processAction k r

def Request.Oversized (ops : QueryProcessor.FloatOps) (k : Center) : Request → Prop
  | query r => r.Oversized ops k
  | action _ => False

open Classical in
/-- What a finished request leaves out of the pools. -/
theorem Request.balance_run {ops : QueryProcessor.FloatOps} {k : Center} {r : Request}
    (hfin : (r.run ops k).Finished) (q : Pool) :
    Pools.balance (r.run ops k).ops q = if r.Oversized ops k then leaked q else 0 := by
  cases r with
  | query r =>
    by_cases hover : (query r).Oversized ops k
    · rw [if_pos hover]
      exact keeps_processQuery (fun h => absurd hover h) (fun _ => rfl) hfin q
    · rw [if_neg hover]
      exact keeps_processQuery (b := 0) (fun _ _ => rfl) (fun h => absurd h hover) hfin q
  | action r => exact (keeps_processAction hfin q).trans (if_neg not_false).symm

/-- Where the machines' replies fit their buffers and have one count, the result is
oversized when it has the scores of an accepted reply and they are too many. -/
theorem QueryRun.oversized_iff {ops : QueryProcessor.FloatOps} {k : Center} (r : QueryRun)
    (x : ℕ → Exchange) (num : ℕ) (hfits : k.config.Fits QueryProcessor.head)
    (hx : ∀ i < k.config.machines, (x i).Within k.config)
    (htasks : r.delivery.tasks = Stream.sequential (QueryProcessor.fan ops k.config x))
    (hnum : ∀ i < k.config.machines, ∀ p, QueryProcessor.accepted (x i) = some p →
      QueryProcessor.replyNum p = num)
    (hroom : 4 + 4 * (num : ℤ) ≤ k.config.fwCalcResultSize) :
    r.Oversized ops k ↔ (∃ m, r.Sends k m) ∧
      k.fwMaxTaskSize.val < 4 + 4 * (QueryProcessor.resultNum k.config x num : ℤ) := by
  have hhead : (0 : ℤ) ≤ QueryProcessor.head := by decide
  have hsize (m : Mem) : ∃ m', QueryProcessor.combineTask ops k.config (r.delivery.tasks m) = some m' ∧
      loadInt m' (k.config.resultBuf QueryProcessor.head) =
        4 + 4 * (QueryProcessor.resultNum k.config x num : ℤ) := by
    rw [htasks]
    have hreplies : QueryProcessor.Replies k.config x
        (Stream.sequential (QueryProcessor.fan ops k.config x) m) num :=
      { received := fun i hi => sequential_received hfits hhead (by decide) hx m hi
        before := fun i hi => hfits.slot_result hhead hi
        length := fun i hi p hp => Exchange.payload_length (hx i hi) hp
        counts := hnum
        recv := hfits.recv.le
        fits := hroom
        small := (hfits.sizes_lt hhead).2 }
    obtain ⟨m', hm', -, hextract⟩ := QueryProcessor.combineTask_spec hreplies
    refine ⟨m', hm', le_antisymm ?_ (not_lt.mp fun hlt => ?_)⟩
    · exact extractResult_ok ((hextract _).trans (if_neg (lt_irrefl _)))
    · exact absurd (extractResult_code ((hextract _).trans (if_pos hlt))) (lt_irrefl _)
  constructor
  · rintro ⟨m, m', hs, hcomb, hlt⟩
    obtain ⟨m'', hm'', hsz⟩ := hsize m
    obtain rfl := Option.some.inj (hcomb.symm.trans hm'')
    exact ⟨⟨m, hs⟩, hsz ▸ hlt⟩
  · rintro ⟨⟨m, hs⟩, hlt⟩
    obtain ⟨m', hm', hsz⟩ := hsize m
    exact ⟨m, m', hs, hm', hsz ▸ hlt⟩

/-- However the operations of any number of finished requests interleave, the use of the
pools is unchanged exactly when no query had an oversized result. -/
theorem requests_return_iff (ops : QueryProcessor.FloatOps) (k : Center) (rs : List Request)
    (hfin : ∀ r ∈ rs, (r.run ops k).Finished) (trace : List (Op Pool))
    (htrace : trace.Perm (rs.flatMap fun r => (r.run ops k).ops)) (u : Pool → ℤ) :
    (Pools.usage u trace = u ↔ ∀ r ∈ rs, ¬ r.Oversized ops k) ∧
    ∀ (r : QueryRun) (x : ℕ → Exchange) (num : ℕ), k.config.Fits QueryProcessor.head →
      (∀ i < k.config.machines, (x i).Within k.config) →
      r.delivery.tasks = Stream.sequential (QueryProcessor.fan ops k.config x) →
      (∀ i < k.config.machines, ∀ p, QueryProcessor.accepted (x i) = some p →
        QueryProcessor.replyNum p = num) →
      4 + 4 * (num : ℤ) ≤ k.config.fwCalcResultSize →
      ((Request.query r).Oversized ops k ↔ (∃ m, r.Sends k m) ∧
        k.fwMaxTaskSize.val < 4 + 4 * (QueryProcessor.resultNum k.config x num : ℤ)) := by
  refine ⟨?_, QueryRun.oversized_iff⟩
  have hbalance : ∀ r ∈ rs, ∀ q, 0 ≤ Pools.balance (r.run ops k).ops q := fun r hr q => by
    rw [Request.balance_run (hfin r hr) q]
    split_ifs
    · exact leaked_nonneg q
    · exact le_rfl
  rw [Pools.usage_unchanged_iff htrace hbalance]
  refine forall₂_congr fun r hr => ?_
  constructor
  · intro h hover
    have hhandle := h (.handle .query)
    rw [Request.balance_run (hfin r hr), if_pos hover] at hhandle
    exact absurd hhandle (by decide)
  · intro h q
    rw [Request.balance_run (hfin r hr), if_neg h]

def smallCenter : Center := ⟨⟨40, 52, 44, 1, fun _ => 1065353216⟩, ⟨40, by decide⟩⟩

def oneCandidate : List UInt8 := int4 1 ++ word8 7 ++ int4 0 ++ int4 1 ++ int4 0

def tenScores : Exchange := .reply ⟨44, by decide⟩ [int4 10, List.replicate 40 0] false

def scoresRun (ops : QueryProcessor.FloatOps) : QueryRun where
  uid := 5
  filterBlock := true
  filterMem := fun _ => 0
  filter := some ⟨[int4 24, oneCandidate], false⟩
  calcBlock := true
  calcMem := fun _ => 0
  logFile := 0
  delivery :=
    { handle := true
      node := true
      handleBuf := fun _ => 0
      tasks := Stream.sequential (QueryProcessor.fan ops smallCenter.config fun _ => tenScores) }

/-- A message that fits the send buffer and begins with a pointer is distributed. -/
theorem distributeTask_of_fits (c : CalcConfig) (m : Mem) (message : List UInt8)
    (hsend : c.fwCalcSendSize < 2147483648) (h₀ : 8 ≤ message.length)
    (h₁ : (message.length : ℤ) ≤ c.fwCalcSendSize) :
    ∃ m', QueryProcessor.distributeTask c m message = .ok m' := by
  have h8 : toSize 8 = 8 := by decide
  have hbody := toSize_body h₀ (by omega)
  unfold QueryProcessor.distributeTask memcpy
  simp only
  rw [if_neg (not_lt.mpr h₁), h8, if_neg (not_lt.mpr h₀), hbody, if_neg (lt_irrefl _)]
  exact ⟨_, rfl⟩

theorem scoresRun_sends (ops : QueryProcessor.FloatOps) : ∃ m, (scoresRun ops).Sends smallCenter m := by
  obtain ⟨reply, hreply, hparts⟩ : ∃ reply, candidateResult 40 (some ⟨[int4 24, oneCandidate], false⟩) =
      some reply ∧ (reply.header, reply.body) = (some 24, oneCandidate) :=
    Option.map_eq_some_iff.mp (by decide +kernel)
  obtain ⟨hheader, hbody⟩ := Prod.mk.inj hparts
  obtain ⟨request, hrequest, hlength⟩ : ∃ request,
      calcRequest 5 ((⟨0, oneCandidate⟩ : Store).apply fun _ => 0) = some request ∧ request.length = 40 :=
    Option.map_eq_some_iff.mp (by decide +kernel)
  have hbuf : (scoresRun ops).filterBuf reply = (⟨0, oneCandidate⟩ : Store).apply fun _ => 0 := by
    unfold QueryRun.filterBuf
    rw [hbody]
    rfl
  have hmessage : ((scoresRun ops).message request).length = 40 := by
    unfold QueryRun.message
    rw [load_length, hlength]
    rfl
  obtain ⟨m, hm⟩ := distributeTask_of_fits smallCenter.config (fun _ => 0)
    ((scoresRun ops).message request) (by decide) (by omega) (by rw [hmessage]; decide)
  refine ⟨m, rfl, rfl, rfl, rfl, by decide, reply, request, hreply, ?_, ?_, ?_, hlength.le, hm⟩
  · rw [hheader]
    decide
  · rw [hbuf]
    exact hrequest
  · rw [hbuf]
    decide +kernel

theorem scoresRun_oversized (ops : QueryProcessor.FloatOps) :
    (scoresRun ops).Oversized ops smallCenter := by
  have hscores : QueryProcessor.accepted tenScores = some (int4 10 ++ List.replicate 40 0) := by
    decide +kernel
  have hfits : smallCenter.config.Fits QueryProcessor.head :=
    ⟨by decide, by decide, by decide, by decide, by decide⟩
  have hwithin : ∀ i < smallCenter.config.machines, tenScores.Within smallCenter.config :=
    fun _ _ => ⟨by decide, by decide, by decide⟩
  have hcount : ∀ i < smallCenter.config.machines, ∀ p, QueryProcessor.accepted tenScores = some p →
      QueryProcessor.replyNum p = (10 : ℕ) := fun _ _ p hp => by
    obtain rfl := Option.some.inj (hscores.symm.trans hp)
    decide +kernel
  have hnum : QueryProcessor.resultNum smallCenter.config (fun _ => tenScores) 10 = 10 :=
    if_neg fun h => by
      have := h 0 (by decide)
      rw [hscores] at this
      cases this
  refine ((scoresRun ops).oversized_iff _ 10 hfits hwithin rfl hcount (by decide)).mpr
    ⟨scoresRun_sends ops, ?_⟩
  rw [hnum]
  decide

def wordOps : QueryProcessor.FloatOps := ⟨(· + ·), (· * ·)⟩

/-- A query without the filter, an action without a block. -/
def brokenQuery : Request := .query { scoresRun wordOps with filter := none }

def brokenAction : Request :=
  .action ⟨[], false, fun _ => 0, none, none, (scoresRun wordOps).delivery⟩

theorem brokenQuery_finished : (brokenQuery.run wordOps smallCenter).Finished := by
  have hout : (brokenQuery.run wordOps smallCenter).out = .code (-1) := by
    unfold Request.run brokenQuery processQuery candidateResult
    rfl
  exact fun h => by cases hout.symm.trans h

theorem brokenAction_finished : (brokenAction.run wordOps smallCenter).Finished := by
  have hout : (brokenAction.run wordOps smallCenter).out = .code (-1) := by
    unfold Request.run brokenAction processAction
    rfl
  exact fun h => by cases hout.symm.trans h

theorem scoresRun_finished : ((Request.query (scoresRun wordOps)).run wordOps smallCenter).Finished :=
  fun h => by cases (processQuery_oversized (scoresRun_oversized wordOps)).symm.trans h

/-- The failed requests return everything, and with the query among them something is
left out. -/
theorem requests_return_iff_three :
    Pools.usage 0 ((brokenQuery.run wordOps smallCenter).ops ++
      (brokenAction.run wordOps smallCenter).ops) = 0 ∧
    Pools.usage 0 ((brokenQuery.run wordOps smallCenter).ops ++
      ((brokenAction.run wordOps smallCenter).ops ++
        ((Request.query (scoresRun wordOps)).run wordOps smallCenter).ops)) ≠ 0 := by
  have hbroken : ¬ brokenQuery.Oversized wordOps smallCenter := fun ⟨_, _, hs, _⟩ => by
    obtain ⟨_, _, hreply, _⟩ := hs.request
    cases hreply
  constructor
  · refine (requests_return_iff wordOps smallCenter [brokenQuery, brokenAction] ?_ _ ?_ 0).1.mpr ?_
    · simp [brokenQuery_finished, brokenAction_finished]
    · simp
    · simp only [List.mem_cons, List.not_mem_nil, or_false, forall_eq_or_imp, forall_eq]
      exact ⟨hbroken, not_false⟩
  · intro h
    refine (requests_return_iff wordOps smallCenter
      [brokenQuery, brokenAction, .query (scoresRun wordOps)] ?_ _ ?_ 0).1.mp h
      (.query (scoresRun wordOps)) (by simp) (scoresRun_oversized wordOps)
    · simp [brokenQuery_finished, brokenAction_finished, scoresRun_finished]
    · simp

/-- The query returns, and a handle and a stream node are not given back. -/
theorem oversizedReply_leaks :
    (processQuery wordOps smallCenter (scoresRun wordOps)).out = .code (-1) ∧
    Pools.usage 0 (processQuery wordOps smallCenter (scoresRun wordOps)).ops (.handle .query) = 1 ∧
    Pools.usage 0 (processQuery wordOps smallCenter (scoresRun wordOps)).ops (.streamNode .query) = 1 := by
  have hbalance := Request.balance_run scoresRun_finished
  have hover : (Request.query (scoresRun wordOps)).Oversized wordOps smallCenter :=
    scoresRun_oversized wordOps
  simp only [if_pos hover] at hbalance
  refine ⟨processQuery_oversized (scoresRun_oversized wordOps), ?_, ?_⟩
  · exact (Pools.usage_apply ..).trans ((congrArg (0 + ·) (hbalance _)).trans (by decide))
  · exact (Pools.usage_apply ..).trans ((congrArg (0 + ·) (hbalance _)).trans (by decide))

end PrimaryElection.Framework.RequestPools
