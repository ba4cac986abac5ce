import PrimaryElection.Framework.HandleAccess
import PrimaryElection.Util.MemAllocator
import PrimaryElection.Util.Queue

/-! All messages through `UC_CenterMessage` at once. Requests put their messages and wait for
their own results, as `process_query`, `process_action` and `process_document` do; the
working threads take the nodes of all of them from one queue. A node and a handle go back
to their pools with the result and are used again for later messages. The handles are
blocks of one memory, that of their allocator, and the run ends where an access leaves the
block of its handle. A request is one call of `put_message` and the `get_message` for its
reference: the calls of one thread are several requests. -/

namespace PrimaryElection.Framework.CenterRequests

open Memory Util
open Encoder (Outcome)

variable {X : Type}

/-- `Interface_CenterMessage_Processor` with handles of one size from a pool, for messages
whose machines answer with `X`, and what its calls touch of a handle. -/
structure Processor (X : Type) where
  memSize : ℕ
  distributeTask : Mem → List UInt8 → Outcome Mem
  distributeSpans : List UInt8 → List Span
  fan : X → Fan
  combineSpans : Mem → List Span
  extractResult : Mem → ℤ → Outcome (List UInt8)
  extractSpans : Mem → ℤ → List Span
  distribute_outside : ∀ {n : ℕ} {m m' messageBuf}, distributeTask m messageBuf = .ok m' →
    (∀ a ∈ distributeSpans messageBuf, a.Inside 0 n) → Outside n m m'
  combine_outside : ∀ {n : ℕ} {x m m'}, (fan x).combineTask m = some m' → (∀ a ∈ combineSpans m, a.Inside 0 n) →
    Outside n m m'

/-- The accesses are inside the block of a handle. -/
def Processor.Inside (P : Processor X) (as : List Span) : Prop := ∀ a ∈ as, a.Inside 0 P.memSize

instance (P : Processor X) (as : List Span) : Decidable (P.Inside as) := inferInstanceAs (Decidable (∀ a ∈ as, _))

/-- `ICM_Query_Processor` -/
def queryProcessor (ops : QueryProcessor.FloatOps) (c : CalcConfig) : Processor (ℕ → Exchange) where
  memSize := (c.memSize QueryProcessor.head).toNat
  distributeTask := QueryProcessor.distributeTask c
  distributeSpans := QueryProcessor.distributeSpans
  fan := QueryProcessor.fan ops c
  combineSpans := QueryProcessor.combineSpans ops c
  extractResult := QueryProcessor.extractResult c
  extractSpans := extractSpans (c.resultBuf QueryProcessor.head)
  distribute_outside := QueryProcessor.distribute_outside
  combine_outside := QueryProcessor.combine_outside

/-- `ICM_Update_Processor` -/
def updateProcessor (c : CalcConfig) : Processor (ℕ → Exchange) where
  memSize := (c.memSize UpdateProcessor.head).toNat
  distributeTask := UpdateProcessor.distributeTask c
  distributeSpans := UpdateProcessor.distributeSpans
  fan := UpdateProcessor.fan c
  combineSpans := UpdateProcessor.combineSpans c
  extractResult := UpdateProcessor.extractResult c
  extractSpans := extractSpans (c.resultBuf UpdateProcessor.head)
  distribute_outside := UpdateProcessor.distribute_outside
  combine_outside := UpdateProcessor.combine_outside

theorem blockNumPs_pos : 0 < 1024 := by decide

/-- `m_ma.init(mem_size)` -/
def Processor.handles (P : Processor X) : MemAllocator.Config := ⟨P.memSize, 0, 1024, blockNumPs_pos⟩

/-- `m_stream_node.init(sizeof(STREAM_NODE))`, with the size as 72. -/
def streamNodes : MemAllocator.Config := ⟨72, 0, 1024, blockNumPs_pos⟩

/-- The arguments of `init`. -/
structure Config where
  queueLen : ℕ
  workingNum : ℕ
  queue_pos : 0 < queueLen

/-! ### Threads -/

/-- STREAM_NODE. `fan` has `all_count` and what the tasks do with the handle, `request` is
whose message it is, and `aborted` is set where its combination fails an assertion. -/
structure StreamNode (C : Type) where
  fan : Fan
  curCount : ℕ
  finCount : ℕ
  handle : ℤ
  referFin : Bool
  request : C
  aborted : Bool

/-- Where a request is: with a new handle, before `del_handle`, before the node, before or in
a `PushData` with so many copies left, behind `put_message`, before `del_handle` or
`put_mem` in `get_message`, or at an end, where a result too long leaves its node behind. -/
inductive Request (X : Type) where
  | idle
  | handled (messageBuf : List UInt8) (x : X) (handle : ℤ)
  | declined (handle : ℤ)
  | distributed (messageBuf : List UInt8) (x : X) (handle : ℤ)
  | pushing (node : ℤ) (copies : ℕ)
  | inPush (node : ℤ) (copies : ℕ)
  | placed (node : ℤ)
  | deleting (node : ℤ) (result : List UInt8)
  | freeing (node : ℤ) (result : List UInt8)
  | returned (result : List UInt8)
  | refused
  | lost (node : ℤ)

def Request.pushed : Request X → Request X
  | inPush node copies => if copies = 1 then placed node else pushing node (copies - 1)
  | q => q

/-- Where a working thread is: before `PopData`, in it, or at a node. -/
inductive Worker where
  | idle
  | popping
  | busy (node : ℤ) (phase : Phase)

/-- The message that a request put, what its machines answer, and the memory of its handle
after the distribution. -/
structure Origin (X : Type) where
  messageBuf : List UInt8
  answers : X
  mem : Mem

/-- The pools, of which that of the handles has their bytes, the nodes, `mq_waiting`, the
requests and threads; `origin` keeps what became of the distribution of each request's
message. -/
structure State (c : Config) (C X : Type) where
  handles : MemAllocator.State
  nodes : MemAllocator.State
  node : ℤ → StreamNode C
  queue : Monitor.State (Queue.UTQueue c.queueLen ℤ) ℤ (C ⊕ Fin c.workingNum)
  request : C → Request X
  worker : Fin c.workingNum → Worker
  origin : C → Option (Origin X)
  aborted : Bool

/-- A request asks for a handle and a node, with what `new` would give; a result has to fit
in the buffer of its request. -/
inductive Event (c : Config) (C X : Type) where
  | newHandle (r : C) (messageBuf : List UInt8) (x : X) (memBuf : ℤ)
  | distribute (r : C)
  | newNode (r : C) (memBuf : ℤ)
  | push (r : C)
  | extract (r : C) (resultLen : ℤ)
  | delHandle (r : C)
  | putNode (r : C)
  | pop (w : Fin c.workingNum)
  | fetch (w : Fin c.workingNum)
  | write (w : Fin c.workingNum)
  | finish (w : Fin c.workingNum)
  | combine (w : Fin c.workingNum)
  | publish (w : Fin c.workingNum)
  | queue (t : C ⊕ Fin c.workingNum)
  | spurious (t : C ⊕ Fin c.workingNum)

/-- A step of a message's stream: of which request, and the call that returned. -/
abbrev Observed (c : Config) (C : Type) := Option (C × Act c.workingNum × Option Call)

variable {c : Config} {C : Type}

def State.init (c : Config) (C X : Type) (m : Mem) (node : ℤ → StreamNode C) (tpQueue : Fin c.queueLen → ℤ) :
    State c C X where
  handles := .init m
  nodes := .init m
  node := node
  queue := ⟨⟨Queue.Ring.start c.queue_pos, tpQueue⟩, fun _ => .out⟩
  request := fun _ => .idle
  worker := fun _ => .idle
  origin := fun _ => none
  aborted := false

/-! ### Steps -/

namespace State

def setNode (s : State c C X) (p : ℤ) (n : StreamNode C) : State c C X :=
  { s with node := Function.update s.node p n }

def mem (s : State c C X) (P : Processor X) (handle : ℤ) : Mem := ofBytes (load s.handles.mem handle P.memSize)

def setMem (s : State c C X) (P : Processor X) (handle : ℤ) (m : Mem) : State c C X :=
  { s with handles := s.handles.write handle 0 (load m 0 P.memSize) }

def setWorker (s : State c C X) (w : Fin c.workingNum) (q : Worker) : State c C X :=
  { s with worker := Function.update s.worker w q }

def setRequest [DecidableEq C] (s : State c C X) (r : C) (q : Request X) : State c C X :=
  { s with request := Function.update s.request r q }

/-- An assertion failed, or memory was used outside of a handle's block or a message. -/
def abort (s : State c C X) : State c C X := { s with aborted := true }

end State

variable [DecidableEq C] (P : Processor X)

/-- `del_handle` -/
def delHandle (s : State c C X) (handle : ℤ) : Option (State c C X × Observed c C) :=
  (MemAllocator.step P.handles s.handles (.put handle)).map fun a =>
    if a.2 = .aborted then (s.abort, none) else ({ s with handles := a.1 }, none)

def advance (s : State c C X) : Event c C X → Option (State c C X × Observed c C)
  | .newHandle r messageBuf x memBuf =>
    match s.request r with
    | .idle =>
      (MemAllocator.step P.handles s.handles (.get memBuf)).map fun a =>
        match a.2 with
        | .got handle =>
          ({ s.setRequest r (if handle = 0 then .refused else .handled messageBuf x handle) with handles := a.1 }, none)
        | _ => (s.abort, none)
    | _ => none
  | .distribute r =>
    match s.request r with
    | .handled messageBuf x handle =>
      match P.distributeTask (s.mem P handle) messageBuf with
      | .ok m =>
        if P.Inside (P.distributeSpans messageBuf) then
          some ((s.setMem P handle m).setRequest r
            (if (P.fan x).allCount = 0 then .declined handle else .distributed messageBuf x handle), none)
        else some (s.abort, none)
      | .code _ => some (s.setRequest r (.declined handle), none)
      | .fault => some (s.abort, none)
    | _ => none
  | .newNode r memBuf =>
    match s.request r with
    | .distributed messageBuf x handle =>
      (MemAllocator.step streamNodes s.nodes (.get memBuf)).map fun a =>
        match a.2 with
        | .got p =>
          -- the node is used without a check
          if p = 0 then (s.abort, none)
          else ({ (s.setNode p ⟨P.fan x, 0, 0, handle, false, r, false⟩).setRequest r (.pushing p (P.fan x).allCount) with
            nodes := a.1
            origin := Function.update s.origin r (some ⟨messageBuf, x, s.mem P handle⟩) }, none)
        | _ => (s.abort, none)
    | _ => none
  | .push r =>
    match s.request r with
    | .pushing p copies =>
      (Monitor.step (Queue.UTQueue.buffer c.queueLen ℤ) s.queue (.push (.inl r) p)).map fun m =>
        ({ s.setRequest r (.inPush p copies) with queue := m.1 }, none)
    | _ => none
  | .extract r resultLen =>
    match s.request r with
    | .placed p =>
      if (s.node p).referFin then
        if P.Inside (P.extractSpans (s.mem P (s.node p).handle) resultLen) then
          match P.extractResult (s.mem P (s.node p).handle) resultLen with
          | .ok result => some (s.setRequest r (.deleting p result), none)
          | .code _ => some (s.setRequest r (.lost p), none)
          | .fault => some (s.abort, none)
        else some (s.abort, none)
      else none
    | _ => none
  | .delHandle r =>
    match s.request r with
    | .declined handle => delHandle P (s.setRequest r .refused) handle
    | .deleting p result => delHandle P (s.setRequest r (.freeing p result)) (s.node p).handle
    | _ => none
  | .putNode r =>
    match s.request r with
    | .freeing p result =>
      (MemAllocator.step streamNodes s.nodes (.put p)).map fun a =>
        if a.2 = .aborted then (s.abort, none)
        else ({ s.setRequest r (.returned result) with nodes := a.1 }, none)
    | _ => none
  | .pop w =>
    match s.worker w with
    | .idle =>
      (Monitor.step (Queue.UTQueue.buffer c.queueLen ℤ) s.queue (.pop (.inr w))).map fun m =>
        ({ s.setWorker w .popping with queue := m.1 }, none)
    | _ => none
  | .fetch w =>
    match s.worker w with
    | .busy p .popped =>
      let n := s.node p
      some ((s.setNode p { n with curCount := n.curCount + 1 }).setWorker w
        (.busy p (.running n.curCount (n.fan.task n.curCount))), some (n.request, .fetch w, none))
    | _ => none
  | .write w =>
    match s.worker w with
    | .busy p (.running k (x :: xs)) =>
      let n := s.node p
      if P.Inside [x.span] then
        some ((s.setMem P n.handle (x.apply (s.mem P n.handle))).setWorker w (.busy p (.running k xs)),
          some (n.request, .write w, none))
      else some (s.abort, none)
    | _ => none
  | .finish w =>
    match s.worker w with
    | .busy p (.running k []) =>
      let n := s.node p
      some ((s.setNode p { n with finCount := n.finCount + 1 }).setWorker w
        (if n.finCount + 1 = n.fan.allCount then .busy p .finishing else .idle),
        some (n.request, .finish w, some (.processTask k)))
    | _ => none
  | .combine w =>
    match s.worker w with
    | .busy p .finishing =>
      let n := s.node p
      if P.Inside (P.combineSpans (s.mem P n.handle)) then
        match n.fan.combineTask (s.mem P n.handle) with
        | some m => some ((s.setMem P n.handle m).setWorker w (.busy p .combined),
            some (n.request, .combine w, some .combineTask))
        | none => some (((s.setNode p { n with aborted := true }).setWorker w .idle).abort,
            some (n.request, .combine w, some .combineTask))
      else some (s.abort, none)
    | _ => none
  | .publish w =>
    match s.worker w with
    | .busy p .combined =>
      let n := s.node p
      some ((s.setNode p { n with referFin := true }).setWorker w .idle, some (n.request, .publish w, none))
    | _ => none
  | .queue t =>
    (Monitor.step (Queue.UTQueue.buffer c.queueLen ℤ) s.queue (.enter t)).map fun m =>
      match m.2, t with
      | .pushed _ _, .inl r => ({ s.setRequest r (s.request r).pushed with queue := m.1 }, some (r, .push, none))
      | .popped _ p, .inr w =>
        ({ s.setWorker w (.busy p .popped) with queue := m.1 }, some ((s.node p).request, .pop w, none))
      | _, _ => ({ s with queue := m.1 }, none)
  | .spurious t =>
    (Monitor.step (Queue.UTQueue.buffer c.queueLen ℤ) s.queue (.spurious t)).map fun m =>
      ({ s with queue := m.1 }, none)

/-- Nothing goes on after an abort. -/
def step (s : State c C X) (e : Event c C X) : Option (State c C X × Observed c C) :=
  if s.aborted then none else advance P s e

end PrimaryElection.Framework.CenterRequests
