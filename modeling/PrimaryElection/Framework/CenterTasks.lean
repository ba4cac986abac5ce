import PrimaryElection.Framework.CenterParse
import PrimaryElection.Framework.Receive
import PrimaryElection.Framework.ThreadProcess
import PrimaryElection.Util.MemAllocator
import PrimaryElection.Util.Queue

/-! The tasks of the center. A thread of `thread_listen` accepts a connection, takes a task
node from `m_ma_TN`, receives and encodes the request there and puts the node into
`m_taskQueue`; a thread of `thread_process` takes it out, sends the reply, closes the
connection and gives the node back. Where the request cannot be received or encoded, the
first thread gives the node back and closes. The nodes lie in one memory, and what a
thread does at one of them is a step of its own. -/

namespace PrimaryElection.Framework.CenterTasks

open CInt Bytes Encoder Util ThreadProcess

variable {D L P : Type}

/-! ### Requests -/

structure Config where
  fwQueueSize : ℕ
  fwMaxRecvSize : ℕ
  fwMaxSendSize : ℕ
  fwMaxBinarySize : ℕ
  queue_pos : 0 < fwQueueSize

/-- `m_ma_TN.init(..)` with `sizeof(TASK_NODE)` as 80. -/
def Config.nodes (c : Config) : MemAllocator.Config :=
  ⟨c.fwMaxRecvSize + c.fwMaxSendSize + c.fwMaxBinarySize + 80, 0, 1024, by decide⟩

/-- The fields of a task node that a request leaves there. `send_len` is 0 since
`get_task_node`. -/
structure Node where
  client : ℤ
  parseBuf : List UInt8
  typeFlg : ℤ
  flagLog : ℤ

/-- What `thread_process` reads in a node. -/
def Node.taskNode (n : Node) : TaskNode :=
  ⟨n.typeFlg, word8Val ((n.parseBuf.drop 8).take 8), int4Val ((n.parseBuf.drop 16).take 4), []⟩

/-- The node after `parse_json`. -/
def Node.encoded (n : Node) (parseBuf : List UInt8) : Node :=
  let typeFlg := int4Val (parseBuf.take 4)
  { n with
    parseBuf := parseBuf
    typeFlg := typeFlg
    flagLog := if typeFlg = 4 then int4Val ((parseBuf.drop 4).take 4) else 0 }

/-- Bytes behind `recv_buf`, or the terminating zero in front of it. -/
def overruns (fwMaxRecvSize : ℕ) (r : Receipt) : Bool :=
  decide (fwMaxRecvSize < r.body.length) || (r.ok && r.header.any (· < 0))

/-- What `thread_listen` receives and encodes, with a code where it throws. It is a fault
to write outside of `recv_buf` or to read a string that is not there. -/
def receiveTask [Zero D] (c : Config) (cJSONParse : List UInt8 → Option (Json D)) (p : Peer) (h : Host D) :
    Outcome (Json D × List UInt8) :=
  let r := threadListen c.fwMaxRecvSize p
  if overruns c.fwMaxRecvSize r then .fault
  else if r.ok then
    match cJSONParse r.body with
    | none => .code (-4)
    | some json =>
      match parseJson h json (toInt32 (c.fwMaxBinarySize - 4)) 0 with
      | ⟨bs, _, .ok _⟩ => .ok (json, bs)
      | ⟨_, _, .code _⟩ => .code (-4)
      | ⟨_, _, .fault⟩ => .fault
  else .code (if r.header = none then -1 else if r.asked = none then -2 else -3)

/-! ### Threads -/

/-- Where `thread_listen` is: at `accept`, before `get_task_node`, before the receives, in
`PushData`, in the handler, or behind its `put_task_node`. -/
inductive Listen where
  | accepting
  | accepted (client : ℤ)
  | receiving (client task : ℤ)
  | pushing (task : ℤ)
  | failed (client task : ℤ)
  | closing (client : ℤ)

/-- Where `thread_process` is: before `PopData`, in it, before the reply, behind it, or
behind `cp_close_socket`. -/
inductive Process where
  | idle
  | popping
  | serving (task : ℤ)
  | sent (task : ℤ)
  | closed (task : ℤ)

/-- The connections that are open, the allocator, the nodes, the queue and the threads;
`ended` after a fault. -/
structure State (c : Config) (L P : Type) where
  opened : Finset ℤ
  ma : MemAllocator.State
  node : ℤ → Node
  queue : Monitor.State (Queue.UTQueue c.fwQueueSize ℤ) ℤ (L ⊕ P)
  listen : L → Listen
  process : P → Process
  ended : Bool

variable {c : Config}

def State.init (c : Config) (L P : Type) (m : Memory.Mem) (node : ℤ → Node) (tpQueue : Fin c.fwQueueSize → ℤ) :
    State c L P where
  opened := ∅
  ma := .init m
  node := node
  queue := ⟨⟨Queue.Ring.start c.queue_pos, tpQueue⟩, fun _ => .out⟩
  listen := fun _ => .accepting
  process := fun _ => .idle
  ended := false

/-- A connection is accepted, with a descriptor that is not open; a node is asked for, with
what `new` would give; a peer sends; a reply is computed. -/
inductive Event (D L P : Type) where
  | accept (i : L) (client : ℤ)
  | getTask (i : L) (memBuf : ℤ)
  | receive (i : L) (p : Peer) (h : Host D)
  | pop (j : P)
  | queue (t : L ⊕ P)
  | spurious (t : L ⊕ P)
  | serve (j : P) (e : Env)
  | close (t : L ⊕ P)
  | put (t : L ⊕ P)

inductive Observed (D : Type) where
  | silent
  | accepted (client : ℤ)
  | asked (client : ℤ) (json : Json D)
  | answered (client : ℤ) (e : Env) (sent : List UInt8)
  | closed (client : ℤ)
  | aborted

variable [DecidableEq L] [DecidableEq P]

namespace State

def setListen (s : State c L P) (i : L) (l : Listen) : State c L P :=
  { s with listen := Function.update s.listen i l }

def setProcess (s : State c L P) (j : P) (p : Process) : State c L P :=
  { s with process := Function.update s.process j p }

def setNode (s : State c L P) (task : ℤ) (n : Node) : State c L P :=
  { s with node := Function.update s.node task n }

end State

/-- `put_task_node` -/
def putTask (s : State c L P) (task : ℤ) : Option (State c L P × Observed D) :=
  (MemAllocator.step c.nodes s.ma (.put task)).map fun r =>
    if r.2 = .aborted then (s, .aborted) else ({ s with ma := r.1 }, .silent)

/-- `get_task_node` for a connection. It sleeps and asks again where no node is left. -/
def getTask (s : State c L P) (i : L) (client memBuf : ℤ) : Option (State c L P × Observed D) :=
  (MemAllocator.step c.nodes s.ma (.get memBuf)).map fun r =>
    match r.2 with
    | .got task =>
      let s := { s with ma := r.1 }
      if task = 0 then (s, .silent)
      else ((s.setNode task { s.node task with client := client }).setListen i (.receiving client task), .silent)
    | _ => (s, .aborted)

def advance [Zero D] (cJSONParse : List UInt8 → Option (Json D)) (s : State c L P) :
    Event D L P → Option (State c L P × Observed D)
  | .accept i client =>
    match s.listen i with
    | .accepting =>
      if client ∈ s.opened then none
      else some ({ s.setListen i (.accepted client) with opened := insert client s.opened }, .accepted client)
    | _ => none
  | .getTask i memBuf =>
    match s.listen i with
    | .accepted client => getTask s i client memBuf
    | _ => none
  | .receive i p h =>
    match s.listen i with
    | .receiving client task =>
      match receiveTask c cJSONParse p h with
      | .ok (json, bs) =>
        (Monitor.step (Queue.UTQueue.buffer c.fwQueueSize ℤ) s.queue (.push (.inl i) task)).map fun m =>
          ({ (s.setNode task ((s.node task).encoded bs)).setListen i (.pushing task) with queue := m.1 },
            .asked client json)
      | .code _ => some (s.setListen i (.failed client task), .silent)
      | .fault => some ({ s with ended := true }, .silent)
    | _ => none
  | .pop j =>
    match s.process j with
    | .idle =>
      (Monitor.step (Queue.UTQueue.buffer c.fwQueueSize ℤ) s.queue (.pop (.inr j))).map fun m =>
        ({ s.setProcess j .popping with queue := m.1 }, .silent)
    | _ => none
  | .queue t =>
    (Monitor.step (Queue.UTQueue.buffer c.fwQueueSize ℤ) s.queue (.enter t)).map fun m =>
      match m.2, t with
      | .pushed _ _, .inl i => ({ s.setListen i .accepting with queue := m.1 }, .silent)
      | .popped _ task, .inr j => ({ s.setProcess j (.serving task) with queue := m.1 }, .silent)
      | _, _ => ({ s with queue := m.1 }, .silent)
  | .spurious t =>
    (Monitor.step (Queue.UTQueue.buffer c.fwQueueSize ℤ) s.queue (.spurious t)).map fun m =>
      ({ s with queue := m.1 }, .silent)
  | .serve j e =>
    match s.process j with
    | .serving task =>
      (threadProcess e (s.node task).taskNode).map fun sent =>
        (s.setProcess j (.sent task), .answered (s.node task).client e sent)
    | _ => none
  | .close (.inl i) =>
    match s.listen i with
    | .closing client => some ({ s.setListen i .accepting with opened := s.opened.erase client }, .closed client)
    | _ => none
  | .close (.inr j) =>
    match s.process j with
    | .sent task =>
      some ({ s.setProcess j (.closed task) with opened := s.opened.erase (s.node task).client },
        .closed (s.node task).client)
    | _ => none
  | .put (.inl i) =>
    match s.listen i with
    | .failed client task => putTask (s.setListen i (.closing client)) task
    | _ => none
  | .put (.inr j) =>
    match s.process j with
    | .closed task => putTask (s.setProcess j .idle) task
    | _ => none

/-- Nothing is known of the threads after a fault. -/
def step [Zero D] (cJSONParse : List UInt8 → Option (Json D)) (s : State c L P) (e : Event D L P) :
    Option (State c L P × Observed D) :=
  if s.ended then none else advance cJSONParse s e

end PrimaryElection.Framework.CenterTasks
