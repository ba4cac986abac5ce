import PrimaryElection.Framework.Receive

/-! A worker of the module, `thread_network`: it accepts a connection, receives one
request, calls the module and replies. A connection is closed where the receive
fails and where the reply is sent, but not where the request does not parse; a negative
length may put more into the receive buffer than it holds. The protocol buffers and
the module behind the interface are parameters. -/

namespace PrimaryElection.Framework

open CInt Bytes Util

/-- The messages that travel in the `protocol` field. -/
inductive Kind where
  | action | item | subscribe | feedback
  | recommend | user | candidateSetBase | category
  deriving DecidableEq

structure TransferRequest (P : Type*) where
  mainProtocol : ℤ
  subProtocol : ℤ
  protocol : P

structure TransferRespond (P : Type*) where
  respondCode : ℤ
  protocol : Option P

/-- The protocol buffers: `P` are packed messages, `M` unpacked ones. -/
structure Protobuf (P M : Type*) where
  parseFromArray : List UInt8 → ℤ → Option (TransferRequest P)
  unpackTo : Kind → P → Option M
  packFrom : M → P
  byteSize : TransferRespond P → ℤ
  serializeToArray : TransferRespond P → ℤ → Option (List UInt8)

/-- A call of the module: its return code and the message it fills or changes. -/
abbrev Interface (M : Type*) := Kind → M → ℤ × M

namespace NetworkWorker

variable {P M : Type*} (pb : Protobuf P M)

/-- Unpack the request and call the module; `packs` tells whether the message goes into
the reply. -/
def callModule (call : Interface M) (kind : Kind) (packs : Bool) (q : TransferRequest P) :
    TransferRespond P :=
  match pb.unpackTo kind q.protocol with
  | none => ⟨-1000, none⟩
  | some m =>
    if (call kind m).1 ≠ 0 then ⟨(call kind m).1, none⟩
    else ⟨0, if packs then some (pb.packFrom (call kind m).2) else none⟩

def queryInterface (call : Interface M) (q : TransferRequest P) : TransferRespond P :=
  if q.subProtocol = 1 then callModule pb call .recommend true q
  else if q.subProtocol = 2 then callModule pb call .user true q
  else if q.subProtocol = 3 then callModule pb call .candidateSetBase true q
  else if q.subProtocol = 4 then callModule pb call .category true q
  else ⟨-9000, none⟩

/-- The switch on `main_protocol`. -/
def dispatch (call : Interface M) (q : TransferRequest P) : TransferRespond P :=
  if q.mainProtocol = 1 then callModule pb call .action true q
  else if q.mainProtocol = 2 then callModule pb call .item false q
  else if q.mainProtocol = 3 then callModule pb call .subscribe false q
  else if q.mainProtocol = 4 then queryInterface pb call q
  else if q.mainProtocol = 6 then callModule pb call .feedback false q
  else ⟨-9000, none⟩

/-- The bytes given to `send_request`. -/
def sendBuf (mdMessageSize : ℤ) (t : TransferRespond P) : List UInt8 :=
  if toInt32 (4 + pb.byteSize t) > mdMessageSize then int4 (-1)
  else
    match pb.serializeToArray t mdMessageSize with
    | none => int4 (-1)
    | some bytes => int4 (pb.byteSize t) ++ bytes

/-- The calls of a worker on sockets, the point where `recv_request` returns 0 and that where
it has written behind `recv_buf`. -/
inductive Action where
  | accepted (client : ℕ)
  | overrun (client : ℕ)
  | framed (client : ℕ)
  | sent (client : ℕ) (bytes : List UInt8)
  | closed (client : ℕ)
  deriving DecidableEq

/-- What one round of the loop meets: an error of `cp_accept_socket`, or a connection with
what its client sends and how the module answers. -/
inductive Arrival (M : Type*) where
  | failed
  | client (client : ℕ) (peer : Peer) (call : Interface M)

/-- More is received than the `md_message_size` bytes of `recv_buf`. -/
def overruns (mdMessageSize : ℤ) : Arrival M → Bool
  | .failed => false
  | .client _ peer _ => mdMessageSize.toNat < (recvRequest mdMessageSize peer).body.length

def round (mdMessageSize : ℤ) : Arrival M → List Action
  | .failed => []
  | .client s peer call =>
    let r := recvRequest mdMessageSize peer
    if overruns mdMessageSize (.client s peer call) then [.accepted s, .overrun s]
    else if r.ok then
      match pb.parseFromArray r.body (r.header.getD 0) with
      -- continue, without cp_close_socket
      | none => [.accepted s, .framed s]
      | some q => [.accepted s, .framed s, .sent s (sendBuf pb mdMessageSize (dispatch pb call q)),
          .closed s]
    else [.accepted s, .closed s]

/-- The rounds in order. Nothing is known of the worker once it has written behind its
buffer. -/
def trace (mdMessageSize : ℤ) : List (Arrival M) → List Action
  | [] => []
  | a :: arrivals =>
    round pb mdMessageSize a ++ if overruns mdMessageSize a then [] else trace mdMessageSize arrivals

def Action.isAccept : Action → Bool
  | accepted _ => true
  | _ => false

def Action.isClose : Action → Bool
  | closed _ => true
  | _ => false

/-- The actions up to the next `cp_accept_socket`. -/
def untilAccept (t : List Action) : List Action := t.takeWhile fun a => !a.isAccept

/-- Each accepted socket, and no other, is closed once before the next one is accepted,
and after a complete frame a reply is sent on it. -/
def Served (t : List Action) : Prop :=
  ∀ before s after, t = before ++ .accepted s :: after →
    (untilAccept after).filter Action.isClose = [.closed s] ∧
      (.framed s ∈ untilAccept after → ∃ bytes, .sent s bytes ∈ untilAccept after)

/-- What the client sends fits the receive buffer, and a complete frame parses as a request. -/
def Parses (mdMessageSize : ℤ) : Arrival M → Prop
  | .failed => True
  | .client _ peer _ =>
    let r := recvRequest mdMessageSize peer
    r.body.length ≤ mdMessageSize.toNat ∧
      (r.ok = true → (pb.parseFromArray r.body (r.header.getD 0)).isSome)

/-! ### One round -/

variable {pb} {mdMessageSize : ℤ}

theorem not_overruns_of_nonneg {s : ℕ} {peer : Peer} {call : Interface M}
    (h : ∀ len, (recvRequest mdMessageSize peer).asked = some len → 0 ≤ len) :
    overruns mdMessageSize (.client s peer call) = false := by
  refine decide_eq_false (not_lt.mpr ?_)
  rcases receive_body (fun recvLen => recvLen > mdMessageSize) peer with hnil | ⟨n, q, hn, hbody⟩
  · rw [recvRequest, hnil]
    exact Nat.zero_le _
  · have hpos := h n hn
    rcases receive_asked_range hn with ⟨hrejects, hmax⟩
    have hfit : n ≤ mdMessageSize := not_lt.mp (of_decide_eq_false hrejects)
    have hle := cpRecvbuf_length_le hpos hmax q
    rw [recvRequest, hbody]
    omega

/-- A round on a connection accepts it first and no other one. -/
theorem round_client (pb : Protobuf P M) (mdMessageSize : ℤ) (s : ℕ) (peer : Peer) (call : Interface M) :
    ∃ rest, round pb mdMessageSize (.client s peer call) = .accepted s :: rest ∧
      ∀ a ∈ rest, a.isAccept = false := by
  simp only [round]
  split
  · exact ⟨_, rfl, by simp [Action.isAccept]⟩
  · split
    · split
      · exact ⟨_, rfl, by simp [Action.isAccept]⟩
      · exact ⟨_, rfl, by simp [Action.isAccept]⟩
    · exact ⟨_, rfl, by simp [Action.isAccept]⟩

theorem Parses.not_overruns {a : Arrival M} (h : Parses pb mdMessageSize a) :
    overruns mdMessageSize a = false := by
  cases a with
  | failed => rfl
  | client s peer call => exact decide_eq_false (not_lt.mpr h.1)

/-- The rest of a round whose frame fits and parses. -/
theorem round_parses {s : ℕ} {peer : Peer} {call : Interface M} {rest : List Action}
    (h : Parses pb mdMessageSize (.client s peer call))
    (hr : round pb mdMessageSize (.client s peer call) = .accepted s :: rest) :
    rest.filter Action.isClose = [.closed s] ∧
      (.framed s ∈ rest → ∃ bytes, .sent s bytes ∈ rest) := by
  simp only [round, h.not_overruns, Bool.false_eq_true, if_false] at hr
  split at hr
  next hok =>
    rcases Option.isSome_iff_exists.mp (h.2 hok) with ⟨q, hq⟩
    rw [hq] at hr
    cases hr
    exact ⟨rfl, fun _ => ⟨_, List.mem_cons_of_mem _ List.mem_cons_self⟩⟩
  next =>
    cases hr
    exact ⟨rfl, by simp⟩

/-- A round whose frame does not fit or does not parse closes nothing. -/
theorem round_not_parses {s : ℕ} {peer : Peer} {call : Interface M}
    (h : ¬ Parses pb mdMessageSize (.client s peer call)) :
    ∃ a, round pb mdMessageSize (.client s peer call) = [.accepted s, a] ∧ a.isAccept = false ∧
      a.isClose = false := by
  by_cases hover : overruns mdMessageSize (Arrival.client s peer call) = true
  · exact ⟨.overrun s, by simp only [round, if_pos hover], rfl, rfl⟩
  · have hfit : (recvRequest mdMessageSize peer).body.length ≤ mdMessageSize.toNat := by
      simpa [overruns] using hover
    have hparse : ¬ ((recvRequest mdMessageSize peer).ok = true → (pb.parseFromArray
        (recvRequest mdMessageSize peer).body ((recvRequest mdMessageSize peer).header.getD 0)).isSome) :=
      fun hp => h ⟨hfit, hp⟩
    simp only [not_forall, Bool.not_eq_true, Option.isSome_eq_false_iff, Option.isNone_iff_eq_none]
      at hparse
    rcases hparse with ⟨hok, hn⟩
    exact ⟨.framed s, by simp only [round, if_neg hover, if_pos hok, hn], rfl, rfl⟩

/-! ### Runs -/

theorem untilAccept_trace (arrivals : List (Arrival M)) : untilAccept (trace pb mdMessageSize arrivals) = [] := by
  induction arrivals with
  | nil => rfl
  | cons a arrivals ih =>
    cases a with
    | failed => exact ih
    | client s peer call =>
      rcases round_client pb mdMessageSize s peer call with ⟨tail, hr, -⟩
      rw [trace, hr]
      rfl

theorem untilAccept_append {rest t : List Action} (hrest : ∀ a ∈ rest, a.isAccept = false)
    (ht : untilAccept t = []) : untilAccept (rest ++ t) = rest := by
  unfold untilAccept at ht ⊢
  rw [List.takeWhile_append_of_pos (by simpa using hrest), ht, List.append_nil]

/-- What is served is served from any point on. -/
theorem Served.suffix {l t : List Action} (h : Served (l ++ t)) : Served t := by
  intro before s after ht
  exact h (l ++ before) s after (by rw [ht, List.append_assoc])

theorem Served.round {s : ℕ} {rest t : List Action} (hrest : ∀ a ∈ rest, a.isAccept = false)
    (ht : untilAccept t = []) (hclose : rest.filter Action.isClose = [.closed s])
    (hsent : .framed s ∈ rest → ∃ bytes, .sent s bytes ∈ rest) (h : Served t) :
    Served (.accepted s :: rest ++ t) := by
  intro before s' after heq
  cases before with
  | nil =>
    rw [List.nil_append, List.cons_append, List.cons.injEq] at heq
    rcases heq with ⟨hs, heq⟩
    cases hs
    rw [← heq, untilAccept_append hrest ht]
    exact ⟨hclose, hsent⟩
  | cons b before =>
    rw [List.cons_append, List.cons_append, List.cons.injEq] at heq
    rcases List.append_eq_append_iff.mp heq.2 with ⟨early, -, he⟩ | ⟨c, hc, he⟩
    · exact h early s' after he
    · cases c with
      | nil => exact h [] s' after he.symm
      | cons a c =>
        -- the rest of a round accepts nothing
        rw [List.cons_append, List.cons.injEq] at he
        have hacc := hrest a (by rw [hc]; simp)
        rw [← he.1] at hacc
        cases hacc

/-- Every connection of a run is closed once and answered exactly when what every client
sends fits the buffer and every complete frame parses. -/
theorem served_iff (pb : Protobuf P M) (mdMessageSize : ℤ) (arrivals : List (Arrival M)) :
    Served (trace pb mdMessageSize arrivals) ↔
      ∀ a ∈ arrivals, Parses pb mdMessageSize a := by
  induction arrivals with
  | nil => simp [trace, Served]
  | cons a arrivals ih =>
    rw [List.forall_mem_cons, ← ih]
    constructor
    · intro h
      have hparse : Parses pb mdMessageSize a := by
        cases a with
        | failed => trivial
        | client s peer call =>
          by_contra hn
          rcases round_not_parses hn with ⟨b, hr, hacc, hclose⟩
          rw [trace, hr, List.cons_append, List.singleton_append] at h
          have hafter : untilAccept (if overruns mdMessageSize (Arrival.client s peer call) = true then []
              else trace pb mdMessageSize arrivals) = [] := by
            split_ifs
            · rfl
            · exact untilAccept_trace arrivals
          have hclosed := (h [] s _ rfl).1
          rw [← List.singleton_append, untilAccept_append (by simpa using hacc) hafter,
            List.filter_singleton, hclose] at hclosed
          cases hclosed
      rw [trace, if_neg (by rw [hparse.not_overruns]; exact Bool.false_ne_true)] at h
      exact ⟨hparse, h.suffix⟩
    · rintro ⟨hparse, h⟩
      rw [trace, if_neg (by rw [hparse.not_overruns]; exact Bool.false_ne_true)]
      cases a with
      | failed => exact h
      | client s peer call =>
        rcases round_client pb mdMessageSize s peer call with ⟨rest, hr, hrest⟩
        rcases round_parses hparse hr with ⟨hclose, hsent⟩
        rw [hr]
        exact h.round hrest (untilAccept_trace arrivals) hclose hsent

/-- Messages without fields; the byte 255 alone is a tag cut short, which does not parse. -/
def emptyProtobuf : Protobuf Unit Unit where
  parseFromArray bytes _ := if bytes = [255] then none else some ⟨1, 0, ()⟩
  unpackTo _ _ := some ()
  packFrom _ := ()
  byteSize _ := 0
  serializeToArray _ _ := some []

/-- A frame of one byte that is not a request leaves its connection open, and a negative
length before three bytes overruns a buffer of two. -/
theorem unparsed_not_served :
    ¬ Served (trace emptyProtobuf 1024 [.client 5 (sender 1 [255]) fun _ _ => (0, ())]) ∧
      ¬ Served (trace emptyProtobuf 2 [.client 5 (sender (-1) [1, 2, 3]) fun _ _ => (0, ())]) := by
  constructor
  · intro h
    have htrace : trace emptyProtobuf 1024 [.client 5 (sender 1 [255]) fun _ _ => (0, ())] =
        [.accepted 5, .framed 5] := by decide
    have hclosed := (h [] 5 [.framed 5] htrace).1
    cases hclosed
  · intro h
    have htrace : trace emptyProtobuf 2 [.client 5 (sender (-1) [1, 2, 3]) fun _ _ => (0, ())] =
        [.accepted 5, .overrun 5] := by decide
    have hclosed := (h [] 5 [.overrun 5] htrace).1
    cases hclosed

end NetworkWorker

end PrimaryElection.Framework
