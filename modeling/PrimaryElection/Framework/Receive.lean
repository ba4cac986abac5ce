import PrimaryElection.Util.Socket

/-! The length-prefixed receives of the module and the center. Each reads a 4-byte
length, tests it and asks `cp_recvbuf` for that many bytes. No test looks at the
sign, and two of them add to the length before they compare it. -/

namespace PrimaryElection.Framework

open CInt Bytes Util

/-- What a receive did: the length it read, the body length it asked for, the bytes
put at the destination, whether it succeeded. -/
structure Receipt where
  header : Option ℤ
  asked : Option ℤ
  body : List UInt8
  ok : Bool
  rest : Peer

def receive (rejects : ℤ → Bool) (p : Peer) : Receipt :=
  let head := cpRecvbuf p 4
  if head.ok then
    let len := int4Val head.bytes
    if rejects len then ⟨some len, none, [], false, head.rest⟩
    else
      let body := cpRecvbuf head.rest len
      ⟨some len, some len, body.bytes, body.ok, body.rest⟩
  else ⟨none, none, [], false, head.rest⟩

/-! ### The five receivers -/

/-- `CF_framework_module::recv_request`, after the connection is accepted. -/
def recvRequest (recvMax : ℤ) : Peer → Receipt := receive fun recvLen => recvLen > recvMax

def threadListen (fwMaxRecvSize : ℤ) : Peer → Receipt :=
  receive fun recvLen => recvLen > toInt32 (fwMaxRecvSize - 1)

/-- `ICM_Query_Processor::process_task`, after the request is sent. -/
def queryProcessTask (fwCalcRecvSize : ℤ) : Peer → Receipt :=
  receive fun rLen => toInt32 (rLen + 4) > fwCalcRecvSize

/-- `ICM_Update_Processor::process_task`, after the request is sent. -/
def updateProcessTask (fwCalcRecvSize : ℤ) : Peer → Receipt :=
  receive fun rLen => toInt32 (rLen + 4) > fwCalcRecvSize

/-- `candidate_query`, after the request is sent, with `result_len` as passed. -/
def candidateQuery (resultLen : ℤ) : Peer → Receipt := receive fun recvLen => recvLen > resultLen

/-- A receiver with the size that it compares with. -/
inductive Receiver where
  | recvRequest (recvMax : ℤ)
  | threadListen (fwMaxRecvSize : ℤ)
  | queryProcessTask (fwCalcRecvSize : ℤ)
  | updateProcessTask (fwCalcRecvSize : ℤ)
  | candidateQuery (resultLen : ℤ)

namespace Receiver

def run : Receiver → Peer → Receipt
  | recvRequest recvMax => Framework.recvRequest recvMax
  | threadListen fwMaxRecvSize => Framework.threadListen fwMaxRecvSize
  | queryProcessTask fwCalcRecvSize => Framework.queryProcessTask fwCalcRecvSize
  | updateProcessTask fwCalcRecvSize => Framework.updateProcessTask fwCalcRecvSize
  | candidateQuery resultLen => Framework.candidateQuery resultLen

/-- The bytes of the destination: `recv_buf`, the receive buffer of a task, the part of a
slot behind its size, the result buffer. -/
def capacity : Receiver → ℤ
  | recvRequest recvMax => recvMax
  | threadListen fwMaxRecvSize => fwMaxRecvSize
  | queryProcessTask fwCalcRecvSize => fwCalcRecvSize
  | updateProcessTask fwCalcRecvSize => fwCalcRecvSize
  | candidateQuery resultLen => resultLen

/-- Where `thread_listen` puts the terminating zero. -/
def zeroAt : Receiver → Receipt → Option ℤ
  | threadListen _, r => if r.ok then r.asked else none
  | _, _ => none

/-- Whatever follows the length, it is rejected or the body fits. -/
def Bounded (rc : Receiver) (len : I32) : Prop :=
  ∀ p, (rc.run p).header = some len.val → ∀ n, (rc.run p).asked = some n →
    0 ≤ n ∧ n ≤ rc.capacity ∧ ∀ z, rc.zeroAt (rc.run p) = some z → 0 ≤ z ∧ z < rc.capacity

/-- The length is not negative. Where 4 is added to it, the sum is still an `int` or the
length fits anyway, or it is a negative length that the test rejects. -/
def Proper : Receiver → ℤ → Prop
  | queryProcessTask size, len => 0 ≤ len ∧ (len + 4 < 2147483648 ∨ len ≤ size) ∨
      len < 0 ∧ size < len + 4
  | updateProcessTask size, len => 0 ≤ len ∧ (len + 4 < 2147483648 ∨ len ≤ size) ∨
      len < 0 ∧ size < len + 4
  | recvRequest _, len => 0 ≤ len
  | threadListen _, len => 0 ≤ len
  | candidateQuery _, len => 0 ≤ len

end Receiver

/-! ### What is asked for -/

theorem receive_asked {rejects : ℤ → Bool} {p : Peer} {len n : ℤ}
    (hh : (receive rejects p).header = some len) (ha : (receive rejects p).asked = some n) :
    n = len ∧ rejects len = false := by
  unfold receive at hh ha
  dsimp only at hh ha
  generalize int4Val (cpRecvbuf p 4).bytes = v at hh ha
  split at hh
  next hok =>
    rw [if_pos hok] at ha
    split at hh
    next hr =>
      rw [if_pos hr] at ha
      cases ha
    next hr =>
      rw [if_neg hr] at ha
      cases hh
      cases ha
      exact ⟨rfl, Bool.eq_false_iff.mpr hr⟩
  next => cases hh

/-- What is asked for has passed the test, and is an `int`. -/
theorem receive_asked_range {rejects : ℤ → Bool} {p : Peer} {n : ℤ}
    (ha : (receive rejects p).asked = some n) : rejects n = false ∧ n < 2147483648 := by
  have hmax : int4Val (cpRecvbuf p 4).bytes < 2147483648 := (toInt32_range _).2
  unfold receive at ha
  dsimp only at ha
  generalize int4Val (cpRecvbuf p 4).bytes = v at ha hmax
  split at ha
  next =>
    split at ha
    next => cases ha
    next hr =>
      cases ha
      exact ⟨Bool.eq_false_iff.mpr hr, hmax⟩
  next => cases ha

theorem receive_body (rejects : ℤ → Bool) (p : Peer) :
    (receive rejects p).body = [] ∨ ∃ n q, (receive rejects p).asked = some n ∧
      (receive rejects p).body = (cpRecvbuf q n).bytes := by
  unfold receive
  dsimp only
  split
  · split
    · exact .inl rfl
    · exact .inr ⟨_, _, rfl, rfl⟩
  · exact .inl rfl

/-- A peer that sends the length in one segment and then `body`. -/
def sender (len : ℤ) (body : List UInt8) : Peer := ⟨[int4 len, body], false⟩

theorem cpRecvbuf_sender (len : ℤ) (body : List UInt8) :
    cpRecvbuf (sender len body) 4 = ⟨int4 len, true, ⟨[body], false⟩⟩ := by
  have hsize : toSize 4 = 4 := by decide
  have htake : (int4 len).take 4 = int4 len := List.take_of_length_le (int4_length len).le
  simp [sender, cpRecvbuf, recvLoop, hsize, htake]

theorem receive_sender (rejects : ℤ → Bool) (len : I32) (body : List UInt8) :
    receive rejects (sender len body) = if rejects len then
      ⟨some len, none, [], false, ⟨[body], false⟩⟩
    else
      ⟨some len, some len, (cpRecvbuf ⟨[body], false⟩ len).bytes, (cpRecvbuf ⟨[body], false⟩ len).ok,
        (cpRecvbuf ⟨[body], false⟩ len).rest⟩ := by
  unfold receive
  rw [cpRecvbuf_sender]
  dsimp only
  rw [if_pos rfl, int4Val_int4 len.property.1 len.property.2]

namespace Receiver

def rejects : Receiver → ℤ → Bool
  | recvRequest recvMax => fun recvLen => recvLen > recvMax
  | threadListen fwMaxRecvSize => fun recvLen => recvLen > toInt32 (fwMaxRecvSize - 1)
  | queryProcessTask fwCalcRecvSize => fun rLen => toInt32 (rLen + 4) > fwCalcRecvSize
  | updateProcessTask fwCalcRecvSize => fun rLen => toInt32 (rLen + 4) > fwCalcRecvSize
  | candidateQuery resultLen => fun recvLen => recvLen > resultLen

theorem run_eq (rc : Receiver) (p : Peer) : rc.run p = receive rc.rejects p := by cases rc <;> rfl

/-- The sum with 4 wraps only for the four greatest lengths. -/
theorem rejects_add {size : ℤ} (len : I32) (h₀ : 0 ≤ size) :
    toInt32 (len.val + 4) > size ↔ len.val + 4 < 2147483648 ∧ size < len.val + 4 := by
  obtain ⟨h₁, h₂⟩ := len.property
  by_cases hbig : len.val + 4 < 2147483648
  · rw [toInt32_eq (by omega) hbig]
    omega
  · have hwrap : toInt32 (len.val + 4) = len.val + 4 - 4294967296 :=
      toInt32_above (by omega) (by omega)
    omega

/-- A length is rejected or proper exactly when it is rejected or in bounds. -/
theorem proper_iff {rc : Receiver} (hc : 0 ≤ rc.capacity ∧ rc.capacity < 2147483648) (len : I32) :
    rc.Proper len ↔ (rc.rejects len = false → 0 ≤ len.val ∧ len.val ≤ rc.capacity) := by
  obtain ⟨h₁, h₂⟩ := len.property
  obtain ⟨h₀, hmax⟩ := hc
  cases rc with
  | recvRequest size =>
    simp only [capacity] at h₀
    simp only [Proper, rejects, capacity, decide_eq_false_iff_not]
    omega
  | threadListen size =>
    simp only [capacity] at h₀ hmax
    simp only [Proper, rejects, capacity, decide_eq_false_iff_not]
    rw [toInt32_eq (by omega) (by omega)]
    omega
  | queryProcessTask size =>
    simp only [capacity] at h₀
    simp only [Proper, rejects, capacity, decide_eq_false_iff_not, rejects_add len h₀]
    omega
  | updateProcessTask size =>
    simp only [capacity] at h₀
    simp only [Proper, rejects, capacity, decide_eq_false_iff_not, rejects_add len h₀]
    omega
  | candidateQuery size =>
    simp only [capacity] at h₀
    simp only [Proper, rejects, capacity, decide_eq_false_iff_not]
    omega

theorem zeroAt_eq {rc : Receiver} {r : Receipt} {z : ℤ} (h : rc.zeroAt r = some z) :
    r.asked = some z ∧ ∃ size, rc = threadListen size := by
  cases rc with
  | threadListen size =>
    simp only [zeroAt] at h
    split at h
    · exact ⟨h, size, rfl⟩
    · cases h
  | _ => cases h

/-- A receive is bounded exactly when its length is proper. -/
theorem bounded_iff {rc : Receiver} (hc : 0 ≤ rc.capacity ∧ rc.capacity < 2147483648) (len : I32) :
    rc.Bounded len ↔ rc.Proper len := by
  rw [proper_iff hc len]
  constructor
  · intro h hr
    have hs := receive_sender rc.rejects len []
    rw [hr, if_neg Bool.false_ne_true, ← run_eq] at hs
    obtain ⟨h₁, h₂, -⟩ := h (sender len []) (by rw [hs]) len.val (by rw [hs])
    exact ⟨h₁, h₂⟩
  · intro h p hh n ha
    have hrun := rc.run_eq p
    rw [hrun] at hh ha
    obtain ⟨rfl, hr⟩ := receive_asked hh ha
    obtain ⟨h₁, h₂⟩ := h hr
    refine ⟨h₁, h₂, fun z hz => ?_⟩
    obtain ⟨hza, size, rfl⟩ := zeroAt_eq hz
    rw [hrun] at hza
    obtain ⟨rfl, -⟩ := receive_asked hh hza
    refine ⟨h₁, ?_⟩
    simp only [capacity] at hc ⊢
    simp only [rejects, decide_eq_false_iff_not] at hr
    rw [toInt32_eq (by omega) (by omega)] at hr
    omega

/-- A bounded receive stays in its destination, whatever the peer sends. -/
theorem Bounded.body_le {rc : Receiver} {len : I32} (h : rc.Bounded len) (h₀ : 0 ≤ rc.capacity)
    {p : Peer} (hh : (rc.run p).header = some len.val) :
    ((rc.run p).body.length : ℤ) ≤ rc.capacity := by
  have hb := receive_body rc.rejects p
  rw [← run_eq] at hb
  rcases hb with hb | ⟨n, q, ha, hb⟩
  · rw [hb]
    exact h₀
  · obtain ⟨h₁, h₂, -⟩ := h p hh n ha
    have hn : n < 2147483648 := by
      rw [run_eq] at hh ha
      rw [(receive_asked hh ha).1]
      exact len.property.2
    rw [hb]
    exact (cpRecvbuf_length_le h₁ hn q).trans h₂

/-- After a negative length the peer decides how much is received. -/
theorem body_of_neg {rc : Receiver} {len : I32} (hneg : len.val < 0)
    (hr : rc.rejects len = false) (body : List UInt8) (hb : body.length < 9223372036854775808) :
    (rc.run (sender len body)).body = body ∧ (rc.run (sender len body)).ok = true := by
  have hs := receive_sender rc.rejects len body
  rw [hr, if_neg Bool.false_ne_true, ← run_eq, cpRecvbuf_neg len.property.1 hneg hb] at hs
  rw [hs]
  exact ⟨rfl, rfl⟩

theorem bounded_iff_example : (recvRequest 1024).Bounded (i32 40) :=
  (bounded_iff ⟨by decide, by decide⟩ (i32 40)).mpr (show 0 ≤ (i32 40).val by decide)

/-- The length -1 passes the test of `recv_request`, and 2147483645 that of
`process_task`. -/
theorem negative_not_bounded :
    ¬ (recvRequest 1024).Bounded (i32 (-1)) ∧ ¬ (queryProcessTask 1024).Bounded (i32 2147483645) := by
  constructor
  · intro h
    have hs := receive_sender (recvRequest 1024).rejects (i32 (-1)) []
    rw [show (recvRequest 1024).rejects (i32 (-1)) = false by decide, if_neg Bool.false_ne_true,
      ← run_eq] at hs
    have hb := h (sender (i32 (-1)) []) (by rw [hs]) (-1) (by rw [hs]; rfl)
    exact absurd hb.1 (by decide)
  · intro h
    have hs := receive_sender (queryProcessTask 1024).rejects (i32 2147483645) []
    rw [show (queryProcessTask 1024).rejects (i32 2147483645) = false by decide,
      if_neg Bool.false_ne_true, ← run_eq] at hs
    have hb := h (sender (i32 2147483645) []) (by rw [hs]) 2147483645 (by rw [hs]; rfl)
    exact absurd hb.2.1 (by decide)

end Receiver

end PrimaryElection.Framework
