import PrimaryElection.Lib.Bytes

/-! The socket calls of UH_Define.h. `cp_recvbuf` repeats `recv` until it has the
bytes it was asked for or a call returns none. What a peer sends arrives in
segments; one call of `recv` takes at most one of them. -/

namespace PrimaryElection.Util

open CInt

/-- What successive calls of `recv` find, and whether they fail after that or find the
connection closed. -/
structure Peer where
  segments : List (List UInt8)
  failed : Bool
  deriving DecidableEq

/-- The bytes that `cp_recvbuf` has put at the buffer, whether it returned 0, and what
is left to receive. -/
structure RecvBuf where
  bytes : List UInt8
  ok : Bool
  rest : Peer
  deriving DecidableEq

/-- The loop of `cp_recvbuf` with the bytes received so far. -/
def recvLoop (failed : Bool) (inBuflen : ℤ) : List (List UInt8) → List UInt8 → RecvBuf
  | [], fin => ⟨fin, !failed && decide (inBuflen ≤ fin.length), ⟨[], failed⟩⟩
  | s :: segments, fin =>
    let size := toSize (inBuflen - fin.length)
    let fin' := fin ++ s.take size
    let rest := if s.length ≤ size then segments else s.drop size :: segments
    if s.take size ≠ [] ∧ (fin'.length : ℤ) < inBuflen then recvLoop failed inBuflen segments fin'
    else ⟨fin', decide (inBuflen ≤ fin'.length), ⟨rest, failed⟩⟩

def cpRecvbuf (p : Peer) (inBuflen : ℤ) : RecvBuf := recvLoop p.failed inBuflen p.segments []

theorem recvLoop_length_le (failed : Bool) {n : ℤ} (hn : n < 18446744073709551616)
    (segments : List (List UInt8)) {fin : List UInt8} (hf : (fin.length : ℤ) ≤ n) :
    ((recvLoop failed n segments fin).bytes.length : ℤ) ≤ n := by
  induction segments generalizing fin with
  | nil => exact hf
  | cons s segments ih =>
    have hs : (toSize (n - fin.length) : ℤ) = n - fin.length := toSize_eq (by omega) (by omega)
    rw [recvLoop]
    split
    next h => exact ih h.2.le
    next h =>
      dsimp only
      rw [List.length_append, List.length_take]
      omega

theorem cpRecvbuf_length_le {n : ℤ} (h₀ : 0 ≤ n) (h₁ : n < 2147483648) (p : Peer) :
    ((cpRecvbuf p n).bytes.length : ℤ) ≤ n :=
  recvLoop_length_le p.failed (by omega) p.segments (by simpa using h₀)

theorem recvLoop_ok (failed : Bool) (n : ℤ) (segments : List (List UInt8)) (fin : List UInt8)
    (h : (recvLoop failed n segments fin).ok = true) :
    n ≤ (recvLoop failed n segments fin).bytes.length := by
  induction segments generalizing fin with
  | nil =>
    simp only [recvLoop, Bool.and_eq_true, decide_eq_true_iff] at h
    exact h.2
  | cons s segments ih =>
    rw [recvLoop] at h ⊢
    split
    next hc =>
      rw [if_pos hc] at h
      exact ih _ h
    next hc =>
      rw [if_neg hc] at h
      exact of_decide_eq_true h

/-- A call that succeeds has received what it was asked for. -/
theorem cpRecvbuf_ok {n : ℤ} (h₀ : 0 ≤ n) (h₁ : n < 2147483648) {p : Peer}
    (h : (cpRecvbuf p n).ok = true) : ((cpRecvbuf p n).bytes.length : ℤ) = n :=
  le_antisymm (cpRecvbuf_length_le h₀ h₁ p) (recvLoop_ok p.failed n p.segments [] h)

/-- Asked for a negative number of bytes, a call takes a whole segment and succeeds. -/
theorem cpRecvbuf_neg {n : ℤ} (h₀ : -2147483648 ≤ n) (h₁ : n < 0) {s : List UInt8}
    (hs : s.length < 9223372036854775808) (segments : List (List UInt8)) (failed : Bool) :
    cpRecvbuf ⟨s :: segments, failed⟩ n = ⟨s, true, ⟨segments, failed⟩⟩ := by
  have hsize : s.length ≤ toSize (n - 0) := by
    have := toSize_neg (x := n - 0) (by omega) (by omega)
    omega
  simp only [cpRecvbuf, recvLoop, List.length_nil, Nat.cast_zero, List.take_of_length_le hsize,
    List.nil_append, if_pos hsize]
  rw [if_neg (by omega), decide_eq_true (by omega)]

end PrimaryElection.Util
