import PrimaryElection.Framework.RefillBounds
import PrimaryElection.Framework.Receive

/-! The request that `process_query(uid, log)` builds for the algorithm machines from the
reply of the filter. It leaves out the powers and times of the reply and puts a longer
head before the ids; both buffers have fw_max_task_size bytes. -/

namespace PrimaryElection.Framework

open CInt Bytes Memory Refill Util

/-- The stores into `calc_buf`, where `des` stands behind them, and the length as the
`int` calc_len. -/
structure CalcRequest where
  stores : List Store
  length : ℤ
  calcLen : ℤ

/-- Fill `calc_buf` from the reply in `filter_buf`; without candidates nothing is sent. -/
def calcRequest (uid : UInt64) (filterBuf : Mem) : Option CalcRequest :=
  let recommendNum := loadInt filterBuf 0
  if recommendNum ≤ 0 then none
  else
    let ids := toInt32 (recommendNum * 8)
    let historyNum := loadInt filterBuf (histAt recommendNum)
    let history := toInt32 (historyNum * 8)
    let des := 28 + ids
    let length := des + 4 + history
    let calcLen := toInt32 length
    some {
      stores := [storeInt 12 4, ⟨16, word8 uid⟩, storeInt 24 recommendNum,
        ⟨28, load filterBuf 4 (toSize ids)⟩, storeInt des historyNum,
        ⟨des + 4, load filterBuf (histAt recommendNum + 4) (toSize history)⟩,
        storeInt 8 (toInt32 (calcLen - 12))]
      length := length
      calcLen := calcLen }

/-- A well-formed reply of the filter: at least one candidate, a power and a time for
each. -/
structure FilterReply where
  ids : List UInt64
  powers : List UInt32
  times : List I32
  history : List UInt64
  powers_length : powers.length = ids.length
  times_length : times.length = ids.length
  ids_pos : 0 < ids.length

namespace FilterReply

def scores (r : FilterReply) : List UInt8 :=
  (r.powers.flatMap fun p => leBytes 4 p.toNat) ++ r.times.flatMap fun t => int4 t.val

/-- recommend_num(4) ids(8 each) powers(4 each) times(4 each) history_num(4) history(8 each) -/
def bytes (r : FilterReply) : List UInt8 :=
  int4 r.ids.length ++ (words8 r.ids ++ (r.scores ++ (int4 r.history.length ++ words8 r.history)))

theorem flatMap_length {α : Type} (f : α → List UInt8) (k : ℕ) (hf : ∀ a, (f a).length = k)
    (as : List α) : (as.flatMap f).length = k * as.length := by
  induction as with
  | nil => rfl
  | cons a as ih =>
    rw [List.flatMap_cons, List.length_append, hf, ih, List.length_cons]
    ring

theorem scores_length (r : FilterReply) : r.scores.length = 8 * r.ids.length := by
  unfold scores
  rw [List.length_append, flatMap_length _ 4 (fun p => leBytes_length 4 _),
    flatMap_length _ 4 (fun t => int4_length _), r.powers_length, r.times_length]
  omega

theorem bytes_length (r : FilterReply) :
    r.bytes.length = 8 + 16 * r.ids.length + 8 * r.history.length := by
  unfold bytes
  simp only [List.length_append, int4_length, words8_length, scores_length]
  omega

def In (r : FilterReply) (filterBuf : Mem) : Prop := load filterBuf 0 r.bytes.length = r.bytes

theorem In.recommendNum {r : FilterReply} {m : Mem} (h : r.In m)
    (hlen : r.bytes.length < 2147483648) : loadInt m 0 = r.ids.length := by
  have hl := r.bytes_length
  have hslice : load m 0 4 = int4 r.ids.length := by
    have hs := load_slice (i := 0) (k := 4) h (by omega)
    rw [Int.natCast_zero, add_zero, List.drop_zero] at hs
    rw [hs]
    exact take_int4_append _ _
  exact loadInt_of_load hslice (by omega) (by omega)

theorem In.historyNum {r : FilterReply} {m : Mem} (h : r.In m)
    (hlen : r.bytes.length < 2147483648) :
    loadInt m (4 + 16 * r.ids.length) = r.history.length := by
  have hl := r.bytes_length
  have hfront : (int4 (r.ids.length : ℤ) ++ (words8 r.ids ++ r.scores)).length =
      4 + 16 * r.ids.length := by
    simp only [List.length_append, int4_length, words8_length, scores_length]
    omega
  have hslice : load m (4 + 16 * r.ids.length) 4 = int4 r.history.length := by
    have hs := load_slice (i := 4 + 16 * r.ids.length) (k := 4) h (by omega)
    have hdrop : r.bytes.drop (4 + 16 * r.ids.length) =
        int4 r.history.length ++ words8 r.history := by
      have hsplit : r.bytes = (int4 (r.ids.length : ℤ) ++ (words8 r.ids ++ r.scores)) ++
          (int4 r.history.length ++ words8 r.history) := by
        simp only [bytes, List.append_assoc]
      rw [hsplit]
      exact List.drop_left' hfront
    rw [hdrop, take_int4_append] at hs
    rw [← hs]
    push_cast
    ring_nf
  exact loadInt_of_load hslice (by omega) (by omega)

end FilterReply

/-- From a reply in the buffer a request of 32 bytes and the ids and the history is built. -/
theorem calcRequest_length (uid : UInt64) {r : FilterReply} {m : Mem} (h : r.In m)
    (hlen : r.bytes.length < 2147483648) : ∃ req, calcRequest uid m = some req ∧
      req.length = 32 + 8 * r.ids.length + 8 * r.history.length := by
  have hl := r.bytes_length
  have hpos := r.ids_pos
  have hn := h.recommendNum hlen
  have hids : toInt32 ((r.ids.length : ℤ) * 8) = r.ids.length * 8 := toInt32_eq (by omega) (by omega)
  have hfour : toInt32 ((r.ids.length : ℤ) * 4) = r.ids.length * 4 :=
    toInt32_eq (by omega) (by omega)
  have hat : histAt r.ids.length = 4 + 16 * r.ids.length := by
    unfold histAt timeAt pwrAt
    rw [hids, hfour]
    ring
  have hhist : toInt32 ((r.history.length : ℤ) * 8) = r.history.length * 8 :=
    toInt32_eq (by omega) (by omega)
  unfold calcRequest
  dsimp only
  rw [hn, if_neg (by omega), hat, h.historyNum hlen, hids, hhist]
  refine ⟨_, rfl, ?_⟩
  ring

/-- A length that `candidate_query` accepts is at most the size it was given. -/
theorem candidateQuery_accepts {size len : ℤ} {p : Peer}
    (hh : (candidateQuery size p).header = some len) (hok : (candidateQuery size p).ok = true) :
    len ≤ size := by
  unfold candidateQuery receive at hh hok
  dsimp only at hh hok
  split at hh
  next hhead =>
    rw [if_pos hhead] at hok
    split at hh
    next hr =>
      rw [if_pos hr] at hok
      cases hok
    next hr =>
      rw [← Option.some.inj hh]
      simpa using hr
  next => cases hh

/-- The request fits into the buffer that the accepted reply came in exactly when the
reply has three candidates, or leaves 8 bytes of the buffer for each that is missing. -/
theorem calcRequest_fits_iff (uid : UInt64) (fwMaxTaskSize : I32) {r : FilterReply} {p : Peer}
    (hh : (candidateQuery fwMaxTaskSize.val p).header = some r.bytes.length)
    (hok : (candidateQuery fwMaxTaskSize.val p).ok = true)
    (hbody : (candidateQuery fwMaxTaskSize.val p).body = r.bytes) {m : Mem}
    (hm : load m 0 r.bytes.length = (candidateQuery fwMaxTaskSize.val p).body) :
    ∃ req, calcRequest uid m = some req ∧
      (req.length ≤ fwMaxTaskSize.val ↔ 3 ≤ r.ids.length ∨
        (r.bytes.length : ℤ) + 8 * (3 - r.ids.length) ≤ fwMaxTaskSize.val) := by
  have hle := candidateQuery_accepts hh hok
  have hmax := fwMaxTaskSize.property.2
  have hl := r.bytes_length
  obtain ⟨req, hreq, hlen⟩ := calcRequest_length uid (hm.trans hbody) (by omega)
  refine ⟨req, hreq, ?_⟩
  rw [hlen]
  omega

/-- A reply that is no longer than the buffer is accepted in one segment. -/
theorem candidateQuery_sender (size : ℤ) (bs : List UInt8) (hs : (bs.length : ℤ) ≤ size)
    (hmax : bs.length < 2147483648) :
    (candidateQuery size (sender bs.length bs)).header = some (bs.length : ℤ) ∧
      (candidateQuery size (sender bs.length bs)).ok = true ∧
      (candidateQuery size (sender bs.length bs)).body = bs := by
  have hreceive := receive_sender (fun recvLen => decide (recvLen > size))
    ⟨bs.length, by omega, by omega⟩ bs
  have hrejects : decide ((bs.length : ℤ) > size) = false := decide_eq_false (by omega)
  have hsize : toSize bs.length = bs.length := by
    have := toSize_eq (x := (bs.length : ℤ)) (by omega) (by omega)
    omega
  have hrecv : cpRecvbuf ⟨[bs], false⟩ bs.length = ⟨bs, true, ⟨[], false⟩⟩ := by
    simp [cpRecvbuf, recvLoop, hsize]
  simp only [hrejects, hrecv, Bool.false_eq_true, if_false] at hreceive
  unfold candidateQuery
  rw [hreceive]
  exact ⟨rfl, rfl, rfl⟩

/-! ### Fixed inputs -/

def oneCandidate : FilterReply := ⟨[31], [1], [i32 1], [], rfl, rfl, by decide⟩

def threeCandidates : FilterReply :=
  ⟨[31, 32, 33], [1, 1, 1], [i32 1, i32 2, i32 3], [], rfl, rfl, by decide⟩

def bufferOf (bs : List UInt8) : Mem := fun x => bs[x.toNat]?.getD 0

theorem bufferOf_load (bs : List UInt8) : load (bufferOf bs) 0 bs.length = bs := by
  refine List.ext_getElem (by simp) fun i h₁ h₂ => ?_
  simp [load, bufferOf, List.getElem?_eq_getElem h₂]

theorem i32_of_range {x : ℤ} (h₁ : -2147483648 ≤ x) (h₂ : x < 2147483648) : (i32 x).val = x := by
  rw [i32_val, toInt32_eq h₁ h₂]

theorem calcRequest_fits_three : ∃ req,
    calcRequest 7 (bufferOf threeCandidates.bytes) = some req ∧
      (req.length ≤ (i32 56).val ↔ 3 ≤ threeCandidates.ids.length ∨
        (threeCandidates.bytes.length : ℤ) + 8 * (3 - threeCandidates.ids.length) ≤
          (i32 56).val) := by
  have hlen : threeCandidates.bytes.length = 56 := threeCandidates.bytes_length
  have hval : (i32 56).val = 56 := i32_of_range (by norm_num) (by norm_num)
  obtain ⟨hh, hok, hbody⟩ := candidateQuery_sender (i32 56).val threeCandidates.bytes
    (by omega) (by omega)
  exact calcRequest_fits_iff 7 (i32 56) hh hok hbody
    (by rw [hbody]; exact bufferOf_load threeCandidates.bytes)

/-- A reply of one candidate fills a buffer of 24 bytes; the request has 40. -/
theorem calcRequest_exceeds :
    (candidateQuery 24 (sender oneCandidate.bytes.length oneCandidate.bytes)).ok = true ∧
      (candidateQuery 24 (sender oneCandidate.bytes.length oneCandidate.bytes)).body =
        oneCandidate.bytes ∧
      load (bufferOf oneCandidate.bytes) 0 oneCandidate.bytes.length = oneCandidate.bytes ∧
      ∃ req, calcRequest 7 (bufferOf oneCandidate.bytes) = some req ∧ req.length = 40 ∧
        ¬ req.length ≤ 24 := by
  have hlen : oneCandidate.bytes.length = 24 := oneCandidate.bytes_length
  obtain ⟨-, hok, hbody⟩ := candidateQuery_sender 24 oneCandidate.bytes (by omega) (by omega)
  obtain ⟨req, hreq, hlength⟩ :=
    calcRequest_length 7 (bufferOf_load oneCandidate.bytes : oneCandidate.In _) (by omega)
  have h40 : req.length = 40 := hlength
  exact ⟨hok, hbody, bufferOf_load _, req, hreq, h40, by omega⟩

end PrimaryElection.Framework
