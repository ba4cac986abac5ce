import PrimaryElection.Framework.CalcRequest
import PrimaryElection.Framework.CenterDecode
import PrimaryElection.Framework.SyncLog

/-! The messages that the center puts together in buffers of a fixed size: the update of
`process_action`, from the history that the filter sends and the request of the client,
and the feedback of `candidate_feedback`, from a count that a client or a file states. The
size of neither is compared with the buffer before the copies. -/

namespace PrimaryElection.Framework

open CInt Bytes Encoder Memory Util

/-- The stores that compose a message, and its bytes. -/
structure Composed where
  stores : List Store
  length : ℤ

def Composed.Inside (c : Composed) (size : ℤ) : Prop :=
  ∀ w ∈ c.stores, 0 ≤ w.addr ∧ w.addr + w.bytes.length ≤ size

/-! ### The update of `process_action` -/

/-- `update_buf`, once the filter has sent the history and accepted the update. Without a
history nothing is sent. -/
def updateMessage (parseBuf : List UInt8) (history : Receipt) : Option Composed :=
  match history.header, history.ok with
  | some historyLen, true =>
    if historyLen = 0 then none
    else
      let updateLen := toInt32 (historyLen + parseBuf.length + 8)
      some {
        stores := [⟨4, parseBuf.take 4⟩, ⟨8, history.body⟩, ⟨8 + historyLen, parseBuf⟩,
          storeInt 0 (toInt32 (updateLen - 4))]
        length := 8 + historyLen + parseBuf.length }
  | _, _ => none

/-- The message of a history of `historyLen` bytes fits a task buffer: it is not longer,
and it is composed inside if that length is not negative. -/
structure UpdateFits (c : Composed) (historyLen fwMaxTaskSize : ℤ) : Prop where
  length : c.length ≤ fwMaxTaskSize
  inside : 0 ≤ historyLen → c.Inside fwMaxTaskSize

variable {D : Type}

/-- What an encoder writes when it succeeds has `k` bytes, and it counts them. -/
def Sizes (e : Enc Unit) (k : ℕ) : Prop :=
  ∀ ⦃size len l : ℤ⦄ ⦃bs : List UInt8⦄ ⦃u : Unit⦄, e size len = ⟨bs, l, .ok u⟩ →
    bs.length = k ∧ l = len + k

theorem Sizes.seq {e f : Enc Unit} {k k' : ℕ} (he : Sizes e k) (hf : Sizes f k') :
    Sizes (e >>= fun _ => f) (k + k') := by
  intro size len l bs u h
  obtain ⟨bs₁, l₁, _, bs₂, h₁, h₂, rfl⟩ := bind_ok_iff.mp h
  obtain ⟨hb₁, rfl⟩ := he h₁
  obtain ⟨hb₂, rfl⟩ := hf h₂
  rw [List.length_append, hb₁, hb₂]
  exact ⟨rfl, by push_cast; ring⟩

theorem sizes_sizeIs (json : Json D) (n : ℕ) (wrong : ℤ) : Sizes (sizeIs json n wrong) 0 := by
  intro size len l bs u h
  obtain ⟨-, rfl, rfl⟩ := sizeIs_ok_iff.mp h
  exact ⟨rfl, (add_zero _).symm⟩

theorem sizes_intField (json : Json D) (name : String) (missing full : ℤ) :
    Sizes (intField json name missing full) 4 := by
  intro size len l bs u h
  obtain ⟨node, -, rfl, rfl, -⟩ := intField_ok_iff.mp h
  exact ⟨int4_length _, rfl⟩

theorem sizes_idField (json : Json D) (name : String) (missing full : ℤ) :
    Sizes (idField json name missing full) 8 := by
  intro size len l bs u h
  obtain ⟨node, v, -, -, rfl, rfl, -⟩ := idField_ok_iff.mp h
  exact ⟨word8_length _, rfl⟩

theorem sizes_locationField {json location : Json D}
    (hl : json.getObjectItem "location" = some location) :
    Sizes (locationField json) (4 + strlen location) := by
  intro size len l bs u h
  simp only [locationField, member, bind_ok_iff, require_ok_iff, room_ok_iff, use_ok_iff,
    put_ok_iff] at h
  obtain ⟨_, _, node, _, ⟨rfl, rfl, hnode⟩, h, rfl⟩ := h
  obtain ⟨_, _, _, _, ⟨rfl, rfl, -⟩, h, rfl⟩ := h
  obtain ⟨_, _, s, _, ⟨rfl, rfl, hs⟩, h, rfl⟩ := h
  obtain ⟨_, _, _, _, ⟨rfl, rfl⟩, h, rfl⟩ := h
  obtain ⟨_, _, _, _, ⟨rfl, rfl, -⟩, ⟨rfl, rfl⟩, rfl⟩ := h
  obtain rfl := Option.some.inj (hl.symm.trans hnode)
  have hlen : strlen location = s.bytes.length := by simp [strlen, hs]
  rw [hlen]
  simp only [List.length_append, List.length_nil, int4_length]
  exact ⟨by ring, by push_cast; ring⟩

/-- An accepted type-1 request has 36 bytes and those of the location. -/
theorem sizes_parseAction {json location : Json D}
    (hl : json.getObjectItem "location" = some location) :
    Sizes (parseAction json) (36 + strlen location) := by
  have h := (sizes_sizeIs json 7 (-101)).seq <| (sizes_intField json "type" (-102) (-100)).seq <|
    (sizes_intField json "clicktime" (-103) (-100)).seq <|
    (sizes_idField json "userid" (-104) (-100)).seq <| (sizes_idField json "docid" (-105) (-100)).seq <|
    (sizes_intField json "staytime" (-106) (-100)).seq <|
    (sizes_intField json "action" (-107) (-100)).seq <| sizes_locationField hl
  have hsum : 0 + (4 + (4 + (8 + (8 + (4 + (4 + (4 + strlen location))))))) = 36 + strlen location := by
    omega
  exact hsum ▸ h

theorem parseJson_action [Zero D] (h : Host D) {json type : Json D} {size len : ℤ}
    {bs : List UInt8} {u : Unit} (htype : json.getObjectItem "type" = some type)
    (hone : type.valueint.val = 1) (hacc : parseJson h json size 0 = ⟨bs, len, .ok u⟩) :
    parseAction json size 0 = ⟨bs, len, .ok u⟩ :=
  (parseJson_eq .action htype hone size).symm.trans hacc

/-- A body of a length that is not negative is received whole. -/
theorem receive_body_length {rejects : ℤ → Bool} {p : Peer} {len : ℤ}
    (hh : (receive rejects p).header = some len) (hok : (receive rejects p).ok = true)
    (h₀ : 0 ≤ len) (h₁ : len < 2147483648) : ((receive rejects p).body.length : ℤ) = len := by
  unfold receive at hh hok ⊢
  dsimp only at hh hok ⊢
  split at hh
  next hhead =>
    rw [if_pos hhead] at hok ⊢
    split at hh
    next hr =>
      rw [if_pos hr] at hok
      cases hok
    next hr =>
      rw [if_neg hr] at hok ⊢
      obtain rfl := Option.some.inj hh
      exact cpRecvbuf_ok h₀ h₁ hok
  next => cases hh

/-- The update fits exactly when the history leaves 44 bytes and those of the location. -/
theorem updateMessage_fits_iff (parseBuf : List UInt8) {historyLen size len : ℤ} {p : Peer}
    (hsize : size < 2147483648) (hh : (candidateQuery len p).header = some historyLen)
    (hok : (candidateQuery len p).ok = true) (hne : historyLen ≠ 0) :
    ∃ msg, updateMessage parseBuf (candidateQuery len p) = some msg ∧
      msg.length = 8 + historyLen + parseBuf.length ∧
      (UpdateFits msg historyLen size ↔ 8 + historyLen + parseBuf.length ≤ size) := by
  unfold updateMessage
  simp only [hh, hok, if_neg hne]
  refine ⟨_, rfl, rfl, fun h => h.length, fun h => ⟨h, fun hpos w hw => ?_⟩⟩
  have hbody : ((candidateQuery len p).body.length : ℤ) = historyLen :=
    receive_body_length hh hok hpos (by omega)
  simp only [List.mem_cons, List.not_mem_nil, or_false] at hw
  obtain rfl | rfl | rfl | rfl := hw
  · have htake : (parseBuf.take 4).length ≤ 4 := List.length_take_le _ _
    dsimp only
    omega
  · dsimp only
    omega
  · dsimp only
    omega
  · simp only [storeInt_addr, storeInt_length]
    omega

/-! ### The feedback of `candidate_feedback` -/

/-- `send_buf` for a list at `pushLst`. -/
def feedbackMessage (uid : UInt64) (pushNum : ℤ) (mem : Mem) (pushLst : ℤ) : Composed :=
  let bytes := toInt32 (pushNum * 8)
  let sendLen := toInt32 (20 + bytes)
  { stores := [storeInt 4 666, ⟨8, word8 uid⟩, storeInt 16 pushNum,
      ⟨20, load mem pushLst (toSize bytes)⟩, storeInt 0 (toInt32 (sendLen - 4))]
    length := sendLen }

structure FeedbackFits (c : Composed) (pushNum : ℤ) : Prop where
  length : c.length = 20 + 8 * pushNum
  inside : c.Inside feedbackRoom

/-- The feedback fits exactly for the counts from 0 to 1277. -/
theorem feedbackMessage_fits_iff (uid : UInt64) (pushNum : I32) (mem : Mem) (pushLst : ℤ) :
    FeedbackFits (feedbackMessage uid pushNum.val mem pushLst) pushNum.val ↔
      0 ≤ pushNum.val ∧ pushNum.val ≤ 1277 := by
  have hrange := toInt32_range (pushNum.val * 8)
  constructor
  · rintro ⟨hlen, hinside⟩
    have hcopy := (hinside ⟨20, load mem pushLst (toSize (toInt32 (pushNum.val * 8)))⟩
      (by simp [feedbackMessage])).2
    rw [load_length, feedbackRoom] at hcopy
    dsimp only at hcopy
    have hnum : 0 ≤ toInt32 (pushNum.val * 8) := by
      by_contra hneg
      have := toSize_neg (x := toInt32 (pushNum.val * 8)) (by omega) (by omega)
      omega
    have hsize := toSize_eq hnum (by omega)
    have hsend : (feedbackMessage uid pushNum.val mem pushLst).length =
        20 + toInt32 (pushNum.val * 8) := toInt32_eq (by omega) (by omega)
    omega
  · rintro ⟨h₀, h₁⟩
    have hbytes : toInt32 (pushNum.val * 8) = pushNum.val * 8 := toInt32_eq (by omega) (by omega)
    have hsize := toSize_eq (x := pushNum.val * 8) (by omega) (by omega)
    refine ⟨?_, fun w hw => ?_⟩
    · have hsend : (feedbackMessage uid pushNum.val mem pushLst).length =
          toInt32 (20 + toInt32 (pushNum.val * 8)) := rfl
      rw [hsend, hbytes, toInt32_eq (by omega) (by omega)]
      ring
    · simp only [feedbackMessage, hbytes, List.mem_cons, List.not_mem_nil, or_false] at hw
      unfold feedbackRoom
      obtain rfl | rfl | rfl | rfl | rfl := hw
      · simp
      · simp
      · simp
      · simp only [load_length]
        omega
      · simp

/-- Only these counts are sent by the model of the call. -/
theorem feedbackMessage_sent_iff (p : Push) (hp : -2147483648 ≤ p.num ∧ p.num < 2147483648)
    (mem : Mem) (pushLst : ℤ) :
    FeedbackFits (feedbackMessage p.uid p.num mem pushLst) p.num ↔
      (candidateFeedback p).isSome = true := by
  rw [feedbackMessage_fits_iff p.uid ⟨p.num, hp⟩ mem pushLst]
  unfold candidateFeedback feedbackRoom
  split_ifs with h
  · simp only [Option.isSome_none, Bool.false_eq_true, iff_false]
    omega
  · simp only [Option.isSome_some, iff_true]
    omega

theorem readFeedback_num [Zero D] (h : Host D) {json type : Json D} {size len : ℤ} {bs : List UInt8}
    {u : Unit} {r : Pushed} (htype : json.getObjectItem "type" = some type)
    (hsix : type.valueint.val = 6) (hacc : parseJson h json size 0 = ⟨bs, len, .ok u⟩)
    (hr : json.pushed = some r) (tail : List UInt8) : (readFeedback (bs ++ tail)).num = r.returnnum.val := by
  obtain ⟨type', r', -, hr', rfl⟩ := parseFeedback_ok (parseJson_feedback h htype hsix hacc)
  obtain rfl := Option.some.inj (hr.symm.trans hr')
  have hnum : int4Val (int4 r.returnnum.val) = r.returnnum.val :=
    int4Val_int4 r.returnnum.property.1 r.returnnum.property.2
  simp [readFeedback, hnum]

/-- The update of an accepted type-1 request fits exactly when the history leaves 44 bytes
and those of the location; the feedback of an accepted type-6 request, and that of a
record of the sync file, exactly when the count it states is one from 0 to 1277. -/
theorem composed_fits_iff [Zero D] (h : Host D) :
    (∀ (json type location : Json D) (size len historyLen : ℤ) (bs : List UInt8)
        (fwMaxTaskSize : I32) (p : Peer),
      json.getObjectItem "type" = some type → type.valueint.val = 1 →
      json.getObjectItem "location" = some location →
      parseJson h json size 0 = ⟨bs, len, .ok ()⟩ →
      (candidateQuery (toInt32 (fwMaxTaskSize.val - 8)) p).header = some historyLen →
      (candidateQuery (toInt32 (fwMaxTaskSize.val - 8)) p).ok = true → historyLen ≠ 0 →
      ∃ msg, updateMessage bs (candidateQuery (toInt32 (fwMaxTaskSize.val - 8)) p) = some msg ∧
        msg.length = 8 + historyLen + len ∧
        (UpdateFits msg historyLen fwMaxTaskSize.val ↔
          historyLen + 44 + strlen location ≤ fwMaxTaskSize.val)) ∧
    (∀ (json type : Json D) (size len : ℤ) (bs tail : List UInt8) (r : Pushed) (mem : Mem)
        (pushLst : ℤ),
      json.getObjectItem "type" = some type → type.valueint.val = 6 → json.pushed = some r →
      parseJson h json size 0 = ⟨bs, len, .ok ()⟩ →
      (FeedbackFits (feedbackMessage (readFeedback (bs ++ tail)).uid
          (readFeedback (bs ++ tail)).num mem pushLst) (readFeedback (bs ++ tail)).num ↔
        0 ≤ r.returnnum.val ∧ r.returnnum.val ≤ 1277)) ∧
    ∀ (rest rest' : List UInt8) (q : Push) (mem : Mem) (pushLst : ℤ),
      SyncLog.fread rest = some (q, rest') →
      (FeedbackFits (feedbackMessage q.uid q.num mem pushLst) q.num ↔ 0 ≤ q.num ∧ q.num ≤ 1277) := by
  refine ⟨?_, ?_, ?_⟩
  · intro json type location size len historyLen bs fwMaxTaskSize p htype hone hlocation hacc hh hok hne
    obtain ⟨hsize, rfl⟩ := sizes_parseAction hlocation (parseJson_action h htype hone hacc)
    obtain ⟨msg, hmsg, hlength, hfits⟩ :=
      updateMessage_fits_iff bs fwMaxTaskSize.property.2 hh hok hne
    rw [hsize] at hlength hfits
    refine ⟨msg, hmsg, by rw [hlength, zero_add], hfits.trans ?_⟩
    omega
  · intro json type size len bs tail r mem pushLst htype hsix hr hacc
    rw [readFeedback_num h htype hsix hacc hr tail]
    exact feedbackMessage_fits_iff _ r.returnnum mem pushLst
  · intro rest rest' q mem pushLst hq
    unfold SyncLog.fread at hq
    dsimp only at hq
    split at hq
    next => cases hq
    next =>
      cases hq
      exact feedbackMessage_fits_iff _ ⟨_, toInt32_range _⟩ mem pushLst

def clickBytes : List UInt8 := (parseJson stoppedHost clickRequest 64 0).bytes

theorem clickRequest_accepted :
    parseJson stoppedHost clickRequest 64 0 = ⟨clickBytes, 38, .ok ()⟩ := rfl

def statedBytes (num : I32) : List UInt8 :=
  (parseJson stoppedHost (feedbackRequest (.ofLit "7") num (.ofLit "5")) 64 0).bytes

theorem statedBytes_accepted (num : I32) :
    parseJson stoppedHost (feedbackRequest (.ofLit "7") num (.ofLit "5")) 64 0 =
      ⟨statedBytes num, 28, .ok ()⟩ := rfl

def oneRecord : List UInt8 := syncRecord ⟨7, 1, [5]⟩

theorem historyReply (size : ℤ) (n : ℕ) (hs : (n : ℤ) ≤ size) (hn : n < 2147483648) :
    (candidateQuery size (sender n (List.replicate n 0))).header = some (n : ℤ) ∧
      (candidateQuery size (sender n (List.replicate n 0))).ok = true := by
  have h := candidateQuery_sender size (List.replicate n 0) (by simpa using hs) (by simpa using hn)
  rw [List.length_replicate] at h
  exact ⟨h.1, h.2.1⟩

/-- The click fits a buffer of 128 bytes with a history of 12; one pushed id is sent. -/
theorem composed_fits_iff_example :
    (∃ msg, updateMessage clickBytes
        (candidateQuery (toInt32 ((i32 128).val - 8)) (sender 12 (List.replicate 12 0))) = some msg ∧
      UpdateFits msg 12 (i32 128).val) ∧
    FeedbackFits (feedbackMessage (readFeedback (statedBytes (i32 1) ++ [])).uid
      (readFeedback (statedBytes (i32 1) ++ [])).num (fun _ => 0) 16)
      (readFeedback (statedBytes (i32 1) ++ [])).num ∧
    FeedbackFits (feedbackMessage 7 1 (fun _ => 0) 12) 1 := by
  obtain ⟨hupdate, hfeedback, hsync⟩ := composed_fits_iff stoppedHost
  have h128 : (i32 128).val = 128 := i32_of_range (by norm_num) (by norm_num)
  have h1 : (i32 1).val = 1 := i32_of_range (by norm_num) (by norm_num)
  have hroom : toInt32 ((i32 128).val - 8) = 120 := by
    rw [h128, toInt32_eq (by norm_num) (by norm_num)]
    norm_num
  obtain ⟨hh, hok⟩ := historyReply (toInt32 ((i32 128).val - 8)) 12 (by omega) (by norm_num)
  refine ⟨?_, ?_, ?_⟩
  · obtain ⟨msg, hmsg, -, hfits⟩ := hupdate clickRequest _ _ 64 38 12 clickBytes (i32 128) _ rfl h1 rfl
      clickRequest_accepted hh hok (by norm_num)
    refine ⟨msg, hmsg, hfits.mpr ?_⟩
    rw [h128]
    decide
  · refine (hfeedback _ _ 64 28 _ [] ⟨7, i32 1, [5]⟩ _ 16 rfl rfl rfl (statedBytes_accepted (i32 1))).mpr ?_
    rw [h1]
    norm_num
  · exact (hsync oneRecord [] ⟨7, 1, [5]⟩ _ 12 (by decide)).mpr (by norm_num)

/-- A history of 56 bytes is accepted for a buffer of 64 bytes, and the update with the
click has 102; a count of 1278 is accepted and overruns the stack buffer. -/
theorem composed_exceeds :
    (∃ msg, parseJson stoppedHost clickRequest 64 0 = ⟨clickBytes, 38, .ok ()⟩ ∧
      (candidateQuery (64 - 8) (sender 56 (List.replicate 56 0))).ok = true ∧
      updateMessage clickBytes (candidateQuery (64 - 8) (sender 56 (List.replicate 56 0))) = some msg ∧
      msg.length = 102 ∧ ¬ UpdateFits msg 56 64) ∧
    ∃ num : I32, parseJson stoppedHost (feedbackRequest (.ofLit "7") num (.ofLit "5")) 64 0 =
        ⟨statedBytes num, 28, .ok ()⟩ ∧ num.val = 1278 ∧
      (readFeedback (statedBytes num)).num = 1278 ∧
      ¬ FeedbackFits (feedbackMessage 7 1278 (fun _ => 0) 16) 1278 := by
  refine ⟨?_, ⟨1278, by decide⟩, statedBytes_accepted _, rfl, by decide, fun h => ?_⟩
  · obtain ⟨hh, hok⟩ := historyReply (64 - 8) 56 (by norm_num) (by norm_num)
    obtain ⟨msg, hmsg, hlen, -⟩ :=
      updateMessage_fits_iff clickBytes (show (64 : ℤ) < 2147483648 by norm_num) hh hok (by norm_num)
    refine ⟨msg, clickRequest_accepted, hok, hmsg, hlen, fun h => ?_⟩
    have hle := h.length
    rw [hlen] at hle
    exact absurd hle (by decide)
  · have hle : (1278 : ℤ) ≤ 1277 := ((feedbackMessage_fits_iff 7 ⟨1278, by decide⟩ (fun _ => 0) 16).mp h).2
    exact absurd hle (by norm_num)

end PrimaryElection.Framework
