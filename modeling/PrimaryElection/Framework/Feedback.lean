import PrimaryElection.Framework.CenterParse

/-! The feedback message. `parse_feedback` writes it, `process_feedback` reads it
back out of the parse buffer and logs it, appends a record to the sync file and
forwards it to the filter. The writer puts the length of the list before the ids,
the reader takes the ids from right after the count: every id it obtains is made
of two halves that belong to neighbouring words. -/

namespace PrimaryElection.Framework

open CInt Bytes Encoder

/-- The arguments of `process_feedback`: a user and a list of ids with its count. -/
structure Push where
  uid : UInt64
  num : ℤ
  lst : List UInt64
  deriving DecidableEq

def Push.ofList (uid : UInt64) (ids : List UInt64) : Push := ⟨uid, ids.length, ids⟩

/-- What `process_feedback(node, ...)` takes from the node's parse buffer. -/
def readFeedback (parseBuf : List UInt8) : Push :=
  let ptr := parseBuf.drop 4
  let uid := word8Val (ptr.take 8)
  let ptr := ptr.drop 8
  let num := int4Val (ptr.take 4)
  let ptr := ptr.drop 4
  ⟨uid, num, words8Val num.toNat ptr⟩

/-- The end flag of a sync record. -/
def syncFlag : List UInt8 := lit "#!SYNC!#"

/-- The bytes that `process_feedback` writes to the sync file. -/
def syncRecord (p : Push) : List UInt8 := word8 p.uid ++ int4 p.num ++ words8 p.lst ++ syncFlag

/-- Capacity of the stack buffer of `candidate_feedback`. -/
def feedbackRoom : ℤ := 10240

/-- The message that `candidate_feedback` sends; none if it does not fit its
buffer or its length is negative. -/
def candidateFeedback (p : Push) : Option (List UInt8) :=
  if p.num < 0 ∨ feedbackRoom < 20 + 8 * p.num then none
  else some (int4 (16 + 8 * p.num) ++ int4 666 ++ word8 p.uid ++ int4 p.num ++ words8 p.lst)

/-- What a call of `process_feedback` leaves behind: the user and ids that
`save_log_pushed` prints, the record written if sync is on, the forwarded message. -/
structure Effects where
  logged : UInt64 × List UInt64
  synced : Option (List UInt8)
  forwarded : List UInt8
  deriving DecidableEq

/-- A call of `process_feedback` whose file operations and exchange succeed. -/
def processFeedback (fwSyncFlag : Bool) (p : Push) : Option Effects :=
  (candidateFeedback p).map fun msg =>
    { logged := (p.uid, p.lst)
      synced := if fwSyncFlag ∧ 0 < p.num then some (syncRecord p) else none
      forwarded := msg }

/-! ### Words read at an offset of half a word -/

/-- Reading words back is reading the bytes back. -/
theorem words8Val_eq_iff {vs : List UInt64} (bs : List UInt8) (h : 8 * vs.length ≤ bs.length) :
    words8Val vs.length bs = vs ↔ bs.take (8 * vs.length) = words8 vs := by
  induction vs generalizing bs with
  | nil => simp [words8Val]
  | cons v vs ih =>
    rw [List.length_cons] at h ⊢
    have hb : (bs.take 8).length = 8 := by rw [List.length_take]; omega
    have ht : bs.take (8 * (vs.length + 1)) = bs.take 8 ++ (bs.drop 8).take (8 * vs.length) := by
      rw [← List.take_add, Nat.mul_succ, Nat.add_comm]
    have hr := ih (bs.drop 8) (by rw [List.length_drop]; omega)
    rw [words8Val, List.cons.injEq, hr, ht, words8_cons]
    constructor
    · rintro ⟨hv, hvs⟩
      rw [hvs, ← hv, word8Val_inj (by simp) hb (word8Val_word8 _)]
    · intro he
      obtain ⟨hv, hvs⟩ := List.append_inj he (by rw [hb, word8_length])
      exact ⟨by rw [hv, word8Val_word8], hvs⟩

/-- Behind a carry of half a word, a run of words reads as itself only if every
word is the carry twice. -/
theorem take_carry_eq_iff {c : List UInt8} (hc : c.length = 4) (vs : List UInt64) :
    (c ++ words8 vs).take (8 * vs.length) = words8 vs ↔ ∀ v ∈ vs, word8 v = c ++ c := by
  induction vs with
  | nil => simp
  | cons v vs ih =>
    obtain ⟨a, b, ha, hb, hw⟩ : ∃ a b : List UInt8, a.length = 4 ∧ b.length = 4 ∧ word8 v = a ++ b :=
      ⟨(word8 v).take 4, (word8 v).drop 4, by simp, by simp, (List.take_append_drop 4 _).symm⟩
    have htake : (c ++ words8 (v :: vs)).take (8 * (v :: vs).length) =
        c ++ a ++ (b ++ words8 vs).take (8 * vs.length) := by
      have hl : 8 * (v :: vs).length = (c ++ a).length + 8 * vs.length := by simp [hc, ha]; ring
      have hr : c ++ words8 (v :: vs) = (c ++ a) ++ (b ++ words8 vs) := by simp [hw]
      rw [hl, hr, List.take_length_add_append]
    rw [htake, words8_cons, hw, List.forall_mem_cons, ← ih]
    constructor
    · intro h
      obtain ⟨h₁, h₂⟩ := List.append_inj h (by simp [ha, hb, hc])
      obtain ⟨rfl, rfl⟩ := List.append_inj h₁ (by rw [ha, hc])
      exact ⟨hw, h₂⟩
    · rintro ⟨h₁, h₂⟩
      obtain ⟨rfl, rfl⟩ := List.append_inj (hw.symm.trans h₁) (by rw [ha, hc])
      rw [h₂]

def doubled (n : ℕ) : UInt64 := UInt64.ofNat (n * 4294967297)

theorem word8_eq_doubled_iff {n : ℕ} (h : n < 2147483648) (v : UInt64) :
    word8 v = int4 n ++ int4 n ↔ v = doubled n := by
  have hd : word8 (doubled n) = int4 n ++ int4 n := by
    apply leVal_inj (by simp)
    have hn : leVal (int4 n) = n := by
      have := leVal_int4 n
      omega
    rw [leVal_append, int4_length, hn, word8, leVal_leBytes, doubled, UInt64.toNat_ofNat']
    omega
  constructor
  · intro hv
    rw [← word8Val_word8 v, hv, ← hd, word8Val_word8]
  · rintro rfl
    exact hd

/-! ### The message as it is read -/

/-- An accepted message whose stated count is the length of its list, read back
with anything behind it in the buffer. -/
theorem readFeedback_written (type : ℤ) (uid : UInt64) {ids : List UInt64}
    (hn : ids.length < 2147483648) (tail : List UInt8) :
    readFeedback (int4 type ++ word8 uid ++ int4 ids.length ++ int4 ids.length ++ words8 ids ++ tail) =
      ⟨uid, ids.length, words8Val ids.length (int4 ids.length ++ words8 ids ++ tail)⟩ := by
  have hnum : int4Val (int4 (ids.length : ℤ)) = ids.length := int4Val_int4 (by omega) (by omega)
  simp [readFeedback, hnum]

/-- The list is read as it was given exactly when every id doubles its length. -/
theorem readFeedback_eq_iff (type : ℤ) (uid : UInt64) {ids : List UInt64}
    (hn : ids.length < 2147483648) (tail : List UInt8) :
    readFeedback (int4 type ++ word8 uid ++ int4 ids.length ++ int4 ids.length ++ words8 ids ++ tail) =
      Push.ofList uid ids ↔ ∀ v ∈ ids, v = doubled ids.length := by
  have htake : (int4 (ids.length : ℤ) ++ words8 ids ++ tail).take (8 * ids.length) =
      (int4 (ids.length : ℤ) ++ words8 ids).take (8 * ids.length) :=
    List.take_append_of_le_length (by simp)
  rw [readFeedback_written type uid hn, Push.ofList, Push.mk.injEq]
  simp only [true_and]
  rw [words8Val_eq_iff _ (by simp; omega), htake, take_carry_eq_iff (int4_length _)]
  exact forall₂_congr fun v _ => word8_eq_doubled_iff hn v

/-- What the request asks to be logged, recorded and forwarded. -/
def Pushed.effects (fwSyncFlag : Bool) (r : Pushed) : Effects where
  logged := (r.uid, r.ids)
  synced := if fwSyncFlag ∧ r.ids ≠ [] then
    some (word8 r.uid ++ int4 r.ids.length ++ words8 r.ids ++ syncFlag) else none
  forwarded := int4 (16 + 8 * r.ids.length) ++ int4 666 ++ word8 r.uid ++ int4 r.ids.length ++
    words8 r.ids

theorem processFeedback_ofList (fwSyncFlag : Bool) (r : Pushed) :
    processFeedback fwSyncFlag (Push.ofList r.uid r.ids) = some (r.effects fwSyncFlag) ↔
      r.ids.length ≤ 1277 := by
  have hroom : feedbackRoom < 20 + 8 * (r.ids.length : ℤ) ↔ ¬ r.ids.length ≤ 1277 := by
    unfold feedbackRoom
    omega
  have hpos : 0 < r.ids.length ↔ r.ids ≠ [] := List.length_pos_iff
  simp only [processFeedback, candidateFeedback, Push.ofList, hroom]
  by_cases h : r.ids.length ≤ 1277
  · simp [h, Pushed.effects, syncRecord, hpos]
  · simp [h]

/-- The feedback of an accepted type-6 request, whose stated count is the length of
its list, is obtained and passed on as it was given exactly when every id holds
the list's length in both halves and the list fits the forwarding buffer. -/
theorem feedback_agrees_iff {D : Type} [Zero D] (h : Host D) {json type : Json D} {size len : ℤ}
    {bs : List UInt8} {u : Unit} (htype : json.getObjectItem "type" = some type)
    (hsix : type.valueint.val = 6) (hacc : parseJson h json size 0 = ⟨bs, len, .ok u⟩) {r : Pushed}
    (hr : json.pushed = some r) (hnum : r.returnnum.val = r.ids.length) (fwSyncFlag : Bool)
    (tail : List UInt8) :
    (readFeedback (bs ++ tail) = Push.ofList r.uid r.ids ∧
      processFeedback fwSyncFlag (readFeedback (bs ++ tail)) = some (r.effects fwSyncFlag)) ↔
      (∀ v ∈ r.ids, v = doubled r.ids.length) ∧ r.ids.length ≤ 1277 := by
  obtain ⟨type', r', -, hr', rfl⟩ := parseFeedback_ok (parseJson_feedback h htype hsix hacc)
  obtain rfl := Option.some.inj (hr.symm.trans hr')
  have hn : r.ids.length < 2147483648 := by
    have := r.returnnum.property.2
    omega
  have hread := readFeedback_eq_iff type'.valueint r.uid hn tail
  rw [hnum, hread]
  constructor
  · rintro ⟨hv, hp⟩
    rw [hread.mpr hv] at hp
    exact ⟨hv, (processFeedback_ofList fwSyncFlag r).mp hp⟩
  · rintro ⟨hv, hp⟩
    rw [hread.mpr hv]
    exact ⟨hv, (processFeedback_ofList fwSyncFlag r).mpr hp⟩

/-- The object `{"type":6,"userid":uid,"returnnum":num,"returnlist":[id]}`. -/
def feedbackRequest (uid : CStr) (num : I32) (id : CStr) : Json ℤ :=
  .object [(lit "type", .scalar (i32 6) 6), (lit "userid", .string uid),
    (lit "returnnum", .scalar num num.val), (lit "returnlist", .array [.string id])]

theorem feedback_agrees_iff_doubled :
    let bs := int4 6 ++ word8 7 ++ int4 1 ++ int4 1 ++ words8 [4294967297]
    (readFeedback (bs ++ []) = Push.ofList 7 [4294967297] ∧
      processFeedback true (readFeedback (bs ++ [])) =
        some (Pushed.effects true ⟨7, i32 1, [4294967297]⟩)) ↔
      (∀ v ∈ [(4294967297 : UInt64)], v = doubled 1) ∧ 1 ≤ 1277 :=
  @feedback_agrees_iff ℤ _ ⟨0, fun _ => 0⟩
    (feedbackRequest (.ofLit "7") (i32 1) (.ofLit "4294967297"))
    (.scalar (i32 6) 6) 1024 28 _ () rfl rfl rfl ⟨7, i32 1, [4294967297]⟩ rfl rfl true []

/-- For the user 7 and the list of the one id 5 the reader obtains the id
5 * 2^32 + 1, and that is logged, recorded and forwarded. -/
theorem feedback_shifted :
    let json := feedbackRequest (.ofLit "7") (i32 1) (.ofLit "5")
    let written := parseJson (D := ℤ) ⟨0, fun _ => 0⟩ json 1024 0
    written.out = .ok () ∧ json.pushed = some ⟨7, i32 1, [5]⟩ ∧
      readFeedback written.bytes = Push.ofList 7 [21474836481] ∧
      readFeedback written.bytes ≠ Push.ofList 7 [5] ∧
      processFeedback true (readFeedback written.bytes) ≠
        some (Pushed.effects true ⟨7, i32 1, [5]⟩) := by
  decide

end PrimaryElection.Framework
