import PrimaryElection.Framework.CacheBounds
import PrimaryElection.Framework.Json
import PrimaryElection.Lib.Bytes
import PrimaryElection.Lib.JsonText

/-! The replies of `thread_process` of the center. Success is framed by the length and
the text in two sends, failure by both in one buffer. The texts of a query have no
closing brace, so that a query is never answered. -/

namespace PrimaryElection.Framework.ThreadProcess

open CInt Bytes JsonText

/-- The request type, the user and the count of a query's parsed request, and the bytes
that an earlier task left in `send_buf`, up to `send_len`. -/
structure TaskNode where
  typeFlg : ℤ
  userId : Uid
  requestNum : ℤ
  sendBuf : List UInt8

/-- What the calls of the processing give: the lengths and the first `int` of their
replies, absent on error, and the cache. -/
structure Env where
  getMem : Bool
  history : Option ℤ
  update : Option I32
  putMessage : Bool
  getMessage : Option I32
  isNewUser : ℤ
  cache : Cache.Config
  cacheEnv : Cache.Env
  table : Cache.Table

/-- `sprintf(send_buf, "\x7b\"type\":%d,\"code\":%d\x7d", ..)` -/
def codeText (typeFlg code : ℤ) : List UInt8 :=
  lit "\x7b\"type\":" ++ decimalInt typeFlg ++ lit ",\"code\":" ++ decimalInt code ++ lit "\x7d"

/-- The text in `send_buf`, or nothing for the error code. -/
def processAction (e : Env) (t : TaskNode) : Option (List UInt8) := do
  guard e.getMem
  let historyLen ← e.history
  guard (historyLen ≠ 0)
  let _ ← e.update
  guard e.putMessage
  let code ← e.getMessage
  some (codeText t.typeFlg code.val)

def processDocument (e : Env) (t : TaskNode) : Option (List UInt8) := do
  let _ ← e.update
  guard e.putMessage
  let code ← e.getMessage
  some (codeText t.typeFlg code.val)

def processSubscribe (e : Env) (t : TaskNode) : Option (List UInt8) := do
  let code ← e.update
  some (codeText t.typeFlg code.val)

/-- It returns only with success. -/
def processFeedback (t : TaskNode) : List UInt8 := codeText t.typeFlg 0

/-- The ids from position `i` of the list on, each but the first behind a comma. -/
def docidLoop : ℕ → List DocId → List UInt8
  | _, [] => []
  | i, d :: ds =>
    (if i = 0 then decimal d.toNat else lit "," ++ decimal d.toNat) ++ docidLoop (i + 1) ds

/-- The text for a new or overtime user. -/
def emptyText (userflag : String) : List UInt8 :=
  lit "\x7b\"task\":4,\"returnnum\":0,\"docid\":[],\"userflag\":" ++ lit userflag

/-- The text for a normal user. -/
def listText (lst : List DocId) : List UInt8 :=
  lit "\x7b\"task\":4,\"returnnum\":" ++ decimalInt lst.length ++ lit ",\"docid\":[" ++ docidLoop 0 lst ++
    lit "],\"userflag\":1"

/-- What the cache answers to a query, unless the count it copies is negative. -/
def cacheGet (e : Env) (t : TaskNode) : Option Cache.Reply :=
  (Cache.get e.cache e.cacheEnv e.table t.userId (CacheBounds.cappedRequest t.requestNum)).map Prod.snd

/-- The text of `process_query(TASK_NODE*)` for an answer of the cache. -/
def queryText (e : Env) (t : TaskNode) (r : Cache.Reply) : List UInt8 :=
  if r.ret < 0 then emptyText (if e.isNewUser ≠ 0 then "2" else "3")
  else if r.ret = 1 ∨ r.ret = 2 then listText r.lst
  else if r.ret = 3 ∨ r.ret = 4 then emptyText "3"
  else t.sendBuf

/-- The text in `send_buf` and whether `error_flg` is still set; nothing where the
cache has no result. -/
def process (e : Env) (t : TaskNode) : Option (Option (List UInt8)) :=
  if t.typeFlg = 1 then some (processAction e t)
  else if t.typeFlg = 2 then some (processDocument e t)
  else if t.typeFlg = 3 then some (processSubscribe e t)
  else if t.typeFlg = 4 then (cacheGet e t).map fun r => some (queryText e t r)
  else if t.typeFlg = 5 then some (some (lit "\x7b\"type\":5,\"status\":\"ok\"\x7d"))
  else if t.typeFlg = 6 then some (some (processFeedback t))
  else some (some t.sendBuf)

/-- `sprintf(send_buf + 4, "\x7b\"type\":%d,\"code\":-1\x7d", ..)` -/
def errorText (typeFlg : ℤ) : List UInt8 :=
  lit "\x7b\"type\":" ++ decimalInt typeFlg ++ lit ",\"code\":-1\x7d"

def threadProcess (e : Env) (t : TaskNode) : Option (List UInt8) :=
  (process e t).map fun text =>
    match text with
    | some sendBuf => int4 sendBuf.length ++ sendBuf
    | none =>
      let sendBuf := int4 (errorText t.typeFlg).length ++ errorText t.typeFlg
      sendBuf.take (int4Val (sendBuf.take 4) + 4).toNat

def handedOut (e : Env) (t : TaskNode) : List DocId := ((cacheGet e t).map Cache.Reply.lst).getD []

/-- A length and that many bytes, which are the text of an object; for a query it has the
ids handed out, in order, and their number. -/
def Answers (e : Env) (t : TaskNode) (sent : List UInt8) : Prop :=
  ∃ text ms, sent = int4 text.length ++ text ∧ text.length < 2147483648 ∧ Document (.object ms) text ∧
    (t.typeFlg = 4 →
      (lit "docid", .array ((handedOut e t).map fun d => .number (decimal d.toNat))) ∈ ms ∧
      (lit "returnnum", .number (decimal (handedOut e t).length)) ∈ ms)

/-- The cache answers with a code that no branch of the query expects. -/
def Unexpected (e : Env) (t : TaskNode) : Prop :=
  ∃ r, cacheGet e t = some r ∧ (r.ret = 0 ∨ 4 < r.ret)

/-! ### Texts -/

def codeObject (typeFlg code : ℤ) : List (List UInt8 × Value) :=
  [(lit "type", .number (decimalInt typeFlg)), (lit "code", .number (decimalInt code))]

theorem codeText_eq (typeFlg code : ℤ) : codeText typeFlg code =
    123 :: (quoted (lit "type") ++ 58 :: (decimalInt typeFlg ++ 44 ::
      (quoted (lit "code") ++ 58 :: decimalInt code)) ++ [125]) := by
  have hopen : lit "\x7b\"type\":" = 123 :: (quoted (lit "type") ++ [58]) := by decide
  have hcode : lit ",\"code\":" = 44 :: (quoted (lit "code") ++ [58]) := by decide
  have hclose : lit "\x7d" = [125] := by decide
  rw [codeText, hopen, hcode, hclose]
  simp

theorem codeText_denotes (typeFlg code : ℤ) :
    Denotes (.object (codeObject typeFlg code)) (codeText typeFlg code) := by
  rw [codeText_eq]
  exact .object (.comma (isString_of_plain (by decide)) (.number (isNumber_decimalInt _))
    (.single (isString_of_plain (by decide)) (.number (isNumber_decimalInt _))))

theorem errorText_eq (typeFlg : ℤ) : errorText typeFlg = codeText typeFlg (-1) := by
  have hcode : lit ",\"code\":-1\x7d" = lit ",\"code\":" ++ decimalInt (-1) ++ lit "\x7d" := by decide
  rw [errorText, codeText, hcode]
  simp only [List.append_assoc]

theorem heartbeat_denotes : Denotes (.object [(lit "type", .number (decimalInt 5)),
    (lit "status", .string (lit "ok"))]) (lit "\x7b\"type\":5,\"status\":\"ok\"\x7d") := by
  have htext : lit "\x7b\"type\":5,\"status\":\"ok\"\x7d" = 123 :: (quoted (lit "type") ++ 58 ::
      (decimalInt 5 ++ 44 :: (quoted (lit "status") ++ 58 :: quoted (lit "ok"))) ++ [125]) := by decide
  rw [htext]
  exact .object (.comma (isString_of_plain (by decide)) (.number (isNumber_decimalInt _))
    (.single (isString_of_plain (by decide)) (.string (isString_of_plain (by decide)))))

theorem decimalInt_length_le {x : ℤ} (h : -2147483648 ≤ x ∧ x < 2147483648) :
    (decimalInt x).length ≤ 11 := by
  have hd : (decimal x.natAbs).length ≤ 10 := decimal_length_le (by omega) (by norm_num)
  unfold decimalInt
  split
  · rw [List.length_cons]
    omega
  · omega

theorem codeText_length_lt {typeFlg code : ℤ} (ht : -2147483648 ≤ typeFlg ∧ typeFlg < 2147483648)
    (hc : -2147483648 ≤ code ∧ code < 2147483648) : (codeText typeFlg code).length < 2147483648 := by
  have := decimalInt_length_le ht
  have := decimalInt_length_le hc
  have hopen : (lit "\x7b\"type\":").length = 8 := by decide
  have hcode : (lit ",\"code\":").length = 8 := by decide
  have hclose : (lit "\x7d").length = 1 := by decide
  simp only [codeText, List.length_append, hopen, hcode, hclose]
  omega

def IsCodeText (t : TaskNode) (text : List UInt8) : Prop :=
  ∃ code : I32, text = codeText t.typeFlg code.val

theorem processAction_code {e : Env} {t : TaskNode} {text : List UInt8}
    (h : processAction e t = some text) : IsCodeText t text := by
  simp only [processAction, Option.bind_eq_bind, Option.bind_eq_some_iff] at h
  obtain ⟨_, -, _, -, _, -, _, -, _, -, code, -, h⟩ := h
  exact ⟨code, (Option.some.inj h).symm⟩

theorem processDocument_code {e : Env} {t : TaskNode} {text : List UInt8}
    (h : processDocument e t = some text) : IsCodeText t text := by
  simp only [processDocument, Option.bind_eq_bind, Option.bind_eq_some_iff] at h
  obtain ⟨_, -, _, -, code, -, h⟩ := h
  exact ⟨code, (Option.some.inj h).symm⟩

theorem processSubscribe_code {e : Env} {t : TaskNode} {text : List UInt8}
    (h : processSubscribe e t = some text) : IsCodeText t text := by
  simp only [processSubscribe, Option.bind_eq_bind, Option.bind_eq_some_iff] at h
  obtain ⟨code, -, h⟩ := h
  exact ⟨code, (Option.some.inj h).symm⟩

/-- A request other than a query leaves a text of its type and a code, or the
heartbeat's. -/
theorem process_of_ne {e : Env} {t : TaskNode} {text : List UInt8} (h₁ : 1 ≤ t.typeFlg)
    (h₂ : t.typeFlg ≤ 6) (h₄ : t.typeFlg ≠ 4) (h : process e t = some (some text)) :
    IsCodeText t text ∨ text = lit "\x7b\"type\":5,\"status\":\"ok\"\x7d" := by
  unfold process at h
  rw [if_neg h₄] at h
  split_ifs at h
  · exact .inl (processAction_code (Option.some.inj h))
  · exact .inl (processDocument_code (Option.some.inj h))
  · exact .inl (processSubscribe_code (Option.some.inj h))
  · exact .inr (Option.some.inj (Option.some.inj h)).symm
  · exact .inl ⟨⟨0, by decide⟩, (Option.some.inj (Option.some.inj h)).symm⟩
  · omega

/-- The two ways of framing send the same bytes. -/
theorem threadProcess_eq {e : Env} {t : TaskNode} {sent : List UInt8} (h₁ : 1 ≤ t.typeFlg)
    (h₂ : t.typeFlg ≤ 6) (h : threadProcess e t = some sent) :
    ∃ text, process e t = some text ∧
      sent = int4 (text.getD (errorText t.typeFlg)).length ++ text.getD (errorText t.typeFlg) := by
  obtain ⟨text, htext, rfl⟩ := Option.map_eq_some_iff.mp h
  refine ⟨text, htext, ?_⟩
  cases text with
  | some text => rfl
  | none =>
    have hlen : (errorText t.typeFlg).length < 2147483648 := by
      rw [errorText_eq]
      exact codeText_length_lt (by omega) (by decide)
    rw [Option.getD_none]
    dsimp only
    generalize errorText t.typeFlg = text at hlen ⊢
    rw [take_int4_append, int4Val_int4 (by omega) (by omega)]
    exact List.take_of_length_le (by rw [List.length_append, int4_length]; omega)

theorem answers_of_ne {e : Env} {t : TaskNode} {sent : List UInt8} (h₁ : 1 ≤ t.typeFlg)
    (h₂ : t.typeFlg ≤ 6) (h₄ : t.typeFlg ≠ 4) (h : threadProcess e t = some sent) :
    Answers e t sent := by
  obtain ⟨text, htext, rfl⟩ := threadProcess_eq h₁ h₂ h
  have hcode : ∀ code : I32, Answers e t (int4 (codeText t.typeFlg code.val).length ++
      codeText t.typeFlg code.val) := fun code =>
    ⟨_, _, rfl, codeText_length_lt (by omega) code.property, (codeText_denotes _ _).document,
      fun hc => absurd hc h₄⟩
  cases text with
  | none =>
    rw [Option.getD_none, errorText_eq]
    exact hcode ⟨-1, by decide⟩
  | some text =>
    rcases process_of_ne h₁ h₂ h₄ htext with ⟨code, rfl⟩ | rfl
    · exact hcode code
    · exact ⟨_, _, rfl, by rw [Option.getD_some]; decide, heartbeat_denotes.document,
        fun hc => absurd hc h₄⟩

/-! ### Queries -/

/-- The texts of a query end with a digit. -/
theorem emptyText_last {userflag : String} {b : UInt8} (h : lit userflag = [b]) (hb : IsDigit b)
    (ms : List (List UInt8 × Value)) : ¬ Document (.object ms) (emptyText userflag) := by
  rw [emptyText, h]
  exact not_object_of_last hb ms

theorem listText_last (lst : List DocId) (ms : List (List UInt8 × Value)) :
    ¬ Document (.object ms) (listText lst) := by
  have hend : lit "],\"userflag\":1" = lit "],\"userflag\":" ++ [49] := by decide
  rw [listText, hend, ← List.append_assoc]
  exact not_object_of_last ⟨by decide, by decide⟩ ms

/-- A query is not answered unless its text is what an earlier task left. -/
theorem queryText_last {e : Env} {t : TaskNode} {r : Cache.Reply} (hr : ¬ (r.ret = 0 ∨ 4 < r.ret))
    (ms : List (List UInt8 × Value)) : ¬ Document (.object ms) (queryText e t r) := by
  have h₂ : ¬ Document (.object ms) (emptyText "2") := emptyText_last rfl ⟨by decide, by decide⟩ ms
  have h₃ : ¬ Document (.object ms) (emptyText "3") := emptyText_last rfl ⟨by decide, by decide⟩ ms
  unfold queryText
  split_ifs
  · exact h₂
  · exact h₃
  · exact listText_last _ _
  · exact h₃
  · omega

theorem query_not_answered {e : Env} {t : TaskNode} {r : Cache.Reply}
    (hr : ¬ (r.ret = 0 ∨ 4 < r.ret)) :
    ¬ Answers e t (int4 (queryText e t r).length ++ queryText e t r) := by
  rintro ⟨text, ms, heq, -, hdoc, -⟩
  obtain ⟨-, rfl⟩ := List.append_inj heq (by simp)
  exact queryText_last hr ms hdoc

/-- A request of type 1 to 6 gets one framed object exactly if it is not a query, or the
cache's code was never assigned and what an earlier task left in the buffer is one. -/
theorem answers_iff {e : Env} {t : TaskNode} {sent : List UInt8} (h₁ : 1 ≤ t.typeFlg)
    (h₂ : t.typeFlg ≤ 6) (h : threadProcess e t = some sent) :
    Answers e t sent ↔ t.typeFlg ≠ 4 ∨
      (Unexpected e t ∧ Answers e t (int4 t.sendBuf.length ++ t.sendBuf)) := by
  by_cases h₄ : t.typeFlg = 4
  · obtain ⟨text, htext, rfl⟩ := threadProcess_eq h₁ h₂ h
    rw [process, if_neg (by omega), if_neg (by omega), if_neg (by omega), if_pos h₄] at htext
    obtain ⟨r, hr, rfl⟩ := Option.map_eq_some_iff.mp htext
    rw [Option.getD_some]
    by_cases hret : r.ret = 0 ∨ 4 < r.ret
    · have hleft : queryText e t r = t.sendBuf := by
        rw [queryText, if_neg (by omega), if_neg (by omega), if_neg (by omega)]
      rw [hleft]
      exact ⟨fun ha => .inr ⟨⟨r, hr, hret⟩, ha⟩, fun ha => (ha.resolve_left (not_not.mpr h₄)).2⟩
    · refine ⟨fun ha => absurd ha (query_not_answered hret), ?_⟩
      rintro (hne | ⟨⟨r', hr', hret'⟩, -⟩)
      · exact absurd h₄ hne
      · cases hr.symm.trans hr'
        exact absurd hret' hret
  · exact ⟨fun _ => .inl h₄, fun _ => answers_of_ne h₁ h₂ h₄ h⟩

def idleEnv : Env := ⟨false, none, none, false, none, 1, ⟨4, 1, 3600⟩, ⟨1000, 0, fun _ => 0, 0⟩, fun _ => none⟩

def clickEnv : Env :=
  { idleEnv with getMem := true, history := some 4, update := some (i32 0), putMessage := true,
                 getMessage := some (i32 0) }

/-- A click that all machines have taken, one that nobody answers and a heartbeat. -/
theorem answers_iff_example :
    Answers clickEnv ⟨1, 7, 0, []⟩ (int4 19 ++ codeText 1 0) ∧
      Answers idleEnv ⟨1, 7, 0, []⟩ (int4 20 ++ codeText 1 (-1)) ∧
      Answers idleEnv ⟨5, 7, 0, []⟩ (int4 24 ++ lit "\x7b\"type\":5,\"status\":\"ok\"\x7d") := by
  have hclick : threadProcess clickEnv ⟨1, 7, 0, []⟩ = some (int4 19 ++ codeText 1 0) := rfl
  have hfailed : threadProcess idleEnv ⟨1, 7, 0, []⟩ = some (int4 20 ++ codeText 1 (-1)) := rfl
  exact ⟨(answers_iff (by decide) (by decide) hclick).mpr (.inl (by decide)),
    (answers_iff (by decide) (by decide) hfailed).mpr (.inl (by decide)),
    (answers_iff (by decide) (by decide) rfl).mpr (.inl (by decide))⟩

/-- A new user's query is sent a text without an end. -/
theorem newUser_not_answered :
    ∃ sent, threadProcess idleEnv ⟨4, 7, 5, []⟩ = some sent ∧ ¬ Answers idleEnv ⟨4, 7, 5, []⟩ sent :=
  ⟨_, rfl, query_not_answered (r := ⟨-1, []⟩) (by decide)⟩

/-! ### The missing brace -/

theorem docidLoop_succ (i : ℕ) (lst : List DocId) (d : DocId) :
    decimal d.toNat ++ docidLoop (i + 1) lst = commas ((d :: lst).map fun d => decimal d.toNat) := by
  induction lst generalizing i d with
  | nil => simp [docidLoop, commas]
  | cons x xs ih =>
    have hcomma : lit "," = [44] := by decide
    rw [docidLoop, if_neg (Nat.succ_ne_zero i), hcomma, List.append_assoc, ih (i + 1) x]
    simp [commas]

theorem docidLoop_eq (lst : List DocId) :
    docidLoop 0 lst = commas (lst.map fun d => decimal d.toNat) := by
  cases lst with
  | nil => rfl
  | cons d ds =>
    rw [docidLoop, if_pos rfl]
    exact docidLoop_succ 0 ds d

def queryObject (lst : List DocId) (userflag : List UInt8) : List (List UInt8 × Value) :=
  [(lit "task", .number (decimal 4)), (lit "returnnum", .number (decimal lst.length)),
    (lit "docid", .array (lst.map fun d => .number (decimal d.toNat))),
    (lit "userflag", .number userflag)]

theorem queryObject_denotes (lst : List DocId) {userflag : List UInt8} (h : IsNumber userflag) :
    Denotes (.object (queryObject lst userflag)) (lit "\x7b\"task\":4,\"returnnum\":" ++
      decimalInt lst.length ++ lit ",\"docid\":[" ++ docidLoop 0 lst ++ lit "],\"userflag\":" ++
      userflag ++ [125]) := by
  have hopen : lit "\x7b\"task\":4,\"returnnum\":" = 123 :: (quoted (lit "task") ++ 58 ::
      (decimal 4 ++ 44 :: (quoted (lit "returnnum") ++ [58]))) := by decide
  have hdocid : lit ",\"docid\":[" = 44 :: (quoted (lit "docid") ++ [58, 91]) := by decide
  have hflag : lit "],\"userflag\":" = 93 :: 44 :: (quoted (lit "userflag") ++ [58]) := by decide
  have hnum : decimalInt lst.length = decimal lst.length := by
    rw [decimalInt, if_neg (by omega), Int.natAbs_natCast]
  have hids : Denotes (.array ((lst.map fun d => decimal d.toNat).map .number))
      (91 :: (commas (lst.map fun d => decimal d.toNat) ++ [93])) :=
    denotes_numbers (by simp [isNumber_decimal])
  rw [List.map_map] at hids
  have hobj : Denotes (.object (queryObject lst userflag)) _ :=
    .object (.comma (isString_of_plain (by decide)) (.number (isNumber_decimal 4))
      (.comma (isString_of_plain (by decide)) (.number (isNumber_decimal _))
        (.comma (isString_of_plain (by decide)) hids
          (.single (isString_of_plain (by decide)) (.number h)))))
  rw [hopen, hdocid, hflag, hnum, docidLoop_eq]
  simpa using hobj

theorem emptyText_eq (userflag : String) :
    emptyText userflag = lit "\x7b\"task\":4,\"returnnum\":" ++ decimalInt ([] : List DocId).length ++
      lit ",\"docid\":[" ++ docidLoop 0 [] ++ lit "],\"userflag\":" ++ lit userflag := by
  have hopen : lit "\x7b\"task\":4,\"returnnum\":0,\"docid\":[],\"userflag\":" =
      lit "\x7b\"task\":4,\"returnnum\":" ++ decimalInt ([] : List DocId).length ++
        lit ",\"docid\":[" ++ docidLoop 0 [] ++ lit "],\"userflag\":" := by decide
  rw [emptyText, hopen]

/-- With a closing brace, the text of a query would be the object of the ids handed out,
unless the cache's code hides them. -/
theorem queryText_closed {e : Env} {t : TaskNode} {r : Cache.Reply}
    (hr : ¬ (r.ret = 0 ∨ 4 < r.ret)) (hlst : r.ret = 1 ∨ r.ret = 2 ∨ r.lst = []) :
    ∃ userflag, Denotes (.object (queryObject r.lst userflag)) (queryText e t r ++ [125]) := by
  have hlist : Denotes (.object (queryObject r.lst (lit "1"))) (listText r.lst ++ [125]) := by
    have hend : lit "],\"userflag\":1" = lit "],\"userflag\":" ++ lit "1" := by decide
    have hone : IsNumber (lit "1") := isNumber_decimal 1
    have hobj := queryObject_denotes r.lst hone
    rw [listText, hend]
    simpa only [List.append_assoc] using hobj
  have hempty : ∀ s n, lit s = decimal n → r.lst = [] →
      Denotes (.object (queryObject r.lst (lit s))) (emptyText s ++ [125]) := by
    intro s n hs hnil
    rw [hnil, emptyText_eq]
    exact queryObject_denotes [] (hs ▸ isNumber_decimal n)
  have hnil : ¬ (r.ret = 1 ∨ r.ret = 2) → r.lst = [] := by tauto
  unfold queryText
  split_ifs
  · exact ⟨_, hempty "2" 2 rfl (hnil (by omega))⟩
  · exact ⟨_, hempty "3" 3 rfl (hnil (by omega))⟩
  · exact ⟨_, hlist⟩
  · exact ⟨_, hempty "3" 3 rfl (hnil (by omega))⟩
  · omega

end PrimaryElection.Framework.ThreadProcess
