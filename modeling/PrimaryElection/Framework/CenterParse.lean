import PrimaryElection.Framework.Json
import PrimaryElection.Lib.Bytes
import PrimaryElection.Lib.Encoder

/-! The JSON front end of the center: `parse_array`, `parse_arrayObject`, the
parsers of the six request types and `parse_json`. Each walks the members in a
fixed order, counts the bytes of a field, checks the count against the capacity
and writes the field. The encoded length of a request is below 2^31, so the counts
do not wrap. -/

namespace PrimaryElection.Framework

open CInt Bytes Encoder

/-- What a parser takes from outside the request: the clock in seconds and the
bits of a double converted to a float. -/
structure Host (D : Type) where
  now : ℤ
  float4 : D → UInt32

section

variable {D : Type}

/-- Look up a member and check that it is there. -/
def member (json : Json D) (name : String) (missing : ℤ) : Enc (Json D) :=
  require (json.getObjectItem name) missing

def sizeIs (json : Json D) (n : ℕ) (wrong : ℤ) : Enc Unit :=
  if json.getArraySize ≠ n then fail wrong else pure ()

/-! ### Fields of fixed size -/

/-- A 4-byte field with the number of a member. -/
def intField (json : Json D) (name : String) (missing full : ℤ) : Enc Unit := do
  let node ← member json name missing
  room 4 full
  put (int4 node.valueint)

/-- An 8-byte field with the number that the string of a member spells. -/
def idField (json : Json D) (name : String) (missing full : ℤ) : Enc Unit := do
  let node ← member json name missing
  room 8 full
  let s ← use node.valuestring
  put (word8 (strtoul s.bytes))

/-! ### Lists -/

def parseArrayItem (node : Json D) : Enc Unit := do
  let s ← use node.valuestring
  room 4 (-2)
  put (int4 s.bytes.length)
  room s.bytes.length (-2)
  put s.bytes

/-- num(4) {size(4) string(size)} -/
def parseArray (json : Json D) : Enc Unit := do
  room 4 (-2)
  put (int4 json.getArraySize)
  forEach json.items parseArrayItem

def parseArrayObjectItem (object : Json D) : Enc Unit := do
  let node ← member object "word" (-1)
  let s ← use node.valuestring
  room 4 (-2)
  put (int4 s.bytes.length)
  room s.bytes.length (-2)
  put s.bytes
  let node ← member object "count" (-1)
  room 4 (-2)
  put (int4 node.valueint)

/-- num(4) {size(4) string(size) count(4)} -/
def parseArrayObject (json : Json D) : Enc Unit := do
  room 4 (-2)
  put (int4 json.getArraySize)
  forEach json.items parseArrayObjectItem

/-- The codes of a list function as its callers return them. -/
def listCode (bad full c : ℤ) : ℤ := if c = -1 then bad else if c = -2 then full else c

def arrayField (json : Json D) (name : String) (missing bad full : ℤ) : Enc Unit := do
  let array ← member json name missing
  recode (listCode bad full) (parseArray array)

def arrayObjectField (json : Json D) (name : String) (missing bad full : ℤ) : Enc Unit := do
  let array ← member json name missing
  recode (listCode bad full) (parseArrayObject array)

/-! ### Requests -/

/-- The location's length is counted after the room of its size field. -/
def locationField (json : Json D) : Enc Unit := do
  let node ← member json "location" (-108)
  room 4 (-100)
  let s ← use node.valuestring
  put (int4 s.bytes.length)
  room s.bytes.length (-100)
  put s.bytes

def parseAction (json : Json D) : Enc Unit := do
  sizeIs json 7 (-101)
  intField json "type" (-102) (-100)
  intField json "clicktime" (-103) (-100)
  idField json "userid" (-104) (-100)
  idField json "docid" (-105) (-100)
  intField json "staytime" (-106) (-100)
  intField json "action" (-107) (-100)
  locationField json

/-- The push time is the clock's, whatever the member holds. -/
def pushtimeField (h : Host D) (json : Json D) : Enc Unit := do
  let _ ← member json "pushtime" (-213)
  room 4 (-200)
  put (int4 h.now)

def powerField [Zero D] (h : Host D) (json : Json D) : Enc Unit := do
  let node ← member json "power" (-214)
  room 4 (-200)
  put (leBytes 4 (h.float4 node.valuedouble).toNat)

def parseDocument [Zero D] (h : Host D) (json : Json D) : Enc Unit := do
  sizeIs json 12 (-201)
  intField json "type" (-202) (-200)
  idField json "docid" (-203) (-200)
  intField json "publictime" (-212) (-200)
  pushtimeField h json
  powerField h json
  arrayField json "category" (-208) (-209) (-200)
  arrayObjectField json "word" (-210) (-211) (-200)
  arrayField json "srp" (-204) (-205) (-200)
  arrayField json "circle" (-206) (-207) (-200)
  intField json "topflag" (-215) (-200)
  arrayField json "topsrp" (-216) (-217) (-200)
  arrayField json "topcircle" (-218) (-219) (-200)

def parseSubscribe (json : Json D) : Enc Unit := do
  sizeIs json 4 (-301)
  intField json "type" (-302) (-300)
  idField json "userid" (-303) (-300)
  arrayField json "circle" (-304) (-305) (-300)
  arrayField json "srp" (-306) (-307) (-300)

def parseRecommend (json : Json D) : Enc Unit := do
  sizeIs json 4 (-401)
  intField json "type" (-402) (-400)
  intField json "log" (-403) (-400)
  idField json "userid" (-404) (-400)
  intField json "requestnum" (-405) (-400)

/-- heartbeat size(4) buffer(size) -/
def heartbeatField (json : Json D) : Enc Unit := do
  let node ← member json "heartbeat" (-503)
  let s ← use node.valuestring
  room 4 (-500)
  put (int4 s.bytes.length)
  room s.bytes.length (-500)
  put s.bytes

def parseHeartbeat (json : Json D) : Enc Unit := do
  sizeIs json 2 (-501)
  intField json "type" (-502) (-500)
  heartbeatField json

def returnItem (node : Json D) : Enc Unit := do
  room 8 (-600)
  let s ← use node.valuestring
  put (word8 (strtoul s.bytes))

/-- returnlist num(4) docid(8) -/
def returnlistField (json : Json D) : Enc Unit := do
  let array ← member json "returnlist" (-605)
  room 4 (-600)
  put (int4 array.getArraySize)
  forEach array.items returnItem

def parseFeedback (json : Json D) : Enc Unit := do
  sizeIs json 4 (-601)
  intField json "type" (-602) (-600)
  idField json "userid" (-603) (-600)
  intField json "returnnum" (-604) (-600)
  returnlistField json

/-- `parse_json` on the value that `cJSON_Parse` returned. -/
def parseJson [Zero D] (h : Host D) (json : Json D) : Enc Unit := do
  let node ← member json "type" (-1)
  match node.valueint.val with
  | 1 => parseAction json
  | 2 => parseDocument h json
  | 3 => parseSubscribe json
  | 4 => parseRecommend json
  | 5 => parseHeartbeat json
  | 6 => parseFeedback json
  | _ => fail (-888)

end

/-! ### What the pieces write -/

variable {D : Type}

def idOf (node : Json D) : Option UInt64 := node.valuestring.map fun s => strtoul s.bytes

theorem intField_ok_iff {json : Json D} {name : String} {missing full size len l : ℤ}
    {bs : List UInt8} {u : Unit} :
    intField json name missing full size len = ⟨bs, l, .ok u⟩ ↔
      ∃ node, json.getObjectItem name = some node ∧ bs = int4 node.valueint ∧ l = len + 4 ∧
        len + 4 ≤ size := by
  simp only [intField, member, bind_ok_iff, require_ok_iff, room_ok_iff, put_ok_iff]
  constructor
  · rintro ⟨_, _, node, _, ⟨rfl, rfl, hn⟩, ⟨_, _, _, _, ⟨rfl, rfl, hs⟩, ⟨rfl, rfl⟩, rfl⟩, rfl⟩
    exact ⟨node, hn, rfl, rfl, hs⟩
  · rintro ⟨node, hn, rfl, rfl, hs⟩
    exact ⟨_, _, node, _, ⟨rfl, rfl, hn⟩, ⟨_, _, (), _, ⟨rfl, rfl, hs⟩, ⟨rfl, rfl⟩, rfl⟩, rfl⟩

theorem idField_ok_iff {json : Json D} {name : String} {missing full size len l : ℤ}
    {bs : List UInt8} {u : Unit} :
    idField json name missing full size len = ⟨bs, l, .ok u⟩ ↔
      ∃ node v, json.getObjectItem name = some node ∧ idOf node = some v ∧ bs = word8 v ∧
        l = len + 8 ∧ len + 8 ≤ size := by
  simp only [idField, member, idOf, bind_ok_iff, require_ok_iff, room_ok_iff, use_ok_iff,
    put_ok_iff, Option.map_eq_some_iff]
  constructor
  · rintro ⟨_, _, node, _, ⟨rfl, rfl, hn⟩, ⟨_, _, _, _, ⟨rfl, rfl, hs⟩, ⟨_, _, s, _, ⟨rfl, rfl, hv⟩,
      ⟨rfl, rfl⟩, rfl⟩, rfl⟩, rfl⟩
    exact ⟨node, _, hn, ⟨s, hv, rfl⟩, rfl, rfl, hs⟩
  · rintro ⟨node, _, hn, ⟨s, hv, rfl⟩, rfl, rfl, hs⟩
    exact ⟨_, _, node, _, ⟨rfl, rfl, hn⟩, ⟨_, _, (), _, ⟨rfl, rfl, hs⟩, ⟨_, _, s, _, ⟨rfl, rfl, hv⟩,
      ⟨rfl, rfl⟩, rfl⟩, rfl⟩, rfl⟩

theorem sizeIs_ok_iff {json : Json D} {n : ℕ} {wrong size len l : ℤ} {bs : List UInt8} {u : Unit} :
    sizeIs json n wrong size len = ⟨bs, l, .ok u⟩ ↔
      json.getArraySize = n ∧ bs = [] ∧ l = len := by
  unfold sizeIs
  split_ifs with h
  · simp [fail_not_ok, h]
  · simp only [pure_ok_iff, and_true]
    exact (and_iff_right (not_not.mp h)).symm

/-- What a type-6 request says: the user, the count it states and its ids. -/
structure Pushed where
  uid : UInt64
  returnnum : I32
  ids : List UInt64
  deriving DecidableEq

def Json.pushed (json : Json D) : Option Pushed := do
  let user ← json.getObjectItem "userid"
  let uid ← idOf user
  let num ← json.getObjectItem "returnnum"
  let array ← json.getObjectItem "returnlist"
  let ids ← array.items.mapM idOf
  some ⟨uid, num.valueint, ids⟩

theorem returnItem_ok {node : Json D} {size len l : ℤ} {bs : List UInt8} {u : Unit}
    (h : returnItem node size len = ⟨bs, l, .ok u⟩) : ∃ v, idOf node = some v ∧ bs = word8 v := by
  simp only [returnItem, bind_ok_iff, room_ok_iff, use_ok_iff, put_ok_iff] at h
  obtain ⟨_, _, _, _, ⟨rfl, rfl, -⟩, ⟨_, _, s, _, ⟨rfl, rfl, hv⟩, ⟨rfl, -⟩, rfl⟩, rfl⟩ := h
  exact ⟨strtoul s.bytes, by simp [idOf, hv], rfl⟩

theorem returnlistField_ok {json : Json D} {size len l : ℤ} {bs : List UInt8} {u : Unit}
    (h : returnlistField json size len = ⟨bs, l, .ok u⟩) :
    ∃ array ids, json.getObjectItem "returnlist" = some array ∧ array.items.mapM idOf = some ids ∧
      bs = int4 ids.length ++ words8 ids := by
  simp only [returnlistField, member, bind_ok_iff, require_ok_iff, room_ok_iff, put_ok_iff] at h
  obtain ⟨_, _, array, _, ⟨rfl, rfl, ha⟩, ⟨_, _, _, _, ⟨rfl, rfl, -⟩, ⟨_, _, _, _, ⟨rfl, rfl⟩, hl,
    rfl⟩, rfl⟩, rfl⟩ := h
  obtain ⟨ids, hids, hlen, rfl⟩ := forEach_ok (fun _ _ _ _ _ _ h => returnItem_ok h) hl
  exact ⟨array, ids, ha, hids, by simp [words8, Json.getArraySize, hlen]⟩

theorem parseFeedback_ok {json : Json D} {size len : ℤ} {bs : List UInt8} {u : Unit}
    (h : parseFeedback json size 0 = ⟨bs, len, .ok u⟩) :
    ∃ type r, json.getObjectItem "type" = some type ∧ json.pushed = some r ∧
      bs = int4 type.valueint ++ word8 r.uid ++ int4 r.returnnum ++ int4 r.ids.length ++
        words8 r.ids := by
  simp only [parseFeedback, bind_ok_iff, sizeIs_ok_iff, intField_ok_iff, idField_ok_iff] at h
  obtain ⟨_, _, _, _, ⟨-, rfl, rfl⟩, ⟨_, _, _, _, ⟨type, ht, rfl, rfl, -⟩, ⟨_, _, _, _, ⟨user, uid, hu,
    hid, rfl, rfl, -⟩, ⟨_, _, _, _, ⟨num, hn, rfl, rfl, -⟩, hl, rfl⟩, rfl⟩, rfl⟩, rfl⟩ := h
  obtain ⟨array, ids, ha, hids, rfl⟩ := returnlistField_ok hl
  refine ⟨type, ⟨uid, num.valueint, ids⟩, ht, ?_, by simp⟩
  simp [Json.pushed, hu, hid, hn, ha, hids]

theorem parseJson_feedback [Zero D] (h : Host D) {json type : Json D} {size len l : ℤ}
    {bs : List UInt8} {u : Unit} (htype : json.getObjectItem "type" = some type)
    (hsix : type.valueint.val = 6) (hacc : parseJson h json size len = ⟨bs, l, .ok u⟩) :
    parseFeedback json size len = ⟨bs, l, .ok u⟩ := by
  simp only [parseJson, member, bind_ok_iff, require_ok_iff] at hacc
  obtain ⟨_, _, node, _, ⟨rfl, rfl, hnode⟩, hp, rfl⟩ := hacc
  obtain rfl := Option.some.inj (htype.symm.trans hnode)
  rw [hsix] at hp
  exact hp

end PrimaryElection.Framework
