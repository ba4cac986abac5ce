import PrimaryElection.Framework.CenterParse

/-! The JSON front end of the modules, for the messages of the stream: the parsers
of the six message types and `parse_json`. The messages that they fill are records
under the names of the setters; a number is the value given to its setter. A
message whose parser returned a code is cleared by `thread_kafka`, so an outcome
holds a message only where the code is zero. An index below the size of an array
always has an item, so a loop over the indices is one over the items. -/

namespace PrimaryElection.Framework.JParse

open CInt
open Encoder (Outcome)
open Encoder.Outcome (require use)

structure Action where
  clickTime : I32
  userId : UInt64
  itemId : UInt64
  stayTime : I32
  action : I32
  location : CStr
  srpId : CStr
  clickSource : I32
  dislike : CStr
  zone : CStr

structure ItemTag (D : Type) where
  tagName : CStr
  tagId : ℤ
  tagPower : D

structure ItemWord where
  word : CStr
  count : I32

structure TopInfo where
  topType : I32
  topSrpId : List CStr
  topCircleId : List CStr

structure ItemSource where
  sourceName : CStr
  sourceId : UInt64

structure Item (D : Type) where
  itemId : UInt64
  publishTime : I32
  pushTime : ℤ
  pictureNum : I32
  expiredTime : I32
  power : D
  itemType : I32
  category : List (ItemTag D)
  word : List ItemWord
  srp : List (ItemTag D)
  circle : List (ItemTag D)
  topInfo : TopInfo
  zone : List CStr
  dataSource : ItemSource
  tag : List (ItemTag D)

structure Subscribe where
  userId : UInt64
  srpId : List CStr
  circleId : List CStr

structure Recommend where
  log : I32
  userId : UInt64
  requestNum : I32
  recommendType : I32
  begTime : I32
  endTime : I32
  zone : CStr
  network : I32

structure HeartBeat where
  heartbeat : CStr

structure Feedback where
  userId : UInt64
  itemId : List UInt64

/-- The message packed into a transfer request. -/
inductive Protocol (D : Type) where
  | action (m : Action)
  | item (m : Item D)
  | subscribe (m : Subscribe)
  | recommend (m : Recommend)
  | heartbeat (m : HeartBeat)
  | feedback (m : Feedback)

structure TransferRequest (D : Type) where
  mainProtocol : I32
  protocol : Protocol D

variable {D : Type}

/-! ### Members -/

/-- The string of a node, whatever its type. -/
def text (node : Json D) : Outcome CStr := use node.valuestring

def idText (node : Json D) : Outcome UInt64 := do
  let s ← text node
  pure (strtoul s.bytes)

def intOr (json : Json D) (name : String) (absent : I32) : I32 :=
  (json.getObjectItem name).elim absent Json.valueint

/-- A member that must be there, used as a string. -/
def idMember (json : Json D) (name : String) (missing : ℤ) : Outcome UInt64 := do
  let node ← require (json.getObjectItem name) missing
  idText node

def textOr (json : Json D) (name : String) : Outcome CStr :=
  match json.getObjectItem name with
  | none => pure (CStr.ofLit "")
  | some node => text node

def idOr (json : Json D) (name : String) : Outcome UInt64 :=
  match json.getObjectItem name with
  | none => pure 0
  | some node => idText node

def texts (json : Json D) (name : String) : Outcome (List CStr) :=
  match json.getObjectItem name with
  | none => pure []
  | some array => array.items.mapM text

def idTexts (json : Json D) (name : String) : Outcome (List UInt64) :=
  match json.getObjectItem name with
  | none => pure []
  | some array => array.items.mapM idText

def tagNames [Zero D] (json : Json D) (name : String) : Outcome (List (ItemTag D)) := do
  let names ← texts json name
  pure (names.map fun s => ⟨s, 0, 0⟩)

/-- Set a value of each tag from an array of as many items. -/
def setTags (json : Json D) (name : String) (tags : List (ItemTag D)) (wrong : ℤ)
    (set : ItemTag D → Json D → Outcome (ItemTag D)) : Outcome (List (ItemTag D)) :=
  match json.getObjectItem name with
  | none => pure tags
  | some array =>
    if array.getArraySize ≠ tags.length then .code wrong
    else (tags.zip array.items).mapM fun p => set p.1 p.2

def setTagInt (tag : ItemTag D) (node : Json D) : Outcome (ItemTag D) :=
  pure { tag with tagId := node.valueint.val }

def setTagPower [Zero D] (tag : ItemTag D) (node : Json D) : Outcome (ItemTag D) :=
  pure { tag with tagPower := node.valuedouble }

def setTagId (tag : ItemTag D) (node : Json D) : Outcome (ItemTag D) := do
  let v ← idText node
  pure { tag with tagId := v.toNat }

/-- The node variable after a loop over an array. -/
def nodeAfter (array node : Option (Json D)) : Option (Json D) :=
  ((array.elim [] Json.items).getLast?).or node

/-- One element of the word list. The count is taken from its node, and the check
before it is of the node of an earlier loop. -/
def word (node : Option (Json D)) (object : Json D) : Outcome ItemWord := do
  let nodeOne ← require (object.getObjectItem "word") (-205)
  let _ ← require node (-206)
  let s ← text nodeOne
  let nodeTwo ← use (object.getObjectItem "count")
  pure ⟨s, nodeTwo.valueint⟩

def words (node : Option (Json D)) (json : Json D) : Outcome (List ItemWord) :=
  match json.getObjectItem "word" with
  | none => pure []
  | some array => array.items.mapM (word node)

/-! ### Messages -/

def parseAction (json : Json D) : Outcome Action := do
  let clicktime ← require (json.getObjectItem "clicktime") (-101)
  let userId ← idMember json "userid" (-102)
  let itemId ← idMember json "docid" (-103)
  let stayTime := intOr json "staytime" (i32 0)
  let action ← require (json.getObjectItem "action") (-104)
  let location ← textOr json "location"
  let srpId ← textOr json "srpid"
  let clickSource := intOr json "source" (i32 0)
  let dislike ← textOr json "dislike"
  let zone ← textOr json "zone"
  pure { clickTime := clicktime.valueint, userId, itemId, stayTime, action := action.valueint,
         location, srpId, clickSource, dislike, zone }

/-- The lists of the top information are read if the flag is not zero. -/
def topInfo (json : Json D) : Outcome TopInfo := do
  let topType := intOr json "topflag" (i32 0)
  if topType.val = 0 then pure ⟨topType, [], []⟩
  else
    let topSrpId ← texts json "topsrp"
    let topCircleId ← texts json "topcircle"
    pure ⟨topType, topSrpId, topCircleId⟩

def dataSource (json : Json D) : Outcome ItemSource := do
  let sourceName ← textOr json "sourcename"
  let sourceId ← idOr json "sourceid"
  pure ⟨sourceName, sourceId⟩

def parseItem [Zero D] (h : Host D) (json : Json D) : Outcome (Item D) := do
  let itemId ← idMember json "docid" (-200)
  let category ← tagNames json "category"
  let category ← setTags json "categoryid" category (-202) setTagInt
  let category := if category.length = 0 then [⟨CStr.ofLit "", 13, 0⟩] else category
  let node := nodeAfter (json.getObjectItem "category") (json.getObjectItem "doctype")
  let node := nodeAfter (json.getObjectItem "categoryid") node
  let word ← words node json
  let srp ← tagNames json "srp"
  let srp ← setTags json "srppower" srp (-208) setTagPower
  let circle ← tagNames json "circle"
  let topInfo ← topInfo json
  let zone ← texts json "zone"
  let dataSource ← dataSource json
  let tag ← tagNames json "tag"
  let tag ← setTags json "tagid" tag (-208) setTagId
  let tag ← setTags json "tagpower" tag (-208) setTagPower
  pure
    { itemId
      publishTime := intOr json "publictime" (i32 0)
      pushTime := toInt32 h.now
      pictureNum := intOr json "picturenumber" (i32 0)
      expiredTime := intOr json "expiredtime" (i32 0)
      power := (json.getObjectItem "power").elim 0 Json.valuedouble
      itemType := intOr json "doctype" (i32 0)
      category, word, srp, circle, topInfo, zone, dataSource, tag }

def parseSubscribe (json : Json D) : Outcome Subscribe := do
  let userId ← idMember json "userid" (-300)
  let srpId ← texts json "srp"
  let circleId ← texts json "circle"
  pure { userId, srpId, circleId }

def parseRecommend (json : Json D) : Outcome Recommend := do
  let userId ← idMember json "userid" (-400)
  let zone ← textOr json "zone"
  pure
    { log := intOr json "log" (i32 0)
      userId
      requestNum := intOr json "requestnum" (i32 10)
      recommendType := intOr json "requesttype" (i32 0)
      begTime := intOr json "begtime" (i32 0)
      endTime := intOr json "endtime" (i32 0)
      zone
      network := intOr json "network" (i32 0) }

def parseHeartbeat (json : Json D) : Outcome HeartBeat := do
  let node ← require (json.getObjectItem "heartbeat") (-500)
  let s ← text node
  pure ⟨s⟩

def parseFeedback (json : Json D) : Outcome Feedback := do
  let userId ← idMember json "userid" (-600)
  let itemId ← idTexts json "returnlist"
  pure { userId, itemId }

def parseProtocol [Zero D] (h : Host D) (json : Json D) (protocolType : ℤ) :
    Outcome (Protocol D) :=
  match protocolType with
  | 1 => Protocol.action <$> parseAction json
  | 2 => Protocol.item <$> parseItem h json
  | 3 => Protocol.subscribe <$> parseSubscribe json
  | 4 => Protocol.recommend <$> parseRecommend json
  | 5 => Protocol.heartbeat <$> parseHeartbeat json
  | 6 => Protocol.feedback <$> parseFeedback json
  | _ => .code (-888)

/-- `parse_json` on the value that `cJSON_Parse` returned. -/
def parseJson [Zero D] (h : Host D) (json : Json D) : Outcome (TransferRequest D) := do
  let node ← require (json.getObjectItem "type") (-1)
  let protocol ← parseProtocol h json node.valueint.val
  pure ⟨node.valueint, protocol⟩

end PrimaryElection.Framework.JParse
