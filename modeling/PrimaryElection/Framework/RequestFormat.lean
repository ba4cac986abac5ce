import PrimaryElection.Framework.CenterTotal
import PrimaryElection.Lib.Codec
import PrimaryElection.Lib.Fitting

/-! The binary formats of the six request types, as the comments of their encoders give
them, and what each field takes from the JSON request. -/

namespace PrimaryElection.Framework

open CInt Bytes Encoder

variable {D : Type}

/-- The fields of the formats: numbers, ids, the push time, the power, strings, lists of
strings, of words with a count and of ids. -/
inductive FieldKind where
  | int
  | id
  | clock
  | float
  | text
  | texts
  | words
  | ids
  deriving DecidableEq

namespace FieldKind

def Datum : FieldKind → Type
  | int => I32
  | id => UInt64
  | clock => I32
  | float => UInt32
  | text => List UInt8
  | texts => List (List UInt8)
  | words => List (List UInt8 × I32)
  | ids => List UInt64

theorem sized_pos (s : List UInt8) : 0 < (Codec.sized.encode s).length := by
  simp [Codec.sized]

theorem word_pos (w : List UInt8 × I32) : 0 < ((Codec.sized.pair Codec.int).encode w).length := by
  simp [Codec.sized, Codec.pair]

theorem id_pos (v : UInt64) : 0 < (Codec.id8.encode v).length := by
  simp [Codec.id8, Codec.word]

/-- num(4) {size(4) string(size)} and the others. -/
def codec : (k : FieldKind) → Codec k.Datum
  | int => Codec.int
  | id => Codec.id8
  | clock => Codec.int
  | float => Codec.bits4
  | text => Codec.sized
  | texts => Codec.sized.counted sized_pos
  | words => (Codec.sized.pair Codec.int).counted word_pos
  | ids => Codec.id8.counted id_pos

end FieldKind

def textOf (node : Json D) : Option (List UInt8) := node.valuestring.map CStr.bytes

def wordOf (object : Json D) : Option (List UInt8 × I32) := do
  let word ← object.getObjectItem "word"
  let s ← textOf word
  let count ← object.getObjectItem "count"
  some (s, count.valueint)

def FieldKind.read (h : Host D) [Zero D] : (k : FieldKind) → Json D → Option k.Datum
  | int, v => some v.valueint
  | id, v => idOf v
  | clock, _ => some (i32 h.now)
  | float, v => some (h.float4 v.valuedouble)
  | text, v => textOf v
  | texts, v => v.items.mapM textOf
  | words, v => v.items.mapM wordOf
  | ids, v => v.items.mapM idOf

/-- A member of a request and the field it becomes. -/
structure Field where
  name : String
  kind : FieldKind

def Values : List Field → Type
  | [] => Unit
  | f :: fs => f.kind.Datum × Values fs

def codecOf : (fs : List Field) → Codec (Values fs)
  | [] => Codec.unit
  | f :: fs => f.kind.codec.pair (codecOf fs)

def fieldValue (h : Host D) [Zero D] (json : Json D) (f : Field) : Option f.kind.Datum :=
  (json.getObjectItem f.name).bind (f.kind.read h)

/-- The values that a request gives the fields, where all are there. -/
def fieldValues (h : Host D) [Zero D] (json : Json D) : (fs : List Field) → Option (Values fs)
  | [] => some ()
  | f :: fs => do
    let v ← fieldValue h json f
    let vs ← fieldValues h json fs
    some (v, vs)

inductive RequestType where
  | action
  | document
  | subscribe
  | recommend
  | heartbeat
  | feedback
  deriving DecidableEq

namespace RequestType

/-- The value of the member "type". -/
def code : RequestType → ℤ
  | action => 1
  | document => 2
  | subscribe => 3
  | recommend => 4
  | heartbeat => 5
  | feedback => 6

/-- The count of members that the encoder asks for. -/
def members : RequestType → ℕ
  | action => 7
  | document => 12
  | subscribe => 4
  | recommend => 4
  | heartbeat => 2
  | feedback => 4

/-- The fields in the order of the encoder. -/
def layout : RequestType → List Field
  | action => [⟨"type", .int⟩, ⟨"clicktime", .int⟩, ⟨"userid", .id⟩, ⟨"docid", .id⟩,
      ⟨"staytime", .int⟩, ⟨"action", .int⟩, ⟨"location", .text⟩]
  | document => [⟨"type", .int⟩, ⟨"docid", .id⟩, ⟨"publictime", .int⟩, ⟨"pushtime", .clock⟩,
      ⟨"power", .float⟩, ⟨"category", .texts⟩, ⟨"word", .words⟩, ⟨"srp", .texts⟩, ⟨"circle", .texts⟩,
      ⟨"topflag", .int⟩, ⟨"topsrp", .texts⟩, ⟨"topcircle", .texts⟩]
  | subscribe => [⟨"type", .int⟩, ⟨"userid", .id⟩, ⟨"circle", .texts⟩, ⟨"srp", .texts⟩]
  | recommend => [⟨"type", .int⟩, ⟨"log", .int⟩, ⟨"userid", .id⟩, ⟨"requestnum", .int⟩]
  | heartbeat => [⟨"type", .int⟩, ⟨"heartbeat", .text⟩]
  | feedback => [⟨"type", .int⟩, ⟨"userid", .id⟩, ⟨"returnnum", .int⟩, ⟨"returnlist", .ids⟩]

def parser [Zero D] (h : Host D) (json : Json D) : RequestType → Enc Unit
  | action => parseAction json
  | document => parseDocument h json
  | subscribe => parseSubscribe json
  | recommend => parseRecommend json
  | heartbeat => parseHeartbeat json
  | feedback => parseFeedback json

end RequestType

end PrimaryElection.Framework
