import PrimaryElection.Framework.CenterEncode

/-! The binary formats of the requests are uniquely decodable: one reader for each type
takes back the values of every request that its encoder accepts. -/

namespace PrimaryElection.Framework

open CInt Bytes Encoder

variable {D : Type} [Zero D]

structure Encodes (t : RequestType) (h : Host D) (json : Json D) (size : I32) : Prop where
  typed : WellTyped json t.layout
  capacity : 0 ≤ size.val
  accepted : (t.parser h json size.val 0).out = .ok ()

/-- The first `binary_size` bytes of the buffer after the encoder. -/
def written (t : RequestType) (h : Host D) (json : Json D) (size : I32) : List UInt8 :=
  (t.parser h json size.val 0).bytes.take (binarySize size.val (t.parser h json size.val 0)).toNat

/-- `parse_json` leaves a request to the encoder of its type. -/
theorem parseJson_eq {h : Host D} {json type : Json D} (t : RequestType)
    (htype : json.getObjectItem "type" = some type) (hcode : type.valueint.val = t.code) (size : ℤ) :
    parseJson h json size 0 = t.parser h json size 0 := by
  have hmember : member json "type" (-1) = (pure type : Enc (Json D)) := by
    rw [member, htype]
    rfl
  rw [parseJson, hmember, pure_bind, hcode]
  cases t <;> rfl

theorem Encodes.written_eq {t : RequestType} {h : Host D} {json : Json D} {size : I32}
    (ha : Encodes t h json size) : ∃ vs, fieldValues h json t.layout = some vs ∧
      written t h json size = (codecOf t.layout).encode vs ∧
      ((codecOf t.layout).encode vs).length < 2147483648 := by
  obtain ⟨-, vs, hvs, hlen, hrun⟩ := parser_ok ha.typed ha.capacity ha.accepted
  have hsize := size.property.2
  refine ⟨vs, hvs, ?_, by omega⟩
  rw [written, hrun, binarySize]
  exact List.take_of_length_le (by simp)

/-- The reader of a type takes the written bytes apart into the values of the request and
leaves none, so that requests with different values are written differently; `parse_json`
sends each request to the encoder of its type. -/
theorem uniquely_decodable (t : RequestType) :
    (∀ (h : Host D) (json : Json D) (size : I32), Encodes t h json size →
      ∃ vs, fieldValues h json t.layout = some vs ∧
        (codecOf t.layout).decode (written t h json size) = some (vs, [])) ∧
      (∀ (h h' : Host D) (json json' : Json D) (size size' : I32), Encodes t h json size →
        Encodes t h' json' size' → fieldValues h json t.layout ≠ fieldValues h' json' t.layout →
        written t h json size ≠ written t h' json' size') ∧
      ∀ (h : Host D) (json type : Json D) (size : ℤ), json.getObjectItem "type" = some type →
        type.valueint.val = t.code → parseJson h json size 0 = t.parser h json size 0 := by
  refine ⟨fun h json size ha => ?_, fun h h' json json' size size' ha ha' hne heq => ?_,
    fun h json type size htype hcode => parseJson_eq t htype hcode size⟩
  · obtain ⟨vs, hvs, hw, hlen⟩ := ha.written_eq
    have hread := (codecOf t.layout).decode_encode vs [] hlen
    rw [List.append_nil] at hread
    exact ⟨vs, hvs, hw ▸ hread⟩
  · obtain ⟨vs, hvs, hw, hlen⟩ := ha.written_eq
    obtain ⟨vs', hvs', hw', -⟩ := ha'.written_eq
    refine hne ?_
    rw [hvs, hvs', (codecOf t.layout).encode_inj hlen (hw.symm.trans (heq.trans hw'))]

theorem clickRequest_encodes : Encodes .action stoppedHost clickRequest (i32 64) :=
  ⟨clickRequest_wellTyped, by decide, (parser_writesWhatFits stoppedHost .action clickRequest_wellTyped
    (by decide)).accepts.mpr ⟨rfl, by decide, by decide⟩⟩

theorem noteDocument_encodes : Encodes .document stoppedHost noteDocument (i32 100) := by
  have htyped : WellTyped noteDocument RequestType.document.layout := by decide
  refine ⟨htyped, by decide, ?_⟩
  exact (parser_writesWhatFits stoppedHost .document htyped (by decide)).accepts.mpr
    ⟨rfl, by decide, by decide⟩

def clickValues : Values RequestType.action.layout :=
  (i32 1, i32 9, (7 : UInt64), (31 : UInt64), i32 5, i32 1, lit "bj", ())

def noteValues : Values RequestType.document.layout :=
  (i32 2, (7 : UInt64), i32 1, i32 0, (0 : UInt32), [lit "a"], [(lit "w", i32 3)], [], [], i32 0, [], [], ())

theorem uniquely_decodable_example :
    (codecOf RequestType.action.layout).decode (written .action stoppedHost clickRequest (i32 64)) =
        some (clickValues, []) ∧
      (codecOf RequestType.document.layout).decode (written .document stoppedHost noteDocument (i32 100)) =
        some (noteValues, []) := by
  constructor
  · rcases (uniquely_decodable .action).1 stoppedHost clickRequest (i32 64) clickRequest_encodes with ⟨vs, hvs, hread⟩
    have hvals : fieldValues stoppedHost clickRequest RequestType.action.layout = some clickValues := rfl
    rw [Option.some.inj (hvs.symm.trans hvals)] at hread
    exact hread
  · rcases (uniquely_decodable .document).1 stoppedHost noteDocument (i32 100) noteDocument_encodes with
      ⟨vs, hvs, hread⟩
    have hvals : fieldValues stoppedHost noteDocument RequestType.document.layout = some noteValues := rfl
    rw [Option.some.inj (hvs.symm.trans hvals)] at hread
    exact hread

end PrimaryElection.Framework
