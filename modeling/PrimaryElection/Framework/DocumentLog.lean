import PrimaryElection.Framework.CenterDecode
import PrimaryElection.Lib.JsonText
import PrimaryElection.Lib.Walk

/-! `save_log_document` walks over the document that `parse_document` has written and
prints its id, push time, categories and words; while a string is printed, a zero stands
on the byte behind it. -/

namespace PrimaryElection.Framework

open CInt Bytes Memory Walk JsonText
open Encoder (int4_cast_length mapM_mem)

variable {D : Type} [Zero D]

/-! ### The log of a document -/

/-- A number behind a tab. -/
def logInt (x : ℤ) : Prog UInt8 Unit := emit (9 :: decimalInt x)

/-- size(4) string(size) -/
def logString : Prog UInt8 Unit := do
  let len ← readInt 0
  advance 4
  withZero len (do let s ← readString; emit (9 :: s))
  advance len

/-- size(4) string(size) count(4) -/
def logWord : Prog UInt8 Unit := do
  logString
  let count ← readInt 0
  logInt count
  advance 4

/-- num(4) and as many entries. -/
def logArray (entry : Prog UInt8 Unit) : Prog UInt8 Unit := do
  let num ← readInt 0
  logInt num
  advance 4
  rounds num.toNat entry

/-- The line of a document, from its `parse_buf` on. -/
def logDocument : Prog UInt8 Unit := do
  advance 4
  let docid ← readWord8 0
  let time ← readInt 12
  emit (decimal docid.toNat)
  logInt time
  advance 20
  logArray logString
  logArray logWord
  emit [10]

/-- Nothing is read if the log file does not open. -/
def saveLogDocument (opened : Bool) : Prog UInt8 ℤ :=
  if opened then do
    logDocument
    pure 0
  else pure (-1)

/-! ### What there is to log -/

structure Logged where
  docid : UInt64
  pushtime : I32
  category : List (List UInt8)
  word : List (List UInt8 × I32)

/-- The values of a type-2 request, where all are there; the push time is the clock's. -/
def Json.logged (h : Host D) (json : Json D) : Option Logged := do
  let docid ← fieldValue h json ⟨"docid", .id⟩
  let pushtime ← fieldValue h json ⟨"pushtime", .clock⟩
  let category ← fieldValue h json ⟨"category", .texts⟩
  let word ← fieldValue h json ⟨"word", .words⟩
  some ⟨docid, pushtime, category, word⟩

/-- The columns of the log: did, time, class_num, the classes, word_num, the words each
with its count. -/
def Logged.columns (r : Logged) : List (List UInt8) :=
  decimal r.docid.toNat :: decimalInt r.pushtime :: decimalInt r.category.length ::
    (r.category ++ decimalInt r.word.length :: r.word.flatMap fun w => [w.1, decimalInt w.2])

def Logged.line (r : Logged) : List UInt8 := [9].intercalate r.columns ++ [10]

/-- The memory around `parse_buf` when the request is handed to a worker: the encoder has
written from there on, and its length lies in front. -/
def taskBuf (t : RequestType) (h : Host D) (json : Json D) (size : I32) (m : Mem) : Mem :=
  applyAll [⟨0, written t h json size⟩, storeInt (-4) (written t h json size).length] m

/-- The message that is sent on, of `parse_len` bytes behind their length. -/
def binaryMessage (parseLen : ℕ) (m : Mem) : List UInt8 := load m (-4) (4 + parseLen)

/-! ### The walk over the document -/

theorem reads_logString {s : List UInt8} (h : 0 ∉ s) (hs : s.length < 2147483648) :
    Reads logString (Codec.sized.encode s) () (9 :: s) :=
  reads_look ((peeks_count hs).append s) <| reads_skip (reads_advance (int4_cast_length _).symm) <|
    reads_leave (peeks_string h) (reads_advance rfl)

theorem reads_logWord {w : List UInt8 × I32} (h : 0 ∉ w.1) (hw : w.1.length < 2147483648) :
    Reads logWord ((Codec.sized.pair Codec.int).encode w) () (9 :: w.1 ++ 9 :: decimalInt w.2) :=
  reads_seq (reads_logString h hw) <| reads_look (peeks_int w.2) <|
    reads_leave peeks_emit (reads_advance (int4_cast_length w.2.val).symm)

/-- A list of entries, each of which is read. -/
theorem reads_logArray {α : Type} {entry : Prog UInt8 Unit} {c : Codec α}
    (hc : ∀ a, 0 < (c.encode a).length) {text : α → List UInt8} {as : List α}
    (hlen : as.length < 2147483648) (h : ∀ a ∈ as, Reads entry (c.encode a) () (text a)) :
    Reads (logArray entry) ((c.counted hc).encode as) ()
      (9 :: decimalInt as.length ++ as.flatMap text) :=
  reads_look ((peeks_count hlen).append _) <| reads_peek peeks_emit <|
    reads_skip (reads_advance (int4_cast_length _).symm) (reads_rounds h)

theorem intercalate_cons (b : UInt8) (t : List UInt8) (ts : List (List UInt8)) :
    [b].intercalate (t :: ts) = t ++ ts.flatMap (b :: ·) := by
  induction ts generalizing t with
  | nil => simp
  | cons u ts ih =>
    rw [List.intercalate_cons_cons, ih, List.flatMap_cons]
    simp

theorem Logged.line_eq (r : Logged) :
    r.line = decimal r.docid.toNat ++ (9 :: decimalInt r.pushtime ++
      (9 :: decimalInt r.category.length ++ r.category.flatMap (9 :: ·) ++
        (9 :: decimalInt r.word.length ++ r.word.flatMap (fun w => 9 :: w.1 ++ 9 :: decimalInt w.2) ++
          [10]))) := by
  rw [Logged.line, Logged.columns, intercalate_cons]
  simp [List.flatMap_assoc]

/-- The bytes of a document that the log looks at. -/
def Logged.bytes (r : Logged) (type publictime : I32) (power : UInt32) : List UInt8 :=
  int4 type ++ (word8 r.docid ++ int4 publictime ++ int4 r.pushtime ++ leBytes 4 power.toNat ++
    ((FieldKind.codec .texts).encode r.category ++ (FieldKind.codec .words).encode r.word))

/-- No string contains a zero, and no size exceeds the integers. -/
structure Logged.Printable (r : Logged) : Prop where
  category_length : r.category.length < 2147483648
  word_length : r.word.length < 2147483648
  category : ∀ s ∈ r.category, 0 ∉ s ∧ s.length < 2147483648
  word : ∀ w ∈ r.word, 0 ∉ w.1 ∧ w.1.length < 2147483648

/-- The lists of a document, up to the end of the line. -/
theorem reads_lists {r : Logged} (h : r.Printable) :
    Reads (do logArray logString; logArray logWord; emit [10])
      ((FieldKind.codec .texts).encode r.category ++ (FieldKind.codec .words).encode r.word) ()
      (9 :: decimalInt r.category.length ++ r.category.flatMap (9 :: ·) ++
        (9 :: decimalInt r.word.length ++ r.word.flatMap (fun w => 9 :: w.1 ++ 9 :: decimalInt w.2) ++
          [10])) := by
  have hcategory := reads_logArray FieldKind.sized_pos h.category_length fun s hs =>
    reads_logString (h.category s hs).1 (h.category s hs).2
  have hword := reads_logArray FieldKind.word_pos h.word_length fun w hw =>
    reads_logWord (h.word w hw).1 (h.word w hw).2
  exact reads_seq hcategory (reads_pass hword peeks_emit)

/-- The id, the push time and what follows the power. -/
theorem reads_head {p : Prog UInt8 Unit} {bs ws : List UInt8} (hp : Reads p bs () ws) (docid : UInt64)
    (publictime pushtime : I32) (power : UInt32) :
    Reads (do
        let docid ← readWord8 0
        let time ← readInt 12
        emit (decimal docid.toNat)
        logInt time
        advance 20
        p)
      (word8 docid ++ int4 publictime ++ int4 pushtime ++ leBytes 4 power.toNat ++ bs) ()
      (decimal docid.toNat ++ (9 :: decimalInt pushtime ++ ws)) := by
  have hdocid : Peeks (ω := UInt8) (readWord8 0) (word8 docid) docid [] := by
    rw [← List.nil_append (word8 docid)]
    exact peeks_readWord8 rfl docid
  have htime : Peeks (ω := UInt8) (readInt 12) (word8 docid ++ int4 publictime ++ int4 pushtime)
      pushtime.val [] := peeks_readInt (by simp) pushtime.property.1 pushtime.property.2
  have hskip : Reads (ω := UInt8) (advance 20)
      (word8 docid ++ int4 publictime ++ int4 pushtime ++ leBytes 4 power.toNat) () [] :=
    reads_advance (by simp)
  exact reads_look ((((hdocid.append _).append _).append _).append _) <|
    reads_look ((htime.append _).append _) <| reads_peek peeks_emit <| reads_peek peeks_emit <|
    reads_skip hskip hp

theorem reads_logDocument {r : Logged} (h : r.Printable) (type publictime : I32) (power : UInt32) :
    Reads logDocument (r.bytes type publictime power) () r.line := by
  have hskip : Reads (ω := UInt8) (advance 4) (int4 type) () [] :=
    reads_advance (int4_cast_length _).symm
  have hrest := reads_head (reads_lists h) r.docid publictime r.pushtime power
  rw [Logged.line_eq]
  exact reads_skip hskip hrest

/-! ### The log of an accepted document -/

omit [Zero D] in
theorem textOf_nonzero {x : Json D} {s : List UInt8} (h : textOf x = some s) : 0 ∉ s := by
  obtain ⟨c, -, rfl⟩ := Option.map_eq_some_iff.mp h
  exact c.nonzero

theorem length_le_of_mem {α : Type} {f : α → List UInt8} {as : List α} {a : α} (h : a ∈ as) :
    (f a).length ≤ (as.flatMap f).length := by
  rw [List.flatMap_def]
  exact (List.sublist_flatten_of_mem (List.mem_map_of_mem h)).length_le

theorem Logged.printable {h : Host D} {json : Json D} {r : Logged}
    (hcategory : fieldValue h json ⟨"category", .texts⟩ = some r.category)
    (hword : fieldValue h json ⟨"word", .words⟩ = some r.word)
    (hc : ((FieldKind.codec .texts).encode r.category).length < 2147483648)
    (hw : ((FieldKind.codec .words).encode r.word).length < 2147483648) : r.Printable := by
  obtain ⟨vc, -, hvc⟩ := Option.bind_eq_some_iff.mp hcategory
  obtain ⟨vw, -, hvw⟩ := Option.bind_eq_some_iff.mp hword
  have hc' := Codec.counted_length Codec.sized FieldKind.sized_pos r.category
  have hw' := Codec.counted_length (Codec.sized.pair Codec.int) FieldKind.word_pos r.word
  have hcn := Codec.length_le_flatMap FieldKind.sized_pos r.category
  have hwn := Codec.length_le_flatMap FieldKind.word_pos r.word
  simp only [FieldKind.codec] at hc hw
  refine ⟨by omega, by omega, fun s hs => ?_, fun w hmem => ?_⟩
  · obtain ⟨x, -, hx⟩ := mapM_mem hvc s hs
    have hle := length_le_of_mem (f := Codec.sized.encode) hs
    have hsize : (Codec.sized.encode s).length = 4 + s.length := by simp [Codec.sized]
    exact ⟨textOf_nonzero hx, by omega⟩
  · obtain ⟨x, -, hx⟩ := mapM_mem hvw w hmem
    obtain ⟨word, -, -, htext, -, -⟩ := wordOf_eq_some hx
    have hle := length_le_of_mem (f := (Codec.sized.pair Codec.int).encode) hmem
    have hsize : ((Codec.sized.pair Codec.int).encode w).length = 4 + (w.1.length + 4) := by
      simp [Codec.sized, Codec.pair, Codec.int, Codec.word]
    exact ⟨textOf_nonzero htext, by omega⟩

/-- The document that was written begins with what is logged, and does not end there. -/
theorem Encodes.logged {h : Host D} {json : Json D} {size : I32} (he : Encodes .document h json size) :
    ∃ r type publictime power rest, json.logged h = some r ∧ r.Printable ∧ rest ≠ [] ∧
      written .document h json size = r.bytes type publictime power ++ rest := by
  obtain ⟨vs, hvs, hw, hlen⟩ := he.written_eq
  obtain ⟨type, docid, publictime, pushtime, power, category, word, srp, rest⟩ := vs
  obtain ⟨-, hvs⟩ := fieldValues_cons hvs
  obtain ⟨hdocid, hvs⟩ := fieldValues_cons hvs
  obtain ⟨-, hvs⟩ := fieldValues_cons hvs
  obtain ⟨hpushtime, hvs⟩ := fieldValues_cons hvs
  obtain ⟨-, hvs⟩ := fieldValues_cons hvs
  obtain ⟨hcategory, hvs⟩ := fieldValues_cons hvs
  obtain ⟨hword, -⟩ := fieldValues_cons hvs
  dsimp only at hdocid hpushtime hcategory hword
  have hbytes : written .document h json size =
      Logged.bytes ⟨docid, pushtime, category, word⟩ type publictime power ++
        ((FieldKind.codec .texts).encode srp ++ (codecOf _).encode rest) := by
    rw [hw]
    simp only [Logged.bytes, List.append_assoc]
    rfl
  have hsum := congrArg List.length (hw.symm.trans hbytes)
  simp only [Logged.bytes, List.length_append] at hsum
  refine ⟨_, type, publictime, power, _, ?_, Logged.printable hcategory hword ?_ ?_, ?_, hbytes⟩
  · simp only [Json.logged, hdocid, hpushtime, hcategory, hword]
    rfl
  · dsimp only
    omega
  · dsimp only
    omega
  · have hpos : 0 < ((FieldKind.codec .texts).encode srp).length := by
      simp [FieldKind.codec, Codec.counted]
    exact List.append_ne_nil_of_left_ne_nil (List.ne_nil_of_length_pos hpos) _

/-- `parse_buf` holds what was written, and the message in front of it its length. -/
theorem holds_taskBuf (t : RequestType) (h : Host D) (json : Json D) (size : I32) (m : Mem) :
    Holds (taskBuf t h json size m) 0 (written t h json size) ∧
      binaryMessage (written t h json size).length (taskBuf t h json size m) =
        int4 (written t h json size).length ++ written t h json size := by
  have hholds : Holds (taskBuf t h json size m) 0 (written t h json size) := by
    rw [taskBuf, applyAll_cons, applyAll_cons, applyAll_nil]
    exact (load_store_of_disjoint (.inr (by simp))).trans (load_store_self ⟨0, _⟩ m)
  refine ⟨hholds, ?_⟩
  rw [binaryMessage, load_add]
  exact congrArg₂ _ (load_storeInt _ _ _) hholds

/-- The log prints of an accepted document the id, the push time, the categories and the
words with their counts; it looks at nothing but what was written, and leaves the buffer
and the message that is sent on as they were. -/
theorem saveLogDocument_line {h : Host D} {json : Json D} {size : I32}
    (he : Encodes .document h json size) (m : Mem) (log : List UInt8) :
    ∃ r s, json.logged h = some r ∧
      saveLogDocument true size.val ⟨taskBuf .document h json size m, 0, log, []⟩ = some (0, s) ∧
      s.out = log ++ r.line ∧ s.mem = taskBuf .document h json size m ∧
      (∀ sp ∈ s.touched, sp.Inside 0 (written .document h json size).length) ∧
      binaryMessage (written .document h json size).length s.mem =
        int4 (written .document h json size).length ++ written .document h json size := by
  obtain ⟨r, type, publictime, power, rest, hr, hprint, hrest, hw⟩ := he.logged
  obtain ⟨hholds, hmessage⟩ := holds_taskBuf .document h json size m
  have hsize : ((written .document h json size).length : ℤ) ≤ size.val := by
    have hle := (parser_writesWhatFits h .document he.typed he.capacity).inside
    have htake := List.length_take_le' (binarySize size.val
      (RequestType.document.parser h json size.val 0)).toNat (RequestType.document.parser h json size.val 0).bytes
    rw [written]
    omega
  have hbehind : (r.bytes type publictime power).length < (written .document h json size).length := by
    have := List.length_pos_of_ne_nil hrest
    rw [hw, List.length_append]
    omega
  rw [hw] at hholds
  obtain ⟨spans, hrun, hin⟩ := reads_logDocument hprint type publictime power size.val
    (written .document h json size).length ⟨taskBuf .document h json size m, 0, log, []⟩ hsize le_rfl
    (by dsimp only; omega) (holds_append.mp hholds).1
  have hlog : saveLogDocument true size.val ⟨taskBuf .document h json size m, 0, log, []⟩ =
      some (0, ⟨taskBuf .document h json size m, 0 + (r.bytes type publictime power).length,
        log ++ r.line, [] ++ spans⟩) := by
    rw [saveLogDocument, if_pos rfl, run_bind, hrun]
    rfl
  exact ⟨r, _, hr, hlog, rfl, rfl, hin, hmessage⟩

theorem saveLogDocument_line_example : ∃ s,
    saveLogDocument true 100 ⟨taskBuf .document stoppedHost noteDocument (i32 100) fun _ => 0, 0, [], []⟩ =
      some (0, s) ∧
    s.out = Logged.line ⟨7, i32 0, [lit "a"], [(lit "w", i32 3)]⟩ := by
  obtain ⟨r, s, hr, hrun, hout, -⟩ := saveLogDocument_line noteDocument_encodes (fun _ => 0) []
  have hlogged : noteDocument.logged stoppedHost = some ⟨7, i32 0, [lit "a"], [(lit "w", i32 3)]⟩ := by
    rfl
  obtain rfl := Option.some.inj (hr.symm.trans hlogged)
  exact ⟨s, hrun, hout⟩

end PrimaryElection.Framework
