import PrimaryElection.Lib.Journal
import PrimaryElection.Util.HashTable

/-! The files of a persistent table: the store file written by `save`, the increment
file with a record for each change since, the flag of a running `clear`, and the
temporary and new store files of `trim`. `restore` finishes what a death interrupted,
loads the store file and replays the increment file up to a torn record. Keys are
`var_u8`, and the files were written with the sizes they are read with. -/

namespace PrimaryElection.Util.HashTable

open CInt Bytes Journal

variable {z : Sizes}

/-! ### Records -/

/-- A change of the table as it is logged. -/
inductive Op (z : Sizes) where
  | add (key : Key) (value : Value z)
  | del (key : Key)

namespace Op

/-- 0xABABABABABABABAB -/
def addFlag : UInt64 := 12370169555311111083

/-- 0xCDCDCDCDCDCDCDCD -/
def delFlag : UInt64 := 14829735431805717965

/-- flag(8) key(8) and the value behind the key of an `add`. -/
def encode : Op z → List UInt8
  | add key value => word8 addFlag ++ word8 key ++ value.val
  | del key => word8 delFlag ++ word8 key

/-- The reads of `restore` at a position of the increment file. -/
def head (bs : List UInt8) : Head (Op z) :=
  if bs.length < 16 then .torn
  else if word8Val (bs.take 8) = addFlag then
    if h : 16 + z.storeSize ≤ bs.length then
      .record (.add (word8Val ((bs.drop 8).take 8)) ⟨(bs.drop 16).take z.storeSize, by simp; omega⟩)
        (bs.drop (16 + z.storeSize))
    else .torn
  else if word8Val (bs.take 8) = delFlag then
    .record (.del (word8Val ((bs.drop 8).take 8))) (bs.drop 16)
  else .bad

@[simp] theorem length_encode_add (key : Key) (value : Value z) :
    (encode (add key value)).length = 16 + z.storeSize := by
  simp only [encode, List.length_append, word8_length, value.property]

@[simp] theorem length_encode_del (key : Key) : (encode (del key : Op z)).length = 16 := by
  simp [encode]

theorem head_encode (o : Op z) (rest : List UInt8) : head (encode o ++ rest) = .record o rest := by
  cases o with
  | add key value =>
    have hlen : ¬ (encode (add key value) ++ rest).length < 16 := by
      rw [List.length_append, length_encode_add]
      omega
    have hfit : 16 + z.storeSize ≤ (encode (add key value) ++ rest).length := by
      rw [List.length_append, length_encode_add]
      omega
    have heq : encode (add key value) ++ rest =
        word8 addFlag ++ (word8 key ++ (value.val ++ rest)) := by simp [encode]
    have hbody : (encode (add key value) ++ rest).drop 16 = value.val ++ rest := by
      rw [heq, show 16 = 8 + 8 from rfl, ← List.drop_drop, drop_word8_append, drop_word8_append]
    have hkey : ((encode (add key value) ++ rest).drop 8).take 8 = word8 key := by
      rw [heq, drop_word8_append, take_word8_append]
    have hrest : (encode (add key value) ++ rest).drop (16 + z.storeSize) = rest := by
      rw [← List.drop_drop, hbody, List.drop_left' value.property]
    have hvalue : (value.val ++ rest).take z.storeSize = value.val :=
      List.take_left' value.property
    have hflag : word8Val ((encode (add key value) ++ rest).take 8) = addFlag := by
      rw [heq, take_word8_append, word8Val_word8]
    rw [head, if_neg hlen, if_pos hflag, dif_pos hfit]
    simp only [hkey, hrest, hbody, hvalue, word8Val_word8]
  | del key =>
    have hlen : ¬ (encode (del key : Op z) ++ rest).length < 16 := by
      rw [List.length_append, length_encode_del]
      omega
    have heq : encode (del key : Op z) ++ rest = word8 delFlag ++ (word8 key ++ rest) := by
      simp [encode]
    have hflag : word8Val ((encode (del key : Op z) ++ rest).take 8) = delFlag := by
      rw [heq, take_word8_append, word8Val_word8]
    have hne : ¬ delFlag = addFlag := by decide
    rw [head, if_neg hlen, hflag, if_neg hne, if_pos rfl, heq, drop_word8_append, take_word8_append,
      word8Val_word8, show 16 = 8 + 8 from rfl, ← List.drop_drop, drop_word8_append,
      drop_word8_append]

/-- The records of the increment file. -/
def format : Format (Op z) where
  encode := encode
  head := head
  head_nil := rfl
  head_encode := head_encode
  encode_ne_nil o h := by
    have := congrArg List.length h
    cases o <;> simp at this

@[simp] theorem format_encode (o : Op z) : format.encode o = encode o := rfl

/-- What is shorter than a key and its flag is passed over. -/
theorem torn_of_short {bs : List UInt8} (h : bs.length < 16) : (format (z := z)).Torn bs := by
  change head bs = .torn
  rw [head, if_pos h]

/-- So is what begins with the flag of an `add` and is too short for one. -/
theorem torn_of_flag {bs : List UInt8} (h : bs.length < 16 + z.storeSize)
    (hflag : bs.take 8 = word8 addFlag) : (format (z := z)).Torn bs := by
  change head bs = .torn
  rw [head]
  split_ifs with h₁ h₂ h₃ h₄
  · rfl
  · omega
  · rfl
  · exact absurd (by rw [hflag, word8Val_word8]) h₂
  · exact absurd (by rw [hflag, word8Val_word8]) h₂

/-- A torn rest is short, or it begins with the flag of an `add`. -/
theorem torn_iff {bs : List UInt8} : (format (z := z)).Torn bs ↔
    bs.length < 16 ∨ bs.length < 16 + z.storeSize ∧ bs.take 8 = word8 addFlag := by
  constructor
  · intro h
    change head bs = .torn at h
    rw [head] at h
    split_ifs at h with h₁ h₂ h₃ h₄
    · exact .inl h₁
    · refine .inr ⟨by omega, ?_⟩
      exact word8Val_inj (by rw [List.length_take]; omega) (word8_length _)
        (by rw [h₂, word8Val_word8])
  · rintro (h | ⟨h, hflag⟩)
    · exact torn_of_short h
    · exact torn_of_flag h hflag

theorem addFlag_bytes : word8 addFlag = List.replicate 8 171 := by decide

/-- An `add` written over a torn rest leaves a torn rest wherever the write stops. -/
theorem torn_add (key : Key) (value : Value z) {tail : List UInt8} (ht : (format (z := z)).Torn tail)
    {p : ℕ} (hp : p < 16 + z.storeSize) :
    (format (z := z)).Torn ((encode (add key value)).take p ++ tail.drop p) := by
  have hlen : ((encode (add key value)).take p ++ tail.drop p).length = max p tail.length := by
    rw [List.length_append, List.length_take, length_encode_add, List.length_drop]
    omega
  rw [torn_iff] at ht ⊢
  by_cases hshort : max p tail.length < 16
  · exact .inl (by omega)
  · refine .inr ⟨by omega, ?_⟩
    rw [addFlag_bytes, List.eq_replicate_iff]
    refine ⟨by rw [List.length_take]; omega, fun b hb => ?_⟩
    obtain ⟨i, hi, rfl⟩ := List.getElem_of_mem hb
    have hi8 : i < 8 := by
      rw [List.length_take] at hi
      omega
    have hflag : ∀ (bs : List UInt8), bs.take 8 = word8 addFlag → bs[i]? = some 171 := by
      intro bs hbs
      rw [← List.getElem?_take_of_lt hi8, hbs, addFlag_bytes, List.getElem?_replicate, if_pos hi8]
    have henc : (encode (add key value)).take 8 = word8 addFlag := by
      simp [encode, List.append_assoc]
    have hget : ((encode (add key value)).take p ++ tail.drop p)[i]? = some 171 := by
      by_cases hip : i < p
      · rw [List.getElem?_append_left (by simp; omega), List.getElem?_take_of_lt hip]
        exact hflag _ henc
      · have htail : tail.take 8 = word8 addFlag := by
          rcases ht with ht | ht
          · omega
          · exact ht.2
        rw [List.getElem?_append_right (by simp; omega), List.getElem?_drop]
        have hidx : p + (i - ((encode (add key value)).take p).length) = i := by
          rw [List.length_take, length_encode_add]
          omega
        rw [hidx]
        exact hflag _ htail
    rw [List.getElem_take]
    exact Option.some.inj ((List.getElem?_eq_getElem _).symm.trans hget)

/-- Nothing of a torn rest is left behind an `add`. -/
theorem drop_add (key : Key) (value : Value z) {tail : List UInt8} (ht : (format (z := z)).Torn tail) :
    tail.drop (encode (add key value)).length = [] := by
  rw [List.drop_eq_nil_iff, length_encode_add]
  rcases torn_iff.mp ht with h | ⟨h, -⟩ <;> omega

end Op

/-! ### The store file -/

namespace Table

/-- The nodes in the order of `travel_key`. -/
def entries (t : Table z) : List (Sigma fun _ : Key => Value z) :=
  (List.finRange z.tableSize).flatMap fun i => (t.chain i).entries

def encodeEntry (e : Sigma fun _ : Key => Value z) : List UInt8 := word8 e.1 ++ e.2.val

def save (t : Table z) : List UInt8 := int4 z.storeSize ++ t.entries.flatMap encodeEntry

/-- The loop of `load`. An `add` that does not return 0 ends it. -/
def loadEntries : ℕ → Table z → List UInt8 → Option (Table z)
  | 0, t, _ => some t
  | n + 1, t, bs =>
    if h : 8 + z.storeSize ≤ bs.length then
      let r := t.add (word8Val (bs.take 8)) ⟨(bs.drop 8).take z.storeSize, by simp; omega⟩ false
      if r.2 ≠ 0 then none else loadEntries n r.1 (bs.drop (8 + z.storeSize))
    else none

/-- Nothing where `load` returns a code. A file of other sizes has no result. -/
def load (t : Table z) (file : List UInt8) : Option (Table z) :=
  if file.length < 4 ∨ int4Val (file.take 4) ≠ z.storeSize ∨
      (file.length - 4) % (8 + z.storeSize) ≠ 0 then none
  else loadEntries ((file.length - 4) / (8 + z.storeSize)) t (file.drop 4)

def replayOp (t : Table z) : Op z → Option (Table z)
  | .add key value => if (t.add key value true).2 < 0 then none else some (t.add key value true).1
  | .del key => if (t.del key).2 ≠ 0 then none else some (t.del key).1

end Table

/-! ### Opening -/

inductive Name where
  | sto
  | inc
  | flg
  | tmp
  | new
  deriving DecidableEq

/-- `cp_rename_file` of a file that is there. -/
def cpRenameFile (src des : Name) : List (FileOp Name) := [.remove des, .rename src des]

/-- What `restore` does to the files of an interrupted `clear`. -/
def finishClear (d : Disk Name) : List (FileOp Name) :=
  if (d .flg).isSome then [.remove .sto, .remove .inc, .remove .flg] else []

/-- What it does to the files of an interrupted `trim`. -/
def finishTrim (d : Disk Name) : List (FileOp Name) :=
  if (d .new).isSome then [.remove .sto, .remove .inc] ++ cpRenameFile .new .sto else []

/-- An increment file that is not there is created. -/
def openInc (d : Disk Name) : List (FileOp Name) := if (d .inc).isSome then [] else [.write .inc []]

def mended (d : Disk Name) : Disk Name :=
  let d := FileOp.execAll d (finishClear d)
  FileOp.execAll d (finishTrim d)

/-- All that `restore` does to the files. -/
def restoreOps (d : Disk Name) : List (FileOp Name) :=
  let cleared := FileOp.execAll d (finishClear d)
  finishClear d ++ finishTrim cleared ++ openInc (mended d)

def loadSto (d : Disk Name) : Option (Table z) :=
  match d .sto with
  | none => some .empty
  | some file => Table.empty.load file

/-- The table and the position behind the last whole record of the increment file, unless
`restore` returns -1. -/
def replayInc (d : Disk Name) (t : Table z) : Option (Table z × ℕ) :=
  match d .inc with
  | none => some (t, 0)
  | some file => (Op.format.replay Table.replayOp file.length t file).map fun r =>
      (r.1, file.length - r.2.length)

def restore (d : Disk Name) : Option (Disk Name × Table z × ℕ) :=
  (loadSto (mended d)).bind fun t => (replayInc (mended d) t).map fun r =>
    (FileOp.execAll d (restoreOps d), r.1, r.2)

/-- The files of `trim`, behind the new content of the store file. -/
def trimOps (t : Table z) : List (FileOp Name) :=
  [.write .tmp t.save] ++ cpRenameFile .tmp .new ++ [.remove .sto, .remove .inc] ++
    cpRenameFile .new .sto ++ [.write .inc []]

def clearOps : List (FileOp Name) :=
  [.write .flg [], .remove .sto, .remove .inc, .remove .flg, .write .inc []]

end PrimaryElection.Util.HashTable
