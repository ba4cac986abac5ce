import PrimaryElection.Framework.NumberText
import PrimaryElection.Lib.CInt
import PrimaryElection.Lib.Outcome
import Mathlib.Data.List.DropRight

/-! `UC_ReadConfigFile`: lines of the form `key = value`, where a blank or a comment mark
ends a value that is not in quotes. The numbers are read from the text of the value, and
the overload for one byte takes its first character. -/

namespace PrimaryElection.Framework

open CInt
open Encoder (Outcome)

/-! ### Lines -/

/-- The lines that `fgets` reads into a buffer of 1024 bytes, at most `fuel` of them. -/
def readLines : ℕ → List UInt8 → List (List UInt8)
  | 0, _ => []
  | fuel + 1, file =>
    match fgets 1024 file with
    | none => []
    | some (line, rest) => line :: readLines fuel rest

theorem upToNewline_append (bs : List UInt8) : ∃ rest, bs = upToNewline bs ++ rest := by
  induction bs with
  | nil => exact ⟨[], rfl⟩
  | cons b bs ih =>
    rw [upToNewline]
    split_ifs
    · exact ⟨bs, rfl⟩
    · obtain ⟨rest, h⟩ := ih
      exact ⟨rest, by rw [List.cons_append, ← h]⟩

theorem upToNewline_eq_nil {bs : List UInt8} : upToNewline bs = [] ↔ bs = [] := by
  cases bs with
  | nil => exact ⟨fun _ => rfl, fun _ => rfl⟩
  | cons b bs =>
    rw [upToNewline]
    split_ifs <;> simp

theorem fgets_append {size : ℕ} {file line rest : List UInt8} (h : fgets size file = some (line, rest)) :
    file = line ++ rest ∧ line ≠ [] := by
  unfold fgets at h
  obtain ⟨tail, ht⟩ := upToNewline_append (file.take (size - 1))
  cases hl : upToNewline (file.take (size - 1)) with
  | nil => simp [hl] at h
  | cons b bs =>
    rw [hl] at h ht
    obtain ⟨rfl, rfl⟩ := Prod.mk.inj (Option.some.inj h)
    have hfile : file = (b :: bs) ++ (tail ++ file.drop (size - 1)) := by
      rw [← List.append_assoc, ← ht, List.take_append_drop]
    refine ⟨?_, List.cons_ne_nil b bs⟩
    conv_rhs => rw [hfile, List.drop_left]
    exact hfile

/-- A line for each byte of the file is enough to read it whole. -/
theorem readLines_flatten {fuel : ℕ} {file : List UInt8} (h : file.length ≤ fuel) :
    (readLines fuel file).flatten = file := by
  induction fuel generalizing file with
  | zero => rw [List.length_eq_zero_iff.mp (Nat.le_zero.mp h)]; rfl
  | succ fuel ih =>
    rw [readLines]
    cases hf : fgets 1024 file with
    | none =>
      unfold fgets at hf
      cases hl : upToNewline (file.take (1024 - 1)) with
      | nil =>
        have htake := upToNewline_eq_nil.mp hl
        rw [List.take_eq_nil_iff] at htake
        exact (htake.resolve_left (by norm_num)).symm
      | cons b bs => simp [hl] at hf
    | some r =>
      obtain ⟨line, rest⟩ := r
      obtain ⟨rfl, hne⟩ := fgets_append hf
      have hpos := List.length_pos_iff.mpr hne
      rw [List.length_append] at h
      rw [List.flatten_cons, ih (by omega)]

/-! ### Fields -/

/-- `UCRCF_SM_1`, `UCRCF_SM_2` -/
def isMark (b : UInt8) : Bool := b = 32 ∨ b = 9

/-- `UCRCF_COMMENT_1`, `UCRCF_COMMENT_2` -/
def isComment (b : UInt8) : Bool := b = 59 ∨ b = 35

/-- The string in a buffer, without the blanks and line ends behind it. -/
def cpDropUselessChar (buf : List UInt8) : List UInt8 :=
  (buf.takeWhile (· ≠ 0)).rdropWhile fun b => b = 9 ∨ b = 10 ∨ b = 13 ∨ b = 32

/-- A letter as `strcasecmp` compares it. -/
def toLower (b : UInt8) : UInt8 := if 65 ≤ b ∧ b ≤ 90 then b + 32 else b

def valueText (q : List UInt8) : Outcome (List UInt8) :=
  match q.dropWhile isMark with
  | [] => .code (-1)
  | b :: bs =>
    if b = 39 ∨ b = 34 then
      if b ∈ bs then .ok (bs.takeWhile (· ≠ b)) else .code (-1)
    else .ok ((b :: bs).takeWhile fun d => ¬ (isMark d ∨ isComment d))

/-- One line of the loop: nothing if it goes on to the next line. -/
def scanLine (szpField line : List UInt8) : Option (Outcome (List UInt8)) :=
  match (cpDropUselessChar line).dropWhile isMark with
  | [] => none
  | b :: bs =>
    let p := b :: bs
    if isComment b then none
    else if 61 ∉ p then some (.code (-1))
    else
      let tag := (p.takeWhile (· ≠ 61)).rdropWhile isMark
      if szpField.map toLower ≠ tag.map toLower then none
      else some (valueText ((p.dropWhile (· ≠ 61)).drop 1))

/-- `GetFieldValue` for a string: the value of the first line with the key. -/
def getFieldValue (szpField : List UInt8) : List (List UInt8) → Outcome (List UInt8)
  | [] => .code (-1)
  | line :: lines => (scanLine szpField line).getD (getFieldValue szpField lines)

def fieldText (szpField : List UInt8) (lines : List (List UInt8)) : Option (List UInt8) :=
  match getFieldValue szpField lines with
  | .ok t => some t
  | _ => none

theorem fieldText_eq_some {szpField t : List UInt8} {lines : List (List UInt8)} :
    fieldText szpField lines = some t ↔ getFieldValue szpField lines = .ok t := by
  unfold fieldText
  cases getFieldValue szpField lines <;> simp

def configLines (file : List UInt8) : List (List UInt8) := readLines file.length file

example : getFieldValue (lit "FW_B") (configLines (lit "# a = 1\n fw_b\t=  '12 ' ; c\n")) =
    .ok (lit "12 ") := by decide +kernel

theorem valueText_nonzero {q t : List UInt8} (hq : 0 ∉ q) (h : valueText q = .ok t) : 0 ∉ t := by
  unfold valueText at h
  have hp : 0 ∉ q.dropWhile isMark := fun hm => hq ((List.dropWhile_sublist _).subset hm)
  generalize q.dropWhile isMark = p at h hp
  cases p with
  | nil => cases h
  | cons b bs =>
    simp only at h
    split_ifs at h
    · cases h
      exact fun hm => hp (List.mem_cons_of_mem b ((List.takeWhile_sublist _).subset hm))
    · cases h
      exact fun hm => hp ((List.takeWhile_sublist _).subset hm)

/-- A value is a C string. -/
theorem getFieldValue_nonzero {szpField t : List UInt8} {lines : List (List UInt8)}
    (h : getFieldValue szpField lines = .ok t) : 0 ∉ t := by
  induction lines with
  | nil => cases h
  | cons line lines ih =>
    rw [getFieldValue] at h
    cases hs : scanLine szpField line with
    | none =>
      rw [hs] at h
      exact ih h
    | some o =>
      rw [hs] at h
      have hbuf : 0 ∉ (cpDropUselessChar line).dropWhile isMark := fun hm => by
        have hstr := (List.rdropWhile_prefix _ _).subset ((List.dropWhile_sublist _).subset hm)
        simpa using List.mem_takeWhile_imp hstr
      unfold scanLine at hs
      generalize (cpDropUselessChar line).dropWhile isMark = p at hs hbuf
      cases p with
      | nil => cases hs
      | cons b bs =>
        simp only at hs
        split_ifs at hs
        · obtain rfl := Option.some.inj hs
          refine valueText_nonzero (fun hm => hbuf ?_) h
          exact (List.dropWhile_sublist _).subset (List.mem_of_mem_drop hm)
        · obtain rfl := Option.some.inj hs
          cases h

/-! ### Numbers -/

/-- The number that a text begins with, after blanks and a sign; 0 if there are no digits. -/
def decimalValue (t : List UInt8) : ℤ :=
  match t.dropWhile isSpace with
  | 45 :: ds => -(digitsVal ds : ℤ)
  | 43 :: ds => digitsVal ds
  | ds => digitsVal ds

/-- `atol`: a number beyond a `long` gives the nearest one. -/
def atol (t : List UInt8) : ℤ :=
  max (-9223372036854775808) (min (decimalValue t) 9223372036854775807)

inductive IntType where
  | var4
  | varU2
  | var1
  deriving DecidableEq

def IntType.reduce : IntType → ℤ → ℤ
  | var4, x => toInt32 x
  | varU2, x => x % 65536
  | var1, x => x.bmod 256

/-- The overload of `GetFieldValue` for the type, of the text of the value. -/
def IntType.fieldValue (τ : IntType) (t : List UInt8) : ℤ :=
  match τ with
  | var4 => τ.reduce (atol t)
  | varU2 => τ.reduce (atol t)
  | var1 => τ.reduce (t.headD 0).toNat

/-- A number keeps its last bits, which have `m` values, in a `long`: it fits, or the
nearest `long` has the same ones. -/
def Passes (m x : ℤ) : Prop :=
  (-9223372036854775808 ≤ x ∧ x ≤ 9223372036854775807) ∨
    (9223372036854775807 < x ∧ x % m = m - 1) ∨ (x < -9223372036854775808 ∧ x % m = 0)

/-- The texts whose number the overload for a type gives: for one byte, the empty one and
those that begin with the character of that number. -/
def IntType.Exact (τ : IntType) (t : List UInt8) : Prop :=
  match τ with
  | var4 => Passes 4294967296 (decimalValue t)
  | varU2 => Passes 65536 (decimalValue t)
  | var1 => t = [] ∨ decimalValue t % 256 = (t.headD 0).toNat

instance (τ : IntType) (t : List UInt8) : Decidable (τ.Exact t) :=
  match τ with
  | .var4 => inferInstanceAs (Decidable (_ ∨ _))
  | .varU2 => inferInstanceAs (Decidable (_ ∨ _))
  | .var1 => inferInstanceAs (Decidable (_ ∨ _))

theorem IntType.exact_iff (τ : IntType) (t : List UInt8) :
    τ.Exact t ↔ τ.fieldValue t = τ.reduce (decimalValue t) := by
  cases τ with
  | var4 =>
    simp only [Exact, Passes, fieldValue, reduce, atol, toInt32, Int.bmod_def]
    omega
  | varU2 =>
    simp only [Exact, Passes, fieldValue, reduce, atol]
    omega
  | var1 =>
    have hbyte := (t.headD 0).toNat_lt
    cases t with
    | nil => exact iff_of_true (.inl rfl) (by decide)
    | cons b bs =>
      simp only [Exact, fieldValue, reduce, Int.bmod_def, List.headD_cons] at hbyte ⊢
      simp only [List.cons_ne_nil, false_or]
      omega

theorem IntType.fieldValue_var1_eq_zero {t : List UInt8} (h : 0 ∉ t) :
    IntType.var1.fieldValue t = 0 ↔ t = [] := by
  cases t with
  | nil => exact iff_of_true (by decide) rfl
  | cons b bs =>
    have hb : b.toNat ≠ 0 := fun hz => h (by simp [UInt8.toNat_inj.mp (hz.trans UInt8.toNat_zero.symm)])
    have hbyte := b.toNat_lt
    simp only [fieldValue, reduce, Int.bmod_def, List.headD_cons, List.cons_ne_nil, iff_false]
    omega

end PrimaryElection.Framework
