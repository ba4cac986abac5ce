import PrimaryElection.Framework.Json
import PrimaryElection.Lib.JsonText

/-! Numbers in text files: a line that `fgets` reads, the number that it begins with,
and the decimal text that `fprintf` writes. -/

namespace PrimaryElection.Framework

open JsonText (decimal IsDigits)

/-- A text up to its first newline, which is included. -/
def upToNewline : List UInt8 → List UInt8
  | [] => []
  | b :: bs => if b = 10 then [b] else b :: upToNewline bs

/-- `fgets(buf, size, fp)`: the bytes stored before the terminating zero and what is
left of the file. At the end of the file nothing is stored. -/
def fgets (size : ℕ) (file : List UInt8) : Option (List UInt8 × List UInt8) :=
  match upToNewline (file.take (size - 1)) with
  | [] => none
  | line => some (line, file.drop line.length)

theorem upToNewline_eq {bs : List UInt8} (h : 10 ∉ bs) : upToNewline bs = bs := by
  induction bs with
  | nil => rfl
  | cons b bs ih =>
    obtain ⟨hb, hbs⟩ := not_or.mp (mt List.mem_cons.mpr h)
    rw [upToNewline, if_neg (Ne.symm hb), ih hbs]

/-- A short text without a newline is read whole. -/
theorem fgets_whole {size : ℕ} {file : List UInt8} (hne : file ≠ []) (hlen : file.length < size)
    (h : 10 ∉ file) : fgets size file = some (file, []) := by
  obtain ⟨b, bs, rfl⟩ := List.exists_cons_of_ne_nil hne
  have htake : (b :: bs).take (size - 1) = b :: bs := List.take_of_length_le (by omega)
  unfold fgets
  rw [htake, upToNewline_eq h]
  dsimp only
  rw [List.drop_length]

/-! ### Digits -/

theorem isDigit_iff (b : UInt8) : isDigit b = true ↔ JsonText.IsDigit b := by
  simp only [isDigit, JsonText.IsDigit, decide_eq_true_eq]

theorem digitsVal_append {ds rest : List UInt8} (hd : ∀ b ∈ ds, isDigit b = true)
    (hr : ∀ b, rest.head? = some b → isDigit b = false) :
    digitsVal (ds ++ rest) = ds.foldl (fun v b => 10 * v + (b.toNat - 48)) 0 := by
  have hrest : rest.takeWhile isDigit = [] := by
    cases rest with
    | nil => rfl
    | cons b bs => rw [List.takeWhile_cons_of_neg (by rw [hr b rfl]; decide)]
  unfold digitsVal
  rw [List.takeWhile_append_of_pos hd, hrest, List.append_nil]

theorem foldl_digits (ds : List ℕ) (h : ∀ d ∈ ds, d < 10) :
    (ds.reverse.map fun d => UInt8.ofNat (48 + d)).foldl (fun v b => 10 * v + (b.toNat - 48)) 0 =
      Nat.ofDigits 10 ds := by
  induction ds with
  | nil => rfl
  | cons d ds ih =>
    have hd : d < 10 := h d (by simp)
    have hbyte : (UInt8.ofNat (48 + d)).toNat = 48 + d := by
      rw [UInt8.toNat_ofNat']
      omega
    rw [List.reverse_cons, List.map_append, List.foldl_append, ih fun x hx => h x (by simp [hx]),
      Nat.ofDigits_cons]
    simp only [List.map_cons, List.map_nil, List.foldl_cons, List.foldl_nil, hbyte]
    omega

theorem decimal_isDigit (n : ℕ) : ∀ b ∈ decimal n, isDigit b = true := fun b hb =>
  (isDigit_iff b).mpr ((JsonText.decimal_digits n).2 b hb)

/-- A number is read back from its decimal text, whatever follows the digits. -/
theorem digitsVal_decimal (n : ℕ) {rest : List UInt8}
    (hr : ∀ b, rest.head? = some b → isDigit b = false) : digitsVal (decimal n ++ rest) = n := by
  rw [digitsVal_append (decimal_isDigit n) hr]
  unfold decimal
  split
  next hn => rw [hn]; rfl
  next =>
    rw [foldl_digits _ fun d hd => Nat.digits_lt_base (by norm_num) hd, Nat.ofDigits_digits]

theorem strtoul_digit {b : UInt8} (hb : isDigit b = true) (bs : List UInt8) :
    strtoul (b :: bs) = if digitsVal (b :: bs) < 18446744073709551616
      then UInt64.ofNat (digitsVal (b :: bs)) else (-1 : UInt64) := by
  simp only [isDigit, decide_eq_true_eq] at hb
  have hspace : isSpace b = false := by
    simp only [isSpace, decide_eq_false_iff_not, not_or, not_and]
    refine ⟨?_, fun _ => ?_⟩
    · rintro rfl
      exact absurd hb.1 (by decide)
    · intro h
      exact absurd (UInt8.le_trans hb.1 h) (by decide)
  unfold strtoul
  rw [List.dropWhile_cons_of_neg (by rw [hspace]; decide)]
  split
  next ds h =>
    obtain ⟨rfl, -⟩ := List.cons.inj h
    exact absurd hb.1 (by decide)
  next ds h =>
    obtain ⟨rfl, -⟩ := List.cons.inj h
    exact absurd hb.1 (by decide)
  next => rfl

/-- A 64-bit number is read back from its decimal text. -/
theorem strtoul_decimal (n : UInt64) : strtoul (decimal n.toNat) = n := by
  obtain ⟨b, bs, h⟩ := List.exists_cons_of_ne_nil (JsonText.decimal_digits n.toNat).1
  have hb : isDigit b = true := decimal_isDigit n.toNat b (by simp [h])
  have hval : digitsVal (decimal n.toNat) = n.toNat := by
    rw [← List.append_nil (decimal n.toNat)]
    exact digitsVal_decimal n.toNat (by simp)
  rw [h, strtoul_digit hb, ← h, hval, if_pos n.toNat_lt, UInt64.ofNat_toNat]

theorem decimal_length_word (n : UInt64) : (decimal n.toNat).length ≤ 20 :=
  JsonText.decimal_length_le (n.toNat_lt.trans (by norm_num)) (by norm_num)

/-- The text that `fprintf` writes is read back by `fgets` and `strtoul`. -/
theorem fgets_decimal (n : UInt64) {size : ℕ} (h : 20 < size) :
    fgets size (decimal n.toNat) = some (decimal n.toNat, []) := by
  refine fgets_whole (JsonText.decimal_digits n.toNat).1
    ((decimal_length_word n).trans_lt h) fun hmem => ?_
  exact absurd (decimal_isDigit n.toNat 10 hmem) (by decide)

/-- The stamp that a thread of the module starts with, 0 without a flag file. An empty
file leaves the buffer of `fgets` unset. -/
def readStamp (flag : Option (List UInt8)) : Option UInt64 :=
  match flag with
  | none => some 0
  | some file => (fgets 64 file).map fun r => strtoul r.1

theorem readStamp_written (stamp : UInt64) : readStamp (some (decimal stamp.toNat)) = some stamp := by
  simp only [readStamp, fgets_decimal stamp (show 20 < 64 by norm_num), Option.map_some,
    strtoul_decimal]

end PrimaryElection.Framework
