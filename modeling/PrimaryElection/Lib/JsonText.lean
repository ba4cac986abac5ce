import Mathlib.Data.Nat.Digits.Lemmas
import Mathlib.Tactic

/-! The grammar of JSON texts over bytes, and decimal numerals as numbers of it. A
string is kept as the text between its quotes, a number as its text. -/

namespace PrimaryElection.JsonText

inductive Value where
  | null
  | bool (b : Bool)
  | number (text : List UInt8)
  | string (raw : List UInt8)
  | array (vs : List Value)
  | object (ms : List (List UInt8 × Value))

/-- Insignificant whitespace. -/
def IsBlank (bs : List UInt8) : Prop := ∀ b ∈ bs, b = 32 ∨ b = 9 ∨ b = 10 ∨ b = 13

def IsDigit (b : UInt8) : Prop := 48 ≤ b ∧ b ≤ 57

/-- One digit or more. -/
def IsDigits (bs : List UInt8) : Prop := bs ≠ [] ∧ ∀ b ∈ bs, IsDigit b

/-- Digits without a leading zero, or zero. -/
def IsInteger (bs : List UInt8) : Prop := IsDigits bs ∧ (bs.head? = some 48 → bs = [48])

def IsFraction (bs : List UInt8) : Prop := bs = [] ∨ ∃ ds, bs = 46 :: ds ∧ IsDigits ds

def IsExponent (bs : List UInt8) : Prop :=
  bs = [] ∨ ∃ e sign ds, bs = e :: (sign ++ ds) ∧ (e = 101 ∨ e = 69) ∧
    (sign = [] ∨ sign = [43] ∨ sign = [45]) ∧ IsDigits ds

def IsNumber (bs : List UInt8) : Prop :=
  ∃ sign int frac exp, bs = sign ++ (int ++ (frac ++ exp)) ∧ (sign = [] ∨ sign = [45]) ∧
    IsInteger int ∧ IsFraction frac ∧ IsExponent exp

def IsHex (b : UInt8) : Prop := IsDigit b ∨ (65 ≤ b ∧ b ≤ 70) ∨ (97 ≤ b ∧ b ≤ 102)

/-- The text between the quotes of a string. -/
inductive IsString : List UInt8 → Prop where
  | nil : IsString []
  | char {b : UInt8} {bs : List UInt8} (h : 32 ≤ b ∧ b ≠ 34 ∧ b ≠ 92) : IsString bs → IsString (b :: bs)
  | escape {b : UInt8} {bs : List UInt8} (h : b ∈ [34, 92, 47, 98, 102, 110, 114, 116]) :
      IsString bs → IsString (92 :: b :: bs)
  | unicode {b₁ b₂ b₃ b₄ : UInt8} {bs : List UInt8}
      (h : IsHex b₁ ∧ IsHex b₂ ∧ IsHex b₃ ∧ IsHex b₄) :
      IsString bs → IsString (92 :: 117 :: b₁ :: b₂ :: b₃ :: b₄ :: bs)

theorem isString_of_plain {bs : List UInt8}
    (h : (bs.all fun b => 32 ≤ b ∧ b ≠ 34 ∧ b ≠ 92) = true) : IsString bs := by
  induction bs with
  | nil => exact .nil
  | cons b bs ih =>
    rw [List.all_cons, Bool.and_eq_true, decide_eq_true_iff] at h
    exact .char h.1 (ih h.2)

def quoted (raw : List UInt8) : List UInt8 := 34 :: (raw ++ [34])

mutual

/-- The value that a text without surrounding whitespace denotes. -/
inductive Denotes : Value → List UInt8 → Prop where
  | null : Denotes .null [110, 117, 108, 108]
  | false : Denotes (.bool false) [102, 97, 108, 115, 101]
  | true : Denotes (.bool true) [116, 114, 117, 101]
  | number {bs : List UInt8} : IsNumber bs → Denotes (.number bs) bs
  | string {bs : List UInt8} : IsString bs → Denotes (.string bs) (quoted bs)
  | emptyArray {ws : List UInt8} : IsBlank ws → Denotes (.array []) (91 :: (ws ++ [93]))
  | array {vs : List Value} {bs : List UInt8} : Elements vs bs → Denotes (.array vs) (91 :: (bs ++ [93]))
  | emptyObject {ws : List UInt8} : IsBlank ws → Denotes (.object []) (123 :: (ws ++ [125]))
  | object {ms : List (List UInt8 × Value)} {bs : List UInt8} :
      Members ms bs → Denotes (.object ms) (123 :: (bs ++ [125]))

inductive Elements : List Value → List UInt8 → Prop where
  | one {v : Value} {bs ws ws' : List UInt8} : IsBlank ws → Denotes v bs → IsBlank ws' →
      Elements [v] (ws ++ (bs ++ ws'))
  | cons {v : Value} {vs : List Value} {bs ws ws' cs : List UInt8} : IsBlank ws → Denotes v bs →
      IsBlank ws' → Elements vs cs → Elements (v :: vs) (ws ++ (bs ++ (ws' ++ 44 :: cs)))

inductive Members : List (List UInt8 × Value) → List UInt8 → Prop where
  | one {k : List UInt8} {v : Value} {bs ws₁ ws₂ ws₃ ws₄ : List UInt8} : IsBlank ws₁ → IsString k →
      IsBlank ws₂ → IsBlank ws₃ → Denotes v bs → IsBlank ws₄ →
      Members [(k, v)] (ws₁ ++ (quoted k ++ (ws₂ ++ 58 :: (ws₃ ++ (bs ++ ws₄)))))
  | cons {k : List UInt8} {v : Value} {ms : List (List UInt8 × Value)}
      {bs ws₁ ws₂ ws₃ ws₄ cs : List UInt8} : IsBlank ws₁ → IsString k →
      IsBlank ws₂ → IsBlank ws₃ → Denotes v bs → IsBlank ws₄ → Members ms cs →
      Members ((k, v) :: ms) (ws₁ ++ (quoted k ++ (ws₂ ++ 58 :: (ws₃ ++ (bs ++ (ws₄ ++ 44 :: cs))))))

end

/-- A whole text that denotes a value. -/
def Document (v : Value) (bs : List UInt8) : Prop :=
  ∃ ws cs ws', bs = ws ++ cs ++ ws' ∧ IsBlank ws ∧ Denotes v cs ∧ IsBlank ws'

theorem IsBlank.nil : IsBlank [] := fun _ h => absurd h (List.not_mem_nil)

/-! ### Texts without whitespace -/

theorem Denotes.document {v : Value} {bs : List UInt8} (h : Denotes v bs) : Document v bs :=
  ⟨[], bs, [], by simp, .nil, h, .nil⟩

theorem Elements.single {v : Value} {bs : List UInt8} (h : Denotes v bs) : Elements [v] bs := by
  simpa using Elements.one .nil h .nil

theorem Elements.comma {v : Value} {vs : List Value} {bs cs : List UInt8} (h : Denotes v bs)
    (hs : Elements vs cs) : Elements (v :: vs) (bs ++ 44 :: cs) := by
  simpa using Elements.cons .nil h .nil hs

theorem Members.single {k : List UInt8} {v : Value} {bs : List UInt8} (hk : IsString k)
    (h : Denotes v bs) : Members [(k, v)] (quoted k ++ 58 :: bs) := by
  simpa using Members.one .nil hk .nil .nil h .nil

theorem Members.comma {k : List UInt8} {v : Value} {ms : List (List UInt8 × Value)}
    {bs cs : List UInt8} (hk : IsString k) (h : Denotes v bs) (hs : Members ms cs) :
    Members ((k, v) :: ms) (quoted k ++ 58 :: (bs ++ 44 :: cs)) := by
  simpa using Members.cons .nil hk .nil .nil h .nil hs

def commas : List (List UInt8) → List UInt8
  | [] => []
  | [t] => t
  | t :: ts => t ++ 44 :: commas ts

theorem denotes_numbers {ts : List (List UInt8)} (h : ∀ t ∈ ts, IsNumber t) :
    Denotes (.array (ts.map .number)) (91 :: (commas ts ++ [93])) := by
  cases ts with
  | nil => exact .emptyArray .nil
  | cons t ts =>
    refine .array ?_
    induction ts generalizing t with
    | nil => exact .single (.number (h t (by simp)))
    | cons u us ih =>
      exact .comma (.number (h t (by simp))) (ih u fun x hx => h x (by simp at hx ⊢; tauto))

/-- The text of an object ends with its brace. -/
theorem Document.object_last {ms : List (List UInt8 × Value)} {bs : List UInt8}
    (h : Document (.object ms) bs) : ∃ pre ws, bs = pre ++ 125 :: ws ∧ IsBlank ws := by
  obtain ⟨ws, cs, ws', rfl, -, hd, hw⟩ := h
  have hcs : ∃ cs', cs = cs' ++ [125] := by
    cases hd with
    | emptyObject hb => exact ⟨123 :: _, rfl⟩
    | object hm => exact ⟨123 :: _, rfl⟩
  obtain ⟨cs', rfl⟩ := hcs
  exact ⟨ws ++ cs', ws', by simp, hw⟩

/-- A text that ends with something else is not the text of an object. -/
theorem not_object_of_last {pre : List UInt8} {b : UInt8} (hb : IsDigit b)
    (ms : List (List UInt8 × Value)) : ¬ Document (.object ms) (pre ++ [b]) := by
  intro h
  obtain ⟨pre', ws, heq, hws⟩ := h.object_last
  rcases List.eq_nil_or_concat ws with rfl | ⟨ws', b', rfl⟩
  · obtain rfl : b = 125 := by simpa using (List.append_inj' heq rfl).2
    exact absurd hb.2 (by decide)
  · rw [List.concat_eq_append, ← List.cons_append, ← List.append_assoc] at heq
    have hlast := (List.append_inj' heq rfl).2
    obtain rfl : b = b' := by simpa using hlast
    rcases hws b (by simp) with rfl | rfl | rfl | rfl <;> exact absurd hb.1 (by decide)

/-! ### Decimal numerals -/

/-- The digits of a number. -/
def decimal (n : ℕ) : List UInt8 :=
  if n = 0 then [48] else (Nat.digits 10 n).reverse.map fun d => UInt8.ofNat (48 + d)

def decimalInt (x : ℤ) : List UInt8 := if x < 0 then 45 :: decimal x.natAbs else decimal x.natAbs

theorem isDigit_ofNat {d : ℕ} (h : d < 10) : IsDigit (UInt8.ofNat (48 + d)) := by
  unfold IsDigit
  interval_cases d <;> decide

theorem decimal_digits (n : ℕ) : IsDigits (decimal n) := by
  unfold decimal
  split
  · exact ⟨by simp, fun b hb => by rw [List.mem_singleton.mp hb]; exact ⟨by decide, by decide⟩⟩
  next hn =>
    refine ⟨by simp [Nat.digits_ne_nil_iff_ne_zero.mpr hn], fun b hb => ?_⟩
    obtain ⟨d, hd, rfl⟩ := List.mem_map.mp hb
    exact isDigit_ofNat (Nat.digits_lt_base (by norm_num) (List.mem_reverse.mp hd))

theorem isInteger_decimal (n : ℕ) : IsInteger (decimal n) := by
  refine ⟨decimal_digits n, ?_⟩
  unfold decimal
  split
  · exact fun _ => rfl
  next hn =>
    intro hz
    exfalso
    have hlast := Nat.getLast_digit_ne_zero 10 hn
    rw [List.head?_map, List.head?_reverse, List.getLast?_eq_some_getLast (Nat.digits_ne_nil_iff_ne_zero.mpr hn)]
      at hz
    have hlt : (Nat.digits 10 n).getLast (Nat.digits_ne_nil_iff_ne_zero.mpr hn) < 10 :=
      Nat.digits_lt_base (by norm_num) (List.getLast_mem _)
    generalize (Nat.digits 10 n).getLast (Nat.digits_ne_nil_iff_ne_zero.mpr hn) = d at *
    interval_cases d <;> simp_all

theorem isNumber_of_integer {bs : List UInt8} (h : IsInteger bs) : IsNumber bs :=
  ⟨[], bs, [], [], by simp, .inl rfl, h, .inl rfl, .inl rfl⟩

theorem isNumber_decimal (n : ℕ) : IsNumber (decimal n) := isNumber_of_integer (isInteger_decimal n)

theorem isNumber_decimalInt (x : ℤ) : IsNumber (decimalInt x) := by
  unfold decimalInt
  split
  · exact ⟨[45], decimal x.natAbs, [], [], by simp, .inr rfl, isInteger_decimal _, .inl rfl, .inl rfl⟩
  · exact isNumber_decimal _

theorem decimal_length_le {n k : ℕ} (h : n < 10 ^ k) (hk : 0 < k) : (decimal n).length ≤ k := by
  unfold decimal
  split
  · exact hk
  · rw [List.length_map, List.length_reverse]
    exact (Nat.digits_length_le_iff (by norm_num) n).mpr h

end PrimaryElection.JsonText
