import PrimaryElection.Lib.CInt

/-! Little-endian words in byte strings: a number as a fixed count of bytes, the
4-byte and 8-byte words of a C structure, and a run of consecutive 8-byte words
as a pointer walk reads them. Every encoder has the exact length of its word and
is undone by its reader. -/

namespace PrimaryElection.Bytes

open CInt

/-- The `w` lowest bytes of `n`, least significant first. -/
def leBytes : ℕ → ℕ → List UInt8
  | 0, _ => []
  | w + 1, n => UInt8.ofNat n :: leBytes w (n / 256)

/-- The number whose bytes, least significant first, are given. -/
def leVal (bs : List UInt8) : ℕ := bs.foldr (fun b v => b.toNat + 256 * v) 0

@[simp] theorem leVal_nil : leVal [] = 0 := rfl

@[simp] theorem leVal_cons (b : UInt8) (bs : List UInt8) :
    leVal (b :: bs) = b.toNat + 256 * leVal bs := rfl

@[simp] theorem leBytes_length (w n : ℕ) : (leBytes w n).length = w := by
  induction w generalizing n with
  | zero => rfl
  | succ w ih => simp [leBytes, ih]

theorem leVal_leBytes (w n : ℕ) : leVal (leBytes w n) = n % 256 ^ w := by
  induction w generalizing n with
  | zero => simp [leBytes, Nat.mod_one]
  | succ w ih =>
    rw [leBytes, leVal_cons, ih, pow_succ', Nat.mod_mul, UInt8.toNat_ofNat']

theorem leVal_append (as bs : List UInt8) :
    leVal (as ++ bs) = leVal as + 256 ^ as.length * leVal bs := by
  induction as with
  | nil => simp
  | cons a as ih =>
    rw [List.cons_append, leVal_cons, leVal_cons, ih, List.length_cons, pow_succ]
    ring

theorem leVal_lt (bs : List UInt8) : leVal bs < 256 ^ bs.length := by
  induction bs with
  | nil => simp
  | cons b bs ih =>
    have hb := b.toNat_lt
    rw [leVal_cons, List.length_cons, pow_succ]
    omega

theorem leBytes_leVal (bs : List UInt8) : leBytes bs.length (leVal bs) = bs := by
  induction bs with
  | nil => rfl
  | cons b bs ih =>
    have hb := b.toNat_lt
    have hd : (b.toNat + 256 * leVal bs) / 256 = leVal bs := by omega
    have hm : UInt8.ofNat (b.toNat + 256 * leVal bs) = b := by
      apply UInt8.toNat_inj.mp
      rw [UInt8.toNat_ofNat']
      omega
    rw [List.length_cons, leVal_cons, leBytes, hd, hm, ih]

theorem leVal_inj {as bs : List UInt8} (hl : as.length = bs.length) (h : leVal as = leVal bs) :
    as = bs := by
  rw [← leBytes_leVal as, ← leBytes_leVal bs, hl, h]

/-! ### Words of a structure -/

/-- A signed 4-byte word. -/
def int4 (x : ℤ) : List UInt8 := leBytes 4 (x % 4294967296).toNat

def int4Val (bs : List UInt8) : ℤ := toInt32 (leVal bs)

/-- An unsigned 8-byte word. -/
def word8 (v : UInt64) : List UInt8 := leBytes 8 v.toNat

def word8Val (bs : List UInt8) : UInt64 := UInt64.ofNat (leVal bs)

@[simp] theorem int4_length (x : ℤ) : (int4 x).length = 4 := leBytes_length _ _

@[simp] theorem word8_length (v : UInt64) : (word8 v).length = 8 := leBytes_length _ _

@[simp] theorem take_int4_append (x : ℤ) (bs : List UInt8) : (int4 x ++ bs).take 4 = int4 x :=
  List.take_left' (int4_length x)

@[simp] theorem drop_int4_append (x : ℤ) (bs : List UInt8) : (int4 x ++ bs).drop 4 = bs :=
  List.drop_left' (int4_length x)

@[simp] theorem take_word8_append (v : UInt64) (bs : List UInt8) :
    (word8 v ++ bs).take 8 = word8 v :=
  List.take_left' (word8_length v)

@[simp] theorem drop_word8_append (v : UInt64) (bs : List UInt8) : (word8 v ++ bs).drop 8 = bs :=
  List.drop_left' (word8_length v)

theorem leVal_int4 (x : ℤ) : (leVal (int4 x) : ℤ) = x % 4294967296 := by
  unfold int4
  rw [leVal_leBytes]
  omega

theorem int4Val_int4_bmod (x : ℤ) : int4Val (int4 x) = toInt32 x := by
  unfold int4Val toInt32
  rw [leVal_int4, Int.bmod_def, Int.bmod_def]
  split_ifs <;> omega

theorem int4Val_int4 {x : ℤ} (h₁ : -2147483648 ≤ x) (h₂ : x < 2147483648) :
    int4Val (int4 x) = x := by
  rw [int4Val_int4_bmod, toInt32_eq h₁ h₂]

@[simp] theorem word8Val_word8 (v : UInt64) : word8Val (word8 v) = v := by
  unfold word8Val word8
  rw [leVal_leBytes]
  apply UInt64.toNat_inj.mp
  have := v.toNat_lt
  rw [UInt64.toNat_ofNat']
  omega

theorem word8Val_inj {as bs : List UInt8} (ha : as.length = 8) (hb : bs.length = 8)
    (h : word8Val as = word8Val bs) : as = bs := by
  have h₁ := leVal_lt as
  have h₂ := leVal_lt bs
  have hv := congrArg UInt64.toNat h
  unfold word8Val at hv
  rw [UInt64.toNat_ofNat', UInt64.toNat_ofNat'] at hv
  rw [ha] at h₁
  rw [hb] at h₂
  exact leVal_inj (by omega) (by omega)

/-! ### Runs of words -/

/-- The bytes of consecutive 8-byte words. -/
def words8 (vs : List UInt64) : List UInt8 := vs.flatMap word8

/-- The first `n` 8-byte words of a byte string. -/
def words8Val : ℕ → List UInt8 → List UInt64
  | 0, _ => []
  | n + 1, bs => word8Val (bs.take 8) :: words8Val n (bs.drop 8)

@[simp] theorem words8_nil : words8 [] = [] := rfl

@[simp] theorem words8_cons (v : UInt64) (vs : List UInt64) :
    words8 (v :: vs) = word8 v ++ words8 vs := rfl

@[simp] theorem words8_length (vs : List UInt64) : (words8 vs).length = 8 * vs.length := by
  induction vs with
  | nil => rfl
  | cons v vs ih =>
    rw [words8_cons, List.length_append, ih, word8_length, List.length_cons]
    ring

theorem words8Val_words8 (vs : List UInt64) (rest : List UInt8) :
    words8Val vs.length (words8 vs ++ rest) = vs := by
  induction vs with
  | nil => rfl
  | cons v vs ih =>
    rw [words8_cons, List.append_assoc, List.length_cons, words8Val, take_word8_append,
      drop_word8_append, ih, word8Val_word8]

end PrimaryElection.Bytes
