import PrimaryElection.Lib.Bytes

/-! Codecs of binary formats that compose: words of fixed width, pairs, byte strings
behind their size and lists behind their count. Sizes and counts are `int`s, so a reader
takes back what was written if that is shorter than 2^31 bytes. -/

namespace PrimaryElection

open CInt Bytes

/-- A writer and a reader that takes back what was written, whatever follows it. -/
structure Codec (α : Type) where
  encode : α → List UInt8
  decode : List UInt8 → Option (α × List UInt8)
  decode_encode : ∀ a rest, (encode a).length < 2147483648 →
    decode (encode a ++ rest) = some (a, rest)

namespace Codec

variable {α β : Type}

theorem encode_inj (c : Codec α) {a b : α} (ha : (c.encode a).length < 2147483648)
    (h : c.encode a = c.encode b) : a = b := by
  have h₁ := c.decode_encode a [] ha
  have h₂ := c.decode_encode b [] (h ▸ ha)
  rw [h, h₂] at h₁
  exact (Prod.mk.inj (Option.some.inj h₁)).1.symm

def unit : Codec Unit where
  encode _ := []
  decode bs := some ((), bs)
  decode_encode _ _ _ := rfl

def word (w : ℕ) (enc : α → List UInt8) (val : List UInt8 → α) (hlen : ∀ a, (enc a).length = w)
    (hval : ∀ a, val (enc a) = a) : Codec α where
  encode := enc
  decode bs := if w ≤ bs.length then some (val (bs.take w), bs.drop w) else none
  decode_encode a rest _ := by
    rw [if_pos (by rw [List.length_append, hlen]; omega), List.take_left' (hlen a),
      List.drop_left' (hlen a), hval]

theorem i32_leVal_int4 (x : I32) : i32 (leVal (int4 x.val)) = x := by
  have h := int4Val_int4 x.property.1 x.property.2
  unfold int4Val at h
  apply Subtype.ext
  rw [i32_val, h]

def int : Codec I32 :=
  word 4 (fun x => int4 x.val) (fun bs => i32 (leVal bs)) (fun x => int4_length x.val) i32_leVal_int4

def bits4 : Codec UInt32 :=
  word 4 (fun v => leBytes 4 v.toNat) (fun bs => UInt32.ofNat (leVal bs)) (fun _ => leBytes_length _ _)
    fun v => by
      have := v.toNat_lt
      rw [leVal_leBytes]
      apply UInt32.toNat_inj.mp
      rw [UInt32.toNat_ofNat']
      omega

def id8 : Codec UInt64 := word 8 word8 word8Val word8_length word8Val_word8

def pair (c : Codec α) (d : Codec β) : Codec (α × β) where
  encode p := c.encode p.1 ++ d.encode p.2
  decode bs := do
    let (a, bs) ← c.decode bs
    let (b, bs) ← d.decode bs
    some ((a, b), bs)
  decode_encode p rest h := by
    rw [List.length_append] at h
    rw [List.append_assoc]
    simp [c.decode_encode p.1 _ (by omega), d.decode_encode p.2 _ (by omega)]

/-- A count or a size that is not negative. -/
def readCount (bs : List UInt8) : Option (ℕ × List UInt8) :=
  if 4 ≤ bs.length ∧ 0 ≤ int4Val (bs.take 4) then some ((int4Val (bs.take 4)).toNat, bs.drop 4)
  else none

theorem readCount_int4 {n : ℕ} (hn : n < 2147483648) (rest : List UInt8) :
    readCount (int4 n ++ rest) = some (n, rest) := by
  have hlen : 4 ≤ (int4 (n : ℤ) ++ rest).length := by
    rw [List.length_append, int4_length]
    omega
  have hval : int4Val ((int4 (n : ℤ) ++ rest).take 4) = n := by
    rw [take_int4_append, int4Val_int4 (by omega) (by omega)]
  rw [readCount, hval, if_pos ⟨hlen, Int.natCast_nonneg n⟩, Int.toNat_natCast, drop_int4_append]

/-- size(4) string(size) -/
def sized : Codec (List UInt8) where
  encode s := int4 s.length ++ s
  decode bs := (readCount bs).bind fun p =>
    if p.1 ≤ p.2.length then some (p.2.take p.1, p.2.drop p.1) else none
  decode_encode s rest h := by
    rw [List.length_append, int4_length] at h
    have hs : s.length ≤ (s ++ rest).length := by
      rw [List.length_append]
      omega
    rw [List.append_assoc, readCount_int4 (by omega), Option.bind_some, if_pos hs, List.take_left,
      List.drop_left]

def decodeMany (c : Codec α) : ℕ → List UInt8 → Option (List α × List UInt8)
  | 0, bs => some ([], bs)
  | n + 1, bs => do
    let (a, bs) ← c.decode bs
    let (as, bs) ← decodeMany c n bs
    some (a :: as, bs)

theorem decodeMany_encode (c : Codec α) (as : List α) (rest : List UInt8)
    (h : (as.flatMap c.encode).length < 2147483648) :
    decodeMany c as.length (as.flatMap c.encode ++ rest) = some (as, rest) := by
  induction as with
  | nil => rfl
  | cons a as ih =>
    rw [List.flatMap_cons, List.length_append] at h
    rw [List.flatMap_cons, List.append_assoc, List.length_cons, decodeMany]
    simp [c.decode_encode a _ (by omega), ih (by omega)]

theorem length_le_flatMap {f : α → List UInt8} (hf : ∀ a, 0 < (f a).length) (as : List α) :
    as.length ≤ (as.flatMap f).length := by
  induction as with
  | nil => exact le_rfl
  | cons a as ih =>
    have := hf a
    rw [List.flatMap_cons, List.length_append, List.length_cons]
    omega

/-- num(4) and that many values, none of which is written as nothing. -/
def counted (c : Codec α) (hc : ∀ a, 0 < (c.encode a).length) : Codec (List α) where
  encode as := int4 as.length ++ as.flatMap c.encode
  decode bs := (readCount bs).bind fun p => decodeMany c p.1 p.2
  decode_encode as rest h := by
    have hle := length_le_flatMap hc as
    rw [List.length_append, int4_length] at h
    rw [List.append_assoc, readCount_int4 (by omega), Option.bind_some]
    exact decodeMany_encode c as rest (by omega)

theorem counted_length (c : Codec α) (hc : ∀ a, 0 < (c.encode a).length) (as : List α) :
    ((c.counted hc).encode as).length = 4 + (as.flatMap c.encode).length := by
  rw [counted, List.length_append, int4_length]

end Codec

end PrimaryElection
