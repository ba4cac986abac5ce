import Mathlib.Tactic

/-! The integer types of a C program on a 64-bit machine. An `int` is an integer
reduced into the signed 32-bit range after every operation; a conversion to
`size_t` reduces into the unsigned 64-bit range. Values that a declaration
already keeps in the signed range are a subtype. -/

namespace PrimaryElection.CInt

/-- Two's-complement value of an `int` holding `x`. -/
def toInt32 (x : ℤ) : ℤ := x.bmod 4294967296

/-- Value of `x` converted to `size_t`. -/
def toSize (x : ℤ) : ℕ := (x % 18446744073709551616).toNat

/-- Values of a 32-bit signed field. -/
abbrev I32 := {x : ℤ // -2147483648 ≤ x ∧ x < 2147483648}

theorem toInt32_range (x : ℤ) : -2147483648 ≤ toInt32 x ∧ toInt32 x < 2147483648 := by
  have h₁ := Int.le_bmod (x := x) (m := 4294967296) (by norm_num)
  have h₂ := Int.bmod_lt (x := x) (m := 4294967296) (by norm_num)
  norm_num at h₁ h₂
  exact ⟨h₁, h₂⟩

def i32 (x : ℤ) : I32 := ⟨toInt32 x, toInt32_range x⟩

theorem i32_val (x : ℤ) : (i32 x).val = toInt32 x := rfl

theorem toInt32_eq {x : ℤ} (h₁ : -2147483648 ≤ x) (h₂ : x < 2147483648) : toInt32 x = x := by
  unfold toInt32
  rw [Int.bmod_def]
  split_ifs <;> omega

theorem toInt32_wraps (x : ℤ) : ∃ q, toInt32 x = x - 4294967296 * q := by
  unfold toInt32
  rw [Int.bmod_def]
  split_ifs
  · exact ⟨x / 4294967296, by push_cast; omega⟩
  · exact ⟨x / 4294967296 + 1, by push_cast; omega⟩

/-- A value above the signed range, by less than a whole range, comes out lower by one
range. -/
theorem toInt32_above {x : ℤ} (h₁ : 2147483648 ≤ x) (h₂ : x < 6442450944) :
    toInt32 x = x - 4294967296 := by
  obtain ⟨q, hq⟩ := toInt32_wraps x
  have hr := toInt32_range x
  omega

/-- Reductions of both sides of a difference make no difference to it. -/
theorem toInt32_sub_toInt32 (x y : ℤ) : toInt32 (toInt32 x - toInt32 y) = toInt32 (x - y) := by
  unfold toInt32
  rw [Int.sub_bmod_bmod, Int.bmod_sub_bmod]

theorem toSize_eq {x : ℤ} (h₁ : 0 ≤ x) (h₂ : x < 18446744073709551616) : (toSize x : ℤ) = x := by
  unfold toSize
  omega

/-- A negative `int` becomes a size above every signed value. -/
theorem toSize_neg {x : ℤ} (h₁ : -9223372036854775808 ≤ x) (h₂ : x < 0) :
    9223372036854775808 ≤ toSize x := by
  unfold toSize
  omega

end PrimaryElection.CInt
