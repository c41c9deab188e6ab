import Mathlib.Data.Int.ModEq

namespace Libseff.FixedWidth

def int64 (x : ℤ) : ℤ := Int.bmod x (2 ^ 64)

@[irreducible] def int32 (x : ℤ) : ℤ := Int.bmod x (2 ^ 32)

def sizeT (x : ℤ) : ℕ := (x % 2 ^ 64).toNat

theorem int64_of_lt {x : ℤ} (h1 : -2 ^ 63 ≤ x) (h2 : x < 2 ^ 63) : int64 x = x := by
  apply Int.bmod_eq_of_le_mul_two
  · push_cast
    omega
  · push_cast
    omega

theorem int32_of_lt {x : ℤ} (h1 : -2 ^ 31 ≤ x) (h2 : x < 2 ^ 31) : int32 x = x := by
  rw [int32]
  apply Int.bmod_eq_of_le_mul_two
  · push_cast
    omega
  · push_cast
    omega

theorem int32_natCast_of_lt {n : ℕ} (h : n < 2 ^ 31) : int32 n = n :=
  int32_of_lt (by omega) (by omega)

theorem int32_lt (x : ℤ) : int32 x < 2 ^ 31 := by
  have h := @Int.bmod_lt x (2 ^ 32) (Nat.two_pow_pos 32)
  have hbound : (((2 ^ 32 : ℕ) : ℤ) + 1) / 2 = 2 ^ 31 := by decide
  rwa [hbound, ← int32] at h

theorem le_int32 (x : ℤ) : -2 ^ 31 ≤ int32 x := by
  have h := @Int.le_bmod x (2 ^ 32) (Nat.two_pow_pos 32)
  have hbound : ((2 ^ 32 : ℕ) : ℤ) / 2 = 2 ^ 31 := by decide
  rwa [hbound, ← int32] at h

theorem int32_int32 (x : ℤ) : int32 (int32 x) = int32 x := int32_of_lt (le_int32 x) (int32_lt x)

theorem int64_add (x y : ℤ) : int64 (int64 x + y) = int64 (x + y) := Int.bmod_add_bmod

theorem sizeT_int64 (x : ℤ) : sizeT (int64 x) = sizeT x := by
  have h : Int.bmod x (2 ^ 64) % ((2 ^ 64 : ℕ) : ℤ) = x % ((2 ^ 64 : ℕ) : ℤ) := Int.bmod_emod
  rw [Nat.cast_pow, Nat.cast_ofNat] at h
  rw [sizeT, int64, h, sizeT]

theorem sizeT_natCast (n : ℕ) : sizeT n = n % 2 ^ 64 := by
  have h : ((n % 2 ^ 64 : ℕ) : ℤ) = (n : ℤ) % 2 ^ 64 := by push_cast; rfl
  rw [sizeT, ← h, Int.toNat_natCast]

theorem sizeT_of_lt {x : ℤ} (h1 : 0 ≤ x) (h2 : x < 2 ^ 64) : sizeT x = x.toNat := by
  rw [sizeT, Int.emod_eq_of_lt h1 h2]

theorem sizeT_natCast_of_lt {n : ℕ} (h : n < 2 ^ 64) : sizeT n = n := by
  rw [sizeT_natCast, Nat.mod_eq_of_lt h]

/-- An index into a ring does not notice that its counter has wrapped around
when the size of the ring divides the range of the counter. -/
theorem sizeT_mod {n capacity : ℕ} (h : capacity ∣ 2 ^ 64 ∨ n < 2 ^ 64) :
    sizeT (int64 n) % capacity = n % capacity := by
  rw [sizeT_int64, sizeT_natCast]
  obtain hdvd | hlt := h
  · exact Nat.mod_mod_of_dvd n hdvd
  · rw [Nat.mod_eq_of_lt hlt]

theorem mod_inj_of_lt {a b capacity : ℕ} (hle : a ≤ b) (hlt : b < a + capacity)
    (h : a % capacity = b % capacity) : a = b := by
  have hdvd : capacity ∣ b - a := (Nat.modEq_iff_dvd' hle).mp h
  have hzero := Nat.eq_zero_of_dvd_of_lt hdvd (by omega)
  omega

end Libseff.FixedWidth
