import Libseff.CircularArrays
import Libseff.FixedWidth
import Mathlib.Data.Nat.Log

namespace Libseff.CircularArrayGrowth

open FixedWidth CircularArrays

variable {α : Type}

/-- `__builtin_clz` of an `unsigned int`, which is not defined at zero. -/
def builtinClz (x : ℕ) : Option ℕ := if x = 0 then none else some (31 - Nat.log2 x)

def uint32 (x : ℤ) : ℕ := (x % 2 ^ 32).toNat

def doublingAssertion (arr : CircularArray α) : Bool :=
  (builtinClz (uint32 arr.size)).any fun n => decide (n > 0)

def blockSize (size : ℤ) : ℕ := sizeT (16 + size * 8)

/-- `circular_array_resize` with its assertion, where the program is built with
assertions, and the size of the block that it asks for: there is no new array
when the assertion fails or the block has no room for it. -/
def resizeChecked (ndebug : Bool) (arr : CircularArray α) (bottom top : ℤ) (junk : ℤ → α) :
    Option (CircularArray α) :=
  if ndebug ∨ doublingAssertion arr then
    if 16 + arr.size * 2 * 8 ≤ blockSize (arr.size * 2) then
      some (circularArrayResize arr bottom top junk)
    else none
  else none

/-- A new array with all the elements of the window from `top` to `bottom`, where
the next element has a slot of its own. -/
def KeepsWindow (ndebug : Bool) (arr : CircularArray α) (bottom top : ℤ) (junk : ℤ → α) : Prop :=
  ∃ new, resizeChecked ndebug arr bottom top junk = some new ∧ WellFormed new ∧
    new.size = arr.size * 2 ∧
    (∀ j, top ≤ j → j < bottom → caGet new j = caGet arr j) ∧
    (∀ i j, top ≤ i → i < j → j < top + new.size →
      Int.land i new.mask ≠ Int.land j new.mask) ∧
    (∀ x j, top ≤ j → j < bottom → caGet (caSet new bottom x) j = caGet arr j)

theorem uint32_natCast (n : ℕ) : uint32 n = n % 2 ^ 32 := by
  have h : ((n % 2 ^ 32 : ℕ) : ℤ) = (n : ℤ) % 2 ^ 32 := by push_cast; rfl
  rw [uint32, ← h, Int.toNat_natCast]

/-- The assertion sees the lower half of the size. -/
theorem doublingAssertion_iff {arr : CircularArray α} (h : WellFormed arr) :
    doublingAssertion arr = true ↔ arr.size < 2 ^ 31 := by
  obtain ⟨k, hk⟩ := h.size
  have hcast : arr.size = (2 ^ k : ℕ) := by rw [hk]; push_cast; rfl
  have hlt : arr.size < 2 ^ 31 ↔ k < 31 := by
    rw [hk]
    exact pow_lt_pow_iff_right₀ one_lt_two
  rw [hlt, doublingAssertion, hcast, uint32_natCast]
  obtain hk32 | hge := Nat.lt_or_ge k 32
  · rw [Nat.mod_eq_of_lt (Nat.pow_lt_pow_right one_lt_two hk32), builtinClz,
      if_neg (Nat.two_pow_pos k).ne', Option.any_some, decide_eq_true_eq, Nat.log2_two_pow]
    omega
  · rw [Nat.mod_eq_zero_of_dvd (pow_dvd_pow 2 hge)]
    refine iff_of_false ?_ (by omega)
    exact Bool.false_ne_true

theorem blockSize_iff {arr : CircularArray α} (h : WellFormed arr) :
    16 + arr.size * 2 * 8 ≤ blockSize (arr.size * 2) ↔ arr.size < 2 ^ 60 := by
  obtain ⟨k, hk⟩ := h.size
  have hpos := h.size_pos
  have hhalf : arr.size < 2 ^ 60 → arr.size ≤ 2 ^ 59 := by
    rw [hk]
    intro hlt
    have hk60 : k < 60 := (pow_lt_pow_iff_right₀ one_lt_two).mp hlt
    exact pow_le_pow_right₀ one_le_two (by omega)
  rw [blockSize, sizeT]
  constructor
  · intro hle
    omega
  · intro hlt
    have := hhalf hlt
    omega

/-- The window is kept for sizes below 2 ^ 31, and in a program without
assertions for those whose block has a size: an `int` is all that the assertion
looks at. -/
theorem circularArrayResize_keepsWindow_iff (ndebug : Bool) {arr : CircularArray α}
    (h : WellFormed arr) {bottom top : ℤ} (hfit : bottom - top ≤ arr.size) (junk : ℤ → α) :
    KeepsWindow ndebug arr bottom top junk ↔
      (ndebug = true ∨ arr.size < 2 ^ 31) ∧ arr.size < 2 ^ 60 := by
  have hnew := circularArrayResize_wellFormed h bottom top junk
  have hsize : (circularArrayResize arr bottom top junk).size = arr.size * 2 :=
    copyLoop_size arr (circularArrayGrow arr junk) top _
  have hpos := h.size_pos
  have hget := fun j hj hjb => circularArrayResize_get h hfit junk j hj hjb
  have hchecked : ∀ new, resizeChecked ndebug arr bottom top junk = some new ↔
      ((ndebug = true ∨ arr.size < 2 ^ 31) ∧ arr.size < 2 ^ 60) ∧
        circularArrayResize arr bottom top junk = new := by
    intro new
    rw [resizeChecked, Option.ite_none_right_eq_some, Option.ite_none_right_eq_some,
      doublingAssertion_iff h, blockSize_iff h, Option.some.injEq, and_assoc]
  constructor
  · rintro ⟨new, hsome, -⟩
    exact ((hchecked new).mp hsome).1
  · intro hcond
    refine ⟨_, (hchecked _).mpr ⟨hcond, rfl⟩, hnew, hsize, hget, ?_, ?_⟩
    · intro i j _ hij hj
      exact hnew.slot_ne hij (by omega)
    · intro x j hj hjb
      rw [caGet_caSet_of_lt hnew hjb (by omega), hget j hj hjb]

theorem circularArrayResize_keepsWindow_iff_four :
    KeepsWindow false (⟨4, 3, id⟩ : CircularArray ℤ) 3 (-1) (fun _ => 0) :=
  (circularArrayResize_keepsWindow_iff false ⟨⟨2, rfl⟩, rfl⟩ (by decide) _).mpr
    ⟨Or.inr (by decide), by decide⟩

/-- An array of 2 ^ 31 elements, which has no window yet. -/
theorem not_keepsWindow :
    ¬∀ (ndebug : Bool) (arr : CircularArray Unit) (bottom top : ℤ) (junk : ℤ → Unit),
      WellFormed arr → arr.size * 2 < 2 ^ 63 → top ≤ bottom → bottom - top ≤ arr.size →
        KeepsWindow ndebug arr bottom top junk := by
  intro hall
  obtain ⟨new, hnew, -⟩ := hall false ⟨2 ^ 31, 2 ^ 31 - 1, fun _ => ()⟩ 0 0 (fun _ => ())
    ⟨⟨31, rfl⟩, rfl⟩ (by decide) le_rfl (by decide)
  have hassert : doublingAssertion (⟨2 ^ 31, 2 ^ 31 - 1, fun _ => ()⟩ : CircularArray Unit) =
      false := by decide +kernel
  rw [resizeChecked, hassert] at hnew
  simp at hnew

end Libseff.CircularArrayGrowth
