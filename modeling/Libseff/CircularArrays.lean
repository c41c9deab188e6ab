import Mathlib.Data.Int.Bitwise
import Mathlib.Data.Int.ModEq
import Mathlib.Data.Nat.Bitwise
import Mathlib.Tactic.Linarith

namespace Libseff.CircularArrays

theorem ldiff_mask (k m : ℕ) : Nat.ldiff (2 ^ k - 1) m = 2 ^ k - (m % 2 ^ k + 1) := by
  apply Nat.eq_of_testBit_eq
  intro i
  have hm : m % 2 ^ k < 2 ^ k := Nat.mod_lt _ (Nat.two_pow_pos k)
  rw [Nat.testBit_ldiff, Nat.testBit_two_pow_sub_one, Nat.testBit_two_pow_sub_succ hm,
    Nat.testBit_mod_two_pow]
  by_cases h : i < k <;> simp [h]

/-- Masking a signed index by one less than a power of two reduces it, also
below zero, where two's complement continues with ones. -/
theorem land_mask (x : ℤ) (k : ℕ) : Int.land x (2 ^ k - 1) = x % 2 ^ k := by
  have hp := Nat.two_pow_pos k
  have hk : (2 : ℤ) ^ k - 1 = Int.ofNat (2 ^ k - 1) := by simp [Nat.cast_sub hp]
  rw [hk]
  cases x with
  | ofNat m =>
    change ((m &&& (2 ^ k - 1) : ℕ) : ℤ) = _
    simp [Nat.and_two_pow_sub_one_eq_mod]
  | negSucc m =>
    change ((Nat.ldiff (2 ^ k - 1) m : ℕ) : ℤ) = _
    have hm : m % 2 ^ k < 2 ^ k := Nat.mod_lt _ hp
    rw [ldiff_mask, Int.negSucc_emod _ (by positivity), Nat.cast_sub hm]
    push_cast
    omega

variable {α : Type}

structure CircularArray (α : Type) where
  size : ℤ
  mask : ℤ
  buffer : ℤ → α

/-- The shift is one of C's `int`, defined for `log_size < 31`. The memory that
`malloc` returns is not initialised, so `junk` is whatever it holds. -/
def circularArrayNew (log_size : ℕ) (junk : ℤ → α) : CircularArray α :=
  ⟨2 ^ log_size, 2 ^ log_size - 1, junk⟩

def caGet (arr : CircularArray α) (idx : ℤ) : α := arr.buffer (Int.land idx arr.mask)

def caSet (arr : CircularArray α) (idx : ℤ) (elt : α) : CircularArray α :=
  { arr with buffer := Function.update arr.buffer (Int.land idx arr.mask) elt }

def circularArrayGrow (arr : CircularArray α) (junk : ℤ → α) : CircularArray α :=
  ⟨arr.size * 2, arr.size * 2 - 1, junk⟩

/-- The loop `for (i = top; i < bottom; i++)` with `n` iterations left. -/
def copyLoop (arr new : CircularArray α) (i : ℤ) : ℕ → CircularArray α
  | 0 => new
  | n + 1 => copyLoop arr (caSet new i (caGet arr i)) (i + 1) n

/-- What a resize does where it returns: `CircularArrayGrowth` has its assertion,
which aborts at 2^31 slots, and the size of the new block. The `int64_t` indices are
integers, so fewer than 2^63 pushes are meant. -/
def circularArrayResize (arr : CircularArray α) (bottom top : ℤ) (junk : ℤ → α) :
    CircularArray α :=
  copyLoop arr (circularArrayGrow arr junk) top (bottom - top).toNat

structure WellFormed (arr : CircularArray α) : Prop where
  size : ∃ k : ℕ, arr.size = 2 ^ k
  mask : arr.mask = arr.size - 1

theorem circularArrayNew_wellFormed (log_size : ℕ) (junk : ℤ → α) :
    WellFormed (circularArrayNew log_size junk) :=
  ⟨⟨log_size, rfl⟩, rfl⟩

theorem circularArrayGrow_wellFormed {arr : CircularArray α} (h : WellFormed arr)
    (junk : ℤ → α) : WellFormed (circularArrayGrow arr junk) := by
  obtain ⟨k, hk⟩ := h.size
  exact ⟨⟨k + 1, by simp only [circularArrayGrow, hk, pow_succ]⟩, rfl⟩

@[simp] theorem caSet_size (arr : CircularArray α) (idx : ℤ) (elt : α) :
    (caSet arr idx elt).size = arr.size := rfl

theorem caSet_wellFormed {arr : CircularArray α} (h : WellFormed arr) (idx : ℤ) (elt : α) :
    WellFormed (caSet arr idx elt) :=
  ⟨h.size, h.mask⟩

theorem WellFormed.size_pos {arr : CircularArray α} (h : WellFormed arr) : 0 < arr.size := by
  obtain ⟨k, hk⟩ := h.size
  rw [hk]
  positivity

theorem WellFormed.land {arr : CircularArray α} (h : WellFormed arr) (idx : ℤ) :
    Int.land idx arr.mask = idx % arr.size := by
  obtain ⟨k, hk⟩ := h.size
  rw [h.mask, hk, land_mask]

theorem WellFormed.slot_ne {arr : CircularArray α} (h : WellFormed arr) {i j : ℤ}
    (hij : i < j) (hd : j - i < arr.size) : Int.land i arr.mask ≠ Int.land j arr.mask := by
  rw [h.land, h.land]
  intro he
  have hdvd : arr.size ∣ j - i := Int.ModEq.dvd he
  have := Int.le_of_dvd (by omega) hdvd
  omega

@[simp] theorem caGet_caSet (arr : CircularArray α) (i : ℤ) (x : α) :
    caGet (caSet arr i x) i = x := by
  simp [caGet, caSet]

theorem caGet_caSet_of_ne {arr : CircularArray α} {i j : ℤ}
    (hne : Int.land j arr.mask ≠ Int.land i arr.mask) (x : α) :
    caGet (caSet arr i x) j = caGet arr j := by
  simp [caGet, caSet, hne]

theorem caGet_caSet_of_lt {arr : CircularArray α} (h : WellFormed arr) {i j : ℤ}
    (hij : i < j) (hd : j - i < arr.size) (x : α) :
    caGet (caSet arr j x) i = caGet arr i :=
  caGet_caSet_of_ne (h.slot_ne hij hd) x

theorem wellFormed_update {arrays : ℕ → CircularArray α} (h : ∀ p, WellFormed (arrays p)) (p : ℕ)
    {arr : CircularArray α} (ha : WellFormed arr) (p' : ℕ) :
    WellFormed (Function.update arrays p arr p') := by
  rw [Function.update_apply]
  split
  · exact ha
  · exact h p'

theorem caGet_copied {arr new : CircularArray α} (h : WellFormed new) {lo i : ℤ}
    (hfit : i - lo < new.size) (hcopied : ∀ j, lo ≤ j → j < i → caGet new j = caGet arr j) (j : ℤ)
    (hj : lo ≤ j) (hji : j < i + 1) : caGet (caSet new i (caGet arr i)) j = caGet arr j := by
  obtain rfl | hne := eq_or_ne j i
  · exact caGet_caSet new j _
  · rw [caGet_caSet_of_lt h (by omega) (by omega)]
    exact hcopied j hj (by omega)

@[simp] theorem copyLoop_size (arr new : CircularArray α) (i : ℤ) (n : ℕ) :
    (copyLoop arr new i n).size = new.size := by
  induction n generalizing new i with
  | zero => rfl
  | succ n ih => simp [copyLoop, ih]

theorem copyLoop_wellFormed (arr : CircularArray α) {new : CircularArray α}
    (h : WellFormed new) (i : ℤ) (n : ℕ) : WellFormed (copyLoop arr new i n) := by
  induction n generalizing new i with
  | zero => exact h
  | succ n ih => exact ih (caSet_wellFormed h i (caGet arr i)) (i + 1)

theorem copyLoop_get (arr : CircularArray α) {new : CircularArray α} (h : WellFormed new)
    (lo i : ℤ) (n : ℕ) (hlo : lo ≤ i) (hfit : i + n - lo ≤ new.size)
    (hcopied : ∀ j, lo ≤ j → j < i → caGet new j = caGet arr j) (j : ℤ) (hj : lo ≤ j)
    (hjn : j < i + n) : caGet (copyLoop arr new i n) j = caGet arr j := by
  induction n generalizing new i with
  | zero => exact hcopied j hj (by simpa using hjn)
  | succ n ih =>
    push_cast at hfit hjn
    exact ih (caSet_wellFormed h i _) (i + 1) (by omega) (by simpa using by omega)
      (caGet_copied h (by omega) hcopied) (by omega)

theorem circularArrayResize_wellFormed {arr : CircularArray α} (h : WellFormed arr)
    (bottom top : ℤ) (junk : ℤ → α) : WellFormed (circularArrayResize arr bottom top junk) :=
  copyLoop_wellFormed arr (circularArrayGrow_wellFormed h junk) top _

theorem circularArrayResize_get {arr : CircularArray α} (h : WellFormed arr) {bottom top : ℤ}
    (hfit : bottom - top ≤ arr.size) (junk : ℤ → α) (j : ℤ) (hj : top ≤ j) (hjb : j < bottom) :
    caGet (circularArrayResize arr bottom top junk) j = caGet arr j := by
  have hp := h.size_pos
  refine copyLoop_get arr (circularArrayGrow_wellFormed h junk) top top _ le_rfl ?_
    (fun j h1 h2 => absurd h1 (by omega)) j hj (by omega)
  simp only [circularArrayGrow]
  omega

def caWindow (arr : CircularArray α) (lo hi : ℤ) : List α :=
  (List.range (hi - lo).toNat).map fun k : ℕ => caGet arr (lo + k)

@[simp] theorem caWindow_self (arr : CircularArray α) (i : ℤ) : caWindow arr i i = [] := by
  simp [caWindow]

theorem caWindow_snoc (arr : CircularArray α) {lo hi : ℤ} (h : lo ≤ hi) :
    caWindow arr lo (hi + 1) = caWindow arr lo hi ++ [caGet arr hi] := by
  have hn : (hi + 1 - lo).toNat = (hi - lo).toNat + 1 := by omega
  have hk : lo + ((hi - lo).toNat : ℤ) = hi := by omega
  simp only [caWindow, hn, List.range_succ, List.map_append, List.map_cons, List.map_nil, hk]

theorem caWindow_cons (arr : CircularArray α) {lo hi : ℤ} (h : lo < hi) :
    caWindow arr lo hi = caGet arr lo :: caWindow arr (lo + 1) hi := by
  have hn : (hi - lo).toNat = (hi - (lo + 1)).toNat + 1 := by omega
  simp only [caWindow, hn, List.range_succ_eq_map, List.map_cons, List.map_map]
  congr 1
  · simp
  · apply List.map_congr_left
    intro k _
    simp only [Function.comp, Nat.succ_eq_add_one, Nat.cast_add, Nat.cast_one]
    congr 1
    omega

theorem caWindow_congr {arr arr' : CircularArray α} {lo hi : ℤ}
    (h : ∀ j, lo ≤ j → j < hi → caGet arr' j = caGet arr j) :
    caWindow arr' lo hi = caWindow arr lo hi := by
  apply List.map_congr_left
  intro k hk
  have := List.mem_range.mp hk
  exact h _ (by omega) (by omega)

theorem caWindow_caSet {arr : CircularArray α} (h : WellFormed arr) {lo hi : ℤ} (hle : lo ≤ hi)
    (hlt : hi - lo < arr.size) (x : α) :
    caWindow (caSet arr hi x) lo (hi + 1) = caWindow arr lo hi ++ [x] := by
  rw [caWindow_snoc _ hle, caGet_caSet]
  congr 1
  apply caWindow_congr
  intro j h1 h2
  exact caGet_caSet_of_lt h h2 (by omega) x

theorem caWindow_resize {arr : CircularArray α} (h : WellFormed arr) {lo hi : ℤ}
    (hfit : hi - lo ≤ arr.size) (junk : ℤ → α) :
    caWindow (circularArrayResize arr hi lo junk) lo hi = caWindow arr lo hi := by
  apply caWindow_congr
  intro j h1 h2
  exact circularArrayResize_get h hfit junk j h1 h2

/-- `queue_elt_t`: the null pointer, the pointer of all ones, or a task. -/
inductive QueueElt (α : Type) where
  | EMPTY
  | ABORT
  | task (t : α)
  deriving DecidableEq, Repr

end Libseff.CircularArrays
