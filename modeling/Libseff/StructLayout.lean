import Mathlib.Data.Nat.ModEq

namespace Libseff.StructLayout

mutual

/-- A type of C as its declarations are laid out: an integer has a size and an
alignment of `2 ^ log` bytes. -/
inductive CType where
  | int (log : Fin 4)
  | pointer
  | array (t : CType) (n : ℕ)
  | function
  | incomplete
  | struct (members : CMembers)

inductive CMembers where
  | nil
  | cons (t : CType) (rest : CMembers)

end

def roundUp (n a : ℕ) : ℕ := (n + a - 1) / a * a

mutual

def alignLog : CType → ℕ
  | .int log => log.val
  | .pointer => 3
  | .array t _ => alignLog t
  | .function => 0
  | .incomplete => 0
  | .struct members => membersAlignLog members

def membersAlignLog : CMembers → ℕ
  | .nil => 0
  | .cons t rest => max (alignLog t) (membersAlignLog rest)

end

def alignOf (t : CType) : ℕ := 2 ^ alignLog t

def membersAlign (members : CMembers) : ℕ := 2 ^ membersAlignLog members

mutual

/-- `none` is a type that no member of a struct may have. -/
def sizeof : CType → Option ℕ
  | .int log => some (2 ^ log.val)
  | .pointer => some 8
  | .array t n => (sizeof t).map fun s => n * s
  | .function => none
  | .incomplete => none
  | .struct members => (place members 0).map fun p => roundUp p.2 (membersAlign members)

def place : CMembers → ℕ → Option (List ℕ × ℕ)
  | .nil, position => some ([], position)
  | .cons t rest, position =>
    (sizeof t).bind fun s =>
      (place rest (roundUp position (alignOf t) + s)).map fun p =>
        (roundUp position (alignOf t) :: p.1, p.2)

end

theorem roundUp_of_dvd {n a : ℕ} (ha : 0 < a) (h : a ∣ n) : roundUp n a = n := by
  obtain ⟨k, rfl⟩ := h
  have hdiv : (a * k + a - 1) / a = k := by
    rw [Nat.add_sub_assoc ha, Nat.mul_add_div ha, Nat.div_eq_of_lt (by omega), Nat.add_zero]
  rw [roundUp, hdiv, Nat.mul_comm]

theorem le_roundUp {a : ℕ} (ha : 0 < a) (n : ℕ) : n ≤ roundUp n a := by
  have hmod := Nat.div_add_mod (n + a - 1) a
  have hlt := Nat.mod_lt (n + a - 1) ha
  rw [Nat.mul_comm] at hmod
  rw [roundUp]
  omega

theorem dvd_roundUp (n a : ℕ) : a ∣ roundUp n a := Nat.dvd_mul_left a _

theorem alignOf_pos (t : CType) : 0 < alignOf t := Nat.two_pow_pos _

mutual

theorem alignLog_le (t : CType) : alignLog t ≤ 3 := by
  cases t with
  | int log => exact Nat.le_of_lt_succ log.isLt
  | pointer => exact le_rfl
  | array t n => exact alignLog_le t
  | function => exact Nat.zero_le 3
  | incomplete => exact Nat.zero_le 3
  | struct members => exact membersAlignLog_le members

theorem membersAlignLog_le (members : CMembers) : membersAlignLog members ≤ 3 := by
  cases members with
  | nil => exact Nat.zero_le 3
  | cons t rest => exact max_le (alignLog_le t) (membersAlignLog_le rest)

end

theorem alignOf_dvd_sizeof (t : CType) {s : ℕ} (h : sizeof t = some s) : alignOf t ∣ s := by
  cases t with
  | int log =>
    cases h
    exact dvd_rfl
  | pointer =>
    cases h
    exact dvd_rfl
  | array t n =>
    obtain ⟨s', hs, rfl⟩ := Option.map_eq_some_iff.mp h
    exact (alignOf_dvd_sizeof t hs).mul_left n
  | function => cases h
  | incomplete => cases h
  | struct members =>
    obtain ⟨p, -, rfl⟩ := Option.map_eq_some_iff.mp h
    exact dvd_roundUp _ _

theorem roundUp_of_eight_dvd {n k : ℕ} (hk : k ≤ 3) (h : 8 ∣ n) : roundUp n (2 ^ k) = n :=
  roundUp_of_dvd (Nat.two_pow_pos k) ((Nat.pow_dvd_pow 2 hk).trans h)

end Libseff.StructLayout
