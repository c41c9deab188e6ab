import Mathlib.Data.Finset.Card
import Mathlib.Data.Finset.Filter
import Mathlib.Data.Nat.Choose.Basic

namespace Libseff.InsertionRoom

/-- How often an element can still be put into the first `k` places of a row, in
front of a smaller one or at the end: the row holds `l`, and an element is given
by the number of values that are greater than it, of `n` values in all. -/
def room (n : ℕ) : ℕ → List ℕ → ℕ
  | 0, _ => 0
  | k + 1, [] => (n + (k + 1)).choose (k + 1) - 1
  | k + 1, x :: l => (x + (k + 1)).choose (k + 1) - 1 + room n k l

theorem room_nil (n k : ℕ) : room n k [] = (n + k).choose k - 1 := by
  cases k with
  | zero => simp [room]
  | succ k => rfl

theorem choose_pos (x k : ℕ) : 0 < (x + k).choose k := Nat.choose_pos (Nat.le_add_left k x)

theorem choose_succ (x k : ℕ) :
    (x + (k + 1)).choose (k + 1) = (x + k).choose k + (x + k).choose (k + 1) :=
  Nat.choose_succ_succ (x + k) k

theorem room_succ (n k : ℕ) (l : List ℕ) : room n k l ≤ room n (k + 1) l := by
  induction k generalizing l with
  | zero => exact Nat.zero_le _
  | succ k ih =>
    cases l with
    | nil =>
      have h := choose_succ n (k + 1)
      simp only [room]
      omega
    | cons x l =>
      have h := choose_succ x (k + 1)
      have hl := ih l
      simp only [room] at hl ⊢
      omega

/-- An element that goes to the front takes one place, and the row behind it has
one place less. -/
theorem room_cons {n k y : ℕ} {l : List ℕ} (h : y < l.headD n) :
    room n (k + 1) (y :: l) < room n (k + 1) l := by
  have hy := choose_pos y (k + 1)
  have hle : ∀ x, y < x → (y + (k + 1)).choose (k + 1) ≤ (x + k).choose (k + 1) := by
    intro x hx
    exact Nat.choose_le_choose (k + 1) (by omega)
  cases l with
  | nil =>
    rw [List.headD_nil] at h
    have hn := hle n h
    have hsucc := choose_succ n k
    have hpos := choose_pos n k
    simp only [room, room_nil]
    omega
  | cons x l =>
    rw [List.headD_cons] at h
    have hx := hle x h
    have hsucc := choose_succ x k
    have hpos := choose_pos x k
    cases k with
    | zero =>
      simp only [room]
      omega
    | succ k =>
      have hl := room_succ n k l
      simp only [room] at hl ⊢
      omega

theorem room_insert {n k y : ℕ} {pre l : List ℕ} (h : y < l.headD n) (hk : pre.length < k) :
    room n k (pre ++ y :: l) < room n k (pre ++ l) := by
  induction pre generalizing k with
  | nil =>
    obtain ⟨k, rfl⟩ := Nat.exists_eq_succ_of_ne_zero (Nat.ne_of_gt hk)
    exact room_cons h
  | cons x pre ih =>
    obtain ⟨k, rfl⟩ := Nat.exists_eq_succ_of_ne_zero (Nat.ne_zero_of_lt hk)
    have hrec := ih (k := k) (Nat.lt_of_succ_lt_succ hk)
    simp only [List.cons_append, room]
    omega

def above (values : Finset ℕ) (a : ℕ) : ℕ := (values.filter fun b => a < b).card

theorem above_lt_card {values : Finset ℕ} {a : ℕ} (ha : a ∈ values) :
    above values a < values.card := by
  refine Finset.card_lt_card (Finset.filter_ssubset.mpr ⟨a, ha, ?_⟩)
  exact Nat.lt_irrefl a

theorem above_lt_above {values : Finset ℕ} {a b : ℕ} (hb : b ∈ values) (h : a < b) :
    above values b < above values a := by
  refine Finset.card_lt_card (Finset.ssubset_iff_subset_ne.mpr ⟨fun c hc => ?_, fun he => ?_⟩)
  · rw [Finset.mem_filter] at hc ⊢
    exact ⟨hc.1, h.trans hc.2⟩
  · have hmem : b ∈ values.filter fun c => b < c := he ▸ Finset.mem_filter.mpr ⟨hb, h⟩
    exact Nat.lt_irrefl b (Finset.mem_filter.mp hmem).2

end Libseff.InsertionRoom
