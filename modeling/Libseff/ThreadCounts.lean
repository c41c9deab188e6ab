import Mathlib.Algebra.BigOperators.Group.Finset.Piecewise
import Mathlib.Data.Fintype.Basic

namespace Libseff.ThreadCounts

variable {ι κ : Type*} [Fintype ι]

def count (p : κ → Bool) (f : ι → κ) : ℕ := (Finset.univ.filter fun i => p (f i) = true).card

theorem count_eq_sum (p : κ → Bool) (f : ι → κ) : count p f = ∑ i, (p (f i)).toNat := by
  rw [count, Finset.card_filter]
  apply Finset.sum_congr rfl
  intro i _
  cases p (f i) <;> rfl

theorem count_eq_zero {p : κ → Bool} {f : ι → κ} (h : ∀ i, p (f i) = false) : count p f = 0 := by
  rw [count_eq_sum]
  apply Finset.sum_eq_zero
  intro i _
  rw [h i]
  rfl

theorem count_pos {p : κ → Bool} {f : ι → κ} {i : ι} (h : p (f i) = true) : 0 < count p f :=
  Finset.card_pos.mpr ⟨i, Finset.mem_filter.mpr ⟨Finset.mem_univ i, h⟩⟩

theorem sum_update [DecidableEq ι] {M : Type*} [AddCommMonoid M] (f : ι → M) (i : ι) (x : M) :
    ∑ j, Function.update f i x j + f i = ∑ j, f j + x := by
  have hrest : ∑ j ∈ Finset.univ.erase i, Function.update f i x j =
      ∑ j ∈ Finset.univ.erase i, f j := by
    apply Finset.sum_congr rfl
    intro j hj
    rw [Function.update_of_ne (Finset.ne_of_mem_erase hj)]
  rw [← Finset.add_sum_erase _ _ (Finset.mem_univ i), ← Finset.add_sum_erase _ f
    (Finset.mem_univ i), hrest, Function.update_self, add_right_comm, add_comm x, add_right_comm]

theorem sum_comp_update [DecidableEq ι] {M : Type*} [AddCommMonoid M] (g : κ → M) (f : ι → κ)
    (i : ι) (x : κ) :
    ∑ j, g (Function.update f i x j) + g (f i) = ∑ j, g (f j) + g x := by
  have h := sum_update (g ∘ f) i (g x)
  rwa [← Function.comp_update] at h

theorem count_update [DecidableEq ι] (p : κ → Bool) (f : ι → κ) (i : ι) (x : κ) :
    count p (Function.update f i x) + (p (f i)).toNat = count p f + (p x).toNat := by
  rw [count_eq_sum, count_eq_sum]
  exact sum_comp_update (fun y => (p y).toNat) f i x

end Libseff.ThreadCounts
