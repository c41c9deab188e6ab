import Libseff.SegmentRelease

namespace Libseff.SegmentChains

open StackSegments SegmentLists SegmentRelease

variable {κ : Type*} [DecidableEq κ]

def chainOf (frame_ptr : κ → ℕ) (frames cached : κ → List ℕ) (k : κ) : List ℕ :=
  ((frames k).reverse ++ [frame_ptr k]) ++ cached k

structure Chains (born : κ → Prop) (heap : Heap) (chain : κ → List ℕ) : Prop where
  segments : ∀ k, born k → Segments heap (chain k)
  disjoint : ∀ j k, born j → born k → j ≠ k → (chain j).Disjoint (chain k)

variable {born born' : κ → Prop} {heap heap' : Heap} {chain : κ → List ℕ}

omit [DecidableEq κ] in
theorem Chains.mono (h : Chains born heap chain) (hborn : ∀ k, born' k → born k) :
    Chains born' heap chain :=
  ⟨fun k hk => h.segments k (hborn k hk),
    fun j k hj hk => h.disjoint j k (hborn j hj) (hborn k hk)⟩

theorem chainOf_update (frame_ptr : κ → ℕ) (frames cached : κ → List ℕ) (j : κ) (z : ℕ)
    (l t : List ℕ) :
    chainOf (Function.update frame_ptr j z) (Function.update frames j l)
        (Function.update cached j t) =
      Function.update (chainOf frame_ptr frames cached) j ((l.reverse ++ [z]) ++ t) := by
  funext k
  by_cases hk : k = j
  · subst hk
    simp only [chainOf, Function.update_self]
  · simp only [chainOf, Function.update_of_ne hk]

theorem chains_update (h : Chains born heap chain) {j : κ} {segment : ℕ} {l : List ℕ}
    (hf : fresh heap segment) (hborn : ∀ k, k ≠ j → born' k → born k) (hseg : Segments heap' l)
    (hl : ∀ c ∈ l, c = segment ∨ (born j ∧ c ∈ chain j))
    (hout : ∀ c, (born j → c ∉ chain j) → c ≠ segment → heap' c = heap c) :
    Chains born' heap' (Function.update chain j l) := by
  have hne : ∀ k, born k → ∀ c ∈ chain k, c ≠ segment := by
    rintro k hk c hc rfl
    have hsome := (h.segments k hk).allocated c hc
    rw [hf.2] at hsome
    cases hsome
  have hdisj : ∀ k, k ≠ j → born k → l.Disjoint (chain k) := by
    intro k hkj hk c hc hck
    obtain rfl | ⟨hj, hcj⟩ := hl c hc
    · exact hne k hk c hck rfl
    · exact h.disjoint j k hj hk (Ne.symm hkj) hcj hck
  refine ⟨fun k hk => ?_, fun i k hi hk hik => ?_⟩
  · by_cases hkj : k = j
    · subst hkj
      rwa [Function.update_self]
    · rw [Function.update_of_ne hkj]
      have hk := hborn k hkj hk
      refine segments_congr (h.segments k hk) fun c hc => hout c (fun hj hcj => ?_) (hne k hk c hc)
      exact h.disjoint j k hj hk (Ne.symm hkj) hcj hc
  · by_cases hij : i = j
    · subst hij
      rw [Function.update_self, Function.update_of_ne (Ne.symm hik)]
      exact hdisj k (Ne.symm hik) (hborn k (Ne.symm hik) hk)
    · by_cases hkj : k = j
      · subst hkj
        rw [Function.update_self, Function.update_of_ne hij]
        exact List.disjoint_symm (hdisj i hij (hborn i hij hi))
      · rw [Function.update_of_ne hij, Function.update_of_ne hkj]
        exact h.disjoint i k (hborn i hij hi) (hborn k hkj hk) hik

variable {frame_ptr : κ → ℕ} {frames cached : κ → List ℕ}

theorem chains_init (h : Chains born heap (chainOf frame_ptr frames cached)) {j : κ} {segment : ℕ}
    (hf : fresh heap segment) (hborn : ∀ k, k ≠ j → born' k → born k) (size : ℕ) :
    Chains born' (initSegment segment size heap) (chainOf (Function.update frame_ptr j segment)
      (Function.update frames j []) (Function.update cached j [])) := by
  rw [chainOf_update]
  refine chains_update h hf hborn (segments_init hf size) (fun c hc => ?_) fun c _ hc => ?_
  · exact .inl (List.mem_singleton.mp hc)
  · exact init_outside hc

theorem chains_allocate (h : Chains born heap (chainOf frame_ptr frames cached)) {j : κ}
    (hj : born j) {segment : ℕ} (hf : fresh heap segment)
    (min_segment_size frame_size param_size : ℕ) : ∃ f t,
    seffMemAllocateFrame min_segment_size segment frame_size param_size heap (frame_ptr j) =
      some f ∧
    Chains born f.heap (chainOf (Function.update frame_ptr j f.frame_ptr)
      (Function.update frames j (frame_ptr j :: frames j)) (Function.update cached j t)) := by
  obtain ⟨f, hs, hcases, hout⟩ :=
    allocate_spec (h.segments j hj) hf min_segment_size frame_size param_size
  obtain ⟨hptr, hseg⟩ | ⟨hheap, t, ht⟩ := hcases
  · refine ⟨f, cached j, hs, ?_⟩
    have hl : ((frame_ptr j :: frames j).reverse ++ [f.frame_ptr]) ++ cached j =
        ((frames j).reverse ++ [frame_ptr j]) ++ segment :: cached j := by
      simp [hptr]
    rw [chainOf_update, hl]
    refine chains_update h hf (fun _ _ hk => hk) hseg (fun c hc => ?_) fun c hc => hout c (hc hj)
    obtain rfl | hc := List.mem_cons.mp (List.perm_middle.mem_iff.mp hc)
    · exact .inl rfl
    · exact .inr ⟨hj, hc⟩
  · refine ⟨f, t, hs, ?_⟩
    have hl : ((frame_ptr j :: frames j).reverse ++ [f.frame_ptr]) ++ t =
        chainOf frame_ptr frames cached j := by
      simp [chainOf, ht]
    rw [chainOf_update, hl, Function.update_eq_self, hheap]
    exact h

theorem chains_release (h : Chains born heap (chainOf frame_ptr frames cached)) {j : κ} {y : ℕ}
    {l : List ℕ} (hy : frames j = y :: l) :
    Chains born heap (chainOf (Function.update frame_ptr j y) (Function.update frames j l)
      (Function.update cached j (frame_ptr j :: cached j))) := by
  have hl : (l.reverse ++ [y]) ++ frame_ptr j :: cached j = chainOf frame_ptr frames cached j := by
    simp [chainOf, hy]
  rw [chainOf_update, hl, Function.update_eq_self]
  exact h

end Libseff.SegmentChains
