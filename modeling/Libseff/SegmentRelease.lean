import Libseff.SegmentLists

namespace Libseff.SegmentRelease

open LinkedLists TransitionRuns StackSegments SegmentLists

theorem segment_of_isSome {heap : Heap} {a : ℕ} (h : (heap a).isSome) :
    ∃ size, heap a = some ⟨prevOf heap a, nextOf heap a, size⟩ := by
  obtain ⟨s, hs⟩ := Option.isSome_iff_exists.mp h
  exact ⟨s.size, by simp [prevOf, nextOf, hs]⟩

theorem enterSegment_of_isSome {heap : Heap} {a : ℕ} (h : (heap a).isSome) (param_size : ℕ) :
    ∃ f, enterSegment heap a param_size = some f ∧ f.frame_ptr = a ∧ f.heap = heap := by
  obtain ⟨s, hs⟩ := Option.isSome_iff_exists.mp h
  exact ⟨_, by rw [enterSegment, hs]; rfl, rfl, rfl⟩

theorem allocate_spec {heap : Heap} {k cached : List ℕ} {z segment : ℕ}
    (h : Segments heap ((k ++ [z]) ++ cached)) (hf : fresh heap segment)
    (min_segment_size frame_size param_size : ℕ) :
    ∃ f, seffMemAllocateFrame min_segment_size segment frame_size param_size heap z = some f ∧
      ((f.frame_ptr = segment ∧ Segments f.heap ((k ++ [z]) ++ segment :: cached)) ∨
        (f.heap = heap ∧ ∃ t, cached = f.frame_ptr :: t)) ∧
      ∀ c, c ∉ (k ++ [z]) ++ cached → c ≠ segment → f.heap c = heap c := by
  obtain ⟨size, hcurrent⟩ := segment_of_isSome (h.allocated z (by simp))
  have hlast := h.linked
  rw [doublyLinked_append, doublyLinked_append] at hlast
  obtain ⟨⟨-, -, hnext, -⟩, -⟩ := hlast
  rw [List.headD_nil] at hnext
  generalize hsize : (if addSize frame_size param_size < min_segment_size then min_segment_size
    else addSize frame_size param_size) = new_size
  cases cached with
  | nil =>
    rw [List.headD_nil] at hnext
    rw [List.append_nil] at h ⊢
    obtain ⟨heap', hl, hseg, hout⟩ := link_append h hf new_size
    obtain ⟨f, hf, hptr, hheap⟩ :=
      enterSegment_of_isSome (hseg.allocated segment (by simp)) param_size
    refine ⟨f, ?_, .inl ⟨hptr, hheap ▸ hseg⟩, hheap ▸ hout⟩
    simp only [seffMemAllocateFrame, hcurrent, hnext, hsize, hl, hf, Option.bind_eq_bind,
      Option.bind_some, if_true]
  | cons b t =>
    rw [List.headD_cons] at hnext
    have hb0 : b ≠ NULL := h.ne_null b (by simp)
    have hbsome := h.allocated b (by simp)
    obtain ⟨sizeb, hb⟩ := segment_of_isSome hbsome
    by_cases hlt : sizeb < addSize frame_size param_size
    · obtain ⟨heap1, heap', hl1, hl, hseg, hout⟩ := link_splice h hf new_size
      obtain ⟨f, hf, hptr, hheap⟩ :=
        enterSegment_of_isSome (hseg.allocated segment (by simp)) param_size
      refine ⟨f, ?_, .inl ⟨hptr, hheap ▸ hseg⟩, hheap ▸ hout⟩
      simp only [seffMemAllocateFrame, hcurrent, hnext, hsize, hb, hl1, hl, hf, hlt,
        Option.bind_eq_bind, Option.bind_some, if_true, if_neg hb0]
    · obtain ⟨f, hf, hptr, hheap⟩ := enterSegment_of_isSome hbsome param_size
      refine ⟨f, ?_, .inr ⟨hheap, t, by rw [hptr]⟩, fun c _ _ => congrFun hheap c⟩
      simp only [seffMemAllocateFrame, hcurrent, hnext, hb, hf, hlt, Option.bind_eq_bind,
        Option.bind_some, if_false, if_neg hb0]

theorem release_spec {heap : Heap} {l cached : List ℕ} {y z : ℕ}
    (h : Segments heap (((y :: l).reverse ++ [z]) ++ cached)) :
    prevOf heap z = y ∧ y ≠ NULL ∧
      seffMemReleaseFrame heap z = some (y, addSize y sizeofSegment) := by
  obtain ⟨size, hcurrent⟩ := segment_of_isSome (h.allocated z (by simp))
  have hlast := h.linked
  rw [doublyLinked_append, doublyLinked_append] at hlast
  obtain ⟨⟨-, hprev, -⟩, -⟩ := hlast
  simp only [List.reverse_cons, List.getLastD_concat] at hprev
  refine ⟨hprev, h.ne_null y (by simp), ?_⟩
  simp [seffMemReleaseFrame, hcurrent, hprev]

theorem firstSegment_eq {heap : Heap} {k cached : List ℕ} {z fuel : ℕ}
    (h : Segments heap ((k ++ [z]) ++ cached)) (hfuel : k.length < fuel) :
    firstSegment heap fuel z = some ((k ++ [z]).headD NULL) := by
  induction fuel generalizing k cached z with
  | zero => exact absurd hfuel (Nat.not_lt_zero _)
  | succ fuel ih =>
    have hz0 : z ≠ NULL := h.ne_null z (by simp)
    obtain ⟨size, hz⟩ := segment_of_isSome (h.allocated z (by simp))
    have hlast := h.linked
    rw [doublyLinked_append, doublyLinked_append] at hlast
    obtain ⟨⟨-, hprev, -⟩, -⟩ := hlast
    obtain rfl | ⟨k, y, rfl⟩ := k.eq_nil_or_concat'
    · rw [List.getLastD_nil] at hprev
      simp [firstSegment, hz0, hz, hprev]
    · rw [List.getLastD_concat] at hprev
      have hy0 : y ≠ NULL := h.ne_null y (by simp)
      have hrec : firstSegment heap fuel y = some ((k ++ [y]).headD NULL) := by
        have h' : Segments heap ((k ++ [y]) ++ z :: cached) := by simpa using h
        rw [List.length_append, List.length_singleton] at hfuel
        exact ih h' (by omega)
      simp only [firstSegment, hz0, hz, hprev, hy0, hrec, if_false, ne_eq, not_false_eq_true,
        if_true, Option.bind_eq_bind, Option.bind_some]
      rw [headD_append (k ++ [y]), headD_append, headD_append]
      rfl

theorem freeSegments_eq {heap : Heap} {l : List ℕ} {before fuel : ℕ}
    (hlinked : DoublyLinked (prevOf heap) (nextOf heap) NULL before l) (hnodup : l.Nodup)
    (hnull : ∀ a ∈ l, a ≠ NULL) (hsome : ∀ a ∈ l, (heap a).isSome) (hfuel : l.length < fuel) :
    freeSegments fuel heap (l.headD NULL) = some (fun a => if a ∈ l then none else heap a, l) := by
  induction l generalizing heap before fuel with
  | nil =>
    obtain ⟨fuel, rfl⟩ : ∃ n, fuel = n + 1 := ⟨fuel - 1, by simp at hfuel; omega⟩
    simp [freeSegments]
  | cons a t ih =>
    obtain ⟨fuel, rfl⟩ : ∃ n, fuel = n + 1 := ⟨fuel - 1, by omega⟩
    obtain ⟨-, hnext, ht⟩ := hlinked
    obtain ⟨hat, hnodup⟩ := List.nodup_cons.mp hnodup
    obtain ⟨size, ha⟩ := segment_of_isSome (hsome a List.mem_cons_self)
    have hne : ∀ b ∈ t, b ≠ a := fun b hb he => hat (he ▸ hb)
    have ht' : DoublyLinked (prevOf (Function.update heap a none))
        (nextOf (Function.update heap a none)) NULL a t :=
      doublyLinked_congr ht (fun b hb => by rw [prevOf, Function.update_of_ne (hne b hb), prevOf])
        fun b hb => by rw [nextOf, Function.update_of_ne (hne b hb), nextOf]
    have hsome' : ∀ b ∈ t, (Function.update heap a none b).isSome := by
      intro b hb
      rw [Function.update_of_ne (hne b hb)]
      exact hsome b (List.mem_cons_of_mem a hb)
    have hfuel' : t.length < fuel := by simpa using hfuel
    have hrec := ih ht' hnodup (fun b hb => hnull b (List.mem_cons_of_mem a hb)) hsome' hfuel'
    have hheap : (fun b => if b ∈ t then none else Function.update heap a none b) =
        fun b => if b ∈ a :: t then none else heap b := by
      funext b
      by_cases hba : b = a
      · subst hba
        simp [hat]
      · simp [hba]
    rw [hheap] at hrec
    simp only [freeSegments, List.headD_cons, hnull a List.mem_cons_self, ha, hnext, hrec,
      if_false, Option.bind_eq_bind, Option.bind_some]

theorem release_eq {heap : Heap} {k cached : List ℕ} {z fuel : ℕ}
    (h : Segments heap ((k ++ [z]) ++ cached))
    (hfuel : ((k ++ [z]) ++ cached).length < fuel) :
    seffCoroutineRelease fuel heap z = some
      (fun a => if a ∈ (k ++ [z]) ++ cached then none else heap a, (k ++ [z]) ++ cached) := by
  have hfirst : firstSegment heap fuel z = some (((k ++ [z]) ++ cached).headD NULL) := by
    rw [firstSegment_eq h (by simp at hfuel; omega), headD_append (k ++ [z])]
    cases k <;> rfl
  simp only [seffCoroutineRelease, hfirst, Option.bind_eq_bind, Option.bind_some]
  exact freeSegments_eq h.linked h.nodup h.ne_null h.allocated hfuel

end Libseff.SegmentRelease
