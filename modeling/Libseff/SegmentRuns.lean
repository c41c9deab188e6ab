import Libseff.SegmentRelease

namespace Libseff.SegmentRuns

open LinkedLists TransitionRuns StackSegments SegmentLists SegmentRelease

def chain (s : State) (cached : List ℕ) : List ℕ := (s.frames.reverse ++ [s.frame_ptr]) ++ cached

structure Inv (first : ℕ) (tr : List Event) (s : State) (cached : List ℕ) : Prop where
  segments : Segments s.heap (chain s cached)
  perm : (chain s cached).Perm (allocated first tr)

theorem allocated_append (first : ℕ) (tr : List Event) (e : Event) :
    allocated first (tr ++ [e]) = allocated first tr ++ e.toList := by
  cases e <;> simp [allocated]

theorem inv_allocate (min_segment_size : ℕ) {first : ℕ} {tr : List Event} {s : State}
    {cached : List ℕ} (h : Inv first tr s cached) {segment : ℕ} (hf : fresh s.heap segment)
    (frame_size param_size : ℕ) :
    ∃ s' e cached', step min_segment_size s (.allocate segment frame_size param_size) =
      some (s', e) ∧ Inv first (tr ++ [e]) s' cached' ∧ s'.frames = s.frame_ptr :: s.frames := by
  obtain ⟨f, hstep, ⟨hptr, hseg⟩ | ⟨hheap, t, rfl⟩, -⟩ :=
    allocate_spec h.segments hf min_segment_size frame_size param_size
  · have hsome : (f.heap segment).isSome := hseg.allocated segment (by simp)
    refine ⟨⟨f.heap, f.frame_ptr, s.frame_ptr :: s.frames⟩, some segment, cached, ?_, ?_, rfl⟩
    · simp [step, hstep, hsome]
    · have hchain : chain ⟨f.heap, f.frame_ptr, s.frame_ptr :: s.frames⟩ cached =
          (s.frames.reverse ++ [s.frame_ptr]) ++ segment :: cached := by
        simp [chain, hptr]
      refine ⟨hchain ▸ hseg, ?_⟩
      rw [hchain, allocated_append]
      exact List.perm_middle.trans ((h.perm.cons segment).trans
        (List.perm_append_singleton segment _).symm)
  · have hnone : (f.heap segment).isSome = false := by rw [hheap, hf.2]; rfl
    refine ⟨⟨f.heap, f.frame_ptr, s.frame_ptr :: s.frames⟩, none, t, ?_, ?_, rfl⟩
    · simp [step, hstep, hnone]
    · have hchain : chain ⟨f.heap, f.frame_ptr, s.frame_ptr :: s.frames⟩ t =
          chain s (f.frame_ptr :: t) := by
        simp [chain]
      refine ⟨?_, ?_⟩
      · rw [hchain, hheap]
        exact h.segments
      · rw [hchain, allocated_append]
        simpa using h.perm

theorem inv_release (min_segment_size : ℕ) {first : ℕ} {tr : List Event} {s : State}
    {cached : List ℕ} (h : Inv first tr s cached) (hs : s.frames ≠ []) :
    ∃ s' e, step min_segment_size s .release = some (s', e) ∧
      Inv first (tr ++ [e]) s' (s.frame_ptr :: cached) ∧ s.frames = s'.frame_ptr :: s'.frames := by
  obtain ⟨heap, z, frames⟩ := s
  obtain ⟨y, frames, rfl⟩ := List.exists_cons_of_ne_nil hs
  obtain ⟨-, -, hrelease⟩ := release_spec h.segments
  have hchain : chain ⟨heap, y, frames⟩ (z :: cached) = chain ⟨heap, z, y :: frames⟩ cached := by
    simp [chain]
  refine ⟨⟨heap, y, frames⟩, none, ?_, ⟨hchain ▸ h.segments, ?_⟩, rfl⟩
  · simp [step, hrelease]
  · rw [hchain, allocated_append]
    simpa using h.perm

theorem run_inv {min_segment_size first : ℕ} {tr : List Event} {s : State}
    (h : Run (segmentSystem min_segment_size first) tr s) : ∃ cached, Inv first tr s cached := by
  refine Run.invariant (fun tr s => ∃ cached, Inv first tr s cached) ?_ ?_ h
  · rintro s ⟨heap, frame_size, hf, rfl⟩
    exact ⟨[], segments_init hf _, List.Perm.refl _⟩
  · rintro tr s a s' e ⟨cached, hi⟩ hm hs
    cases a with
    | allocate segment frame_size param_size =>
      obtain ⟨s1, e1, cached', h1, h2, -⟩ :=
        inv_allocate min_segment_size hi hm frame_size param_size
      cases h1.symm.trans hs
      exact ⟨cached', h2⟩
    | release =>
      obtain ⟨s1, e1, h1, h2, -⟩ := inv_release min_segment_size hi hm
      cases h1.symm.trans hs
      exact ⟨_, h2⟩

/-- At every point of a history of frames: the blocks taken from `malloc` form
one doubly linked list that contains the current one, an allocation returns the
block behind the current one and a release goes back to it, and releasing the
coroutine terminates and frees every block once and no other. -/
theorem segments_run {min_segment_size first : ℕ} {tr : List Event} {s : State}
    (h : Run (segmentSystem min_segment_size first) tr s) :
    ∃ l : List ℕ, l.Perm (allocated first tr) ∧ l.Nodup ∧
      (∀ a ∈ l, a ≠ NULL ∧ (s.heap a).isSome) ∧
      DoublyLinked (prevOf s.heap) (nextOf s.heap) NULL NULL l ∧ s.frame_ptr ∈ l ∧
      (∀ segment frame_size param_size, fresh s.heap segment → ∃ s' e,
        step min_segment_size s (.allocate segment frame_size param_size) = some (s', e) ∧
        nextOf s'.heap s.frame_ptr = s'.frame_ptr ∧ prevOf s'.heap s'.frame_ptr = s.frame_ptr ∧
        s'.frames = s.frame_ptr :: s.frames) ∧
      (s.frames ≠ [] → ∃ s' e, step min_segment_size s .release = some (s', e) ∧
        s.frames = s'.frame_ptr :: s'.frames) ∧
      ∀ fuel, l.length < fuel → seffCoroutineRelease fuel s.heap s.frame_ptr =
        some (fun a => if a ∈ l then none else s.heap a, l) := by
  obtain ⟨cached, hi⟩ := run_inv h
  refine ⟨chain s cached, hi.perm, hi.segments.nodup,
    fun a ha => ⟨hi.segments.ne_null a ha, hi.segments.allocated a ha⟩, hi.segments.linked,
    by simp [chain], ?_, ?_, fun fuel hfuel => release_eq hi.segments hfuel⟩
  · intro segment frame_size param_size hf
    obtain ⟨s', e, cached', hs, hi', hframes⟩ :=
      inv_allocate min_segment_size hi hf frame_size param_size
    have hlinked := hi'.segments.linked
    rw [chain, hframes, doublyLinked_append, List.reverse_cons, doublyLinked_append,
      doublyLinked_append] at hlinked
    obtain ⟨⟨⟨-, -, hnext, -⟩, hprev, -⟩, -⟩ := hlinked
    rw [List.getLastD_concat] at hprev
    exact ⟨s', e, hs, hnext, hprev, hframes⟩
  · intro hs
    obtain ⟨s', e, h1, -, h2⟩ := inv_release min_segment_size hi hs
    exact ⟨s', e, h1, h2⟩

end Libseff.SegmentRuns
