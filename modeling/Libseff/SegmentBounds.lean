import Libseff.InsertionRoom
import Libseff.SegmentLimits

namespace Libseff.SegmentBounds

open TransitionRuns StackSegments SegmentLists SegmentRelease SegmentRuns SegmentLimits
  InsertionRoom

def Bounded (min_segment_size : ℕ) (sizes : Finset ℕ) (depth : ℕ) (s : State) : Action → Prop
  | .allocate _ frame_size param_size =>
    newSize min_segment_size frame_size param_size ∈ sizes ∧ s.frames.length < depth
  | .release => True

def boundedSystem (min_segment_size first : ℕ) (sizes : Finset ℕ) (depth : ℕ) :
    System State Action Event :=
  (segmentSystem min_segment_size first).restrict (Bounded min_segment_size sizes depth)

theorem addSize_le_newSize (min_segment_size frame_size param_size : ℕ) :
    addSize frame_size param_size ≤ newSize min_segment_size frame_size param_size := by
  simp only [newSize]
  split <;> omega

theorem next_of_taken {min_segment_size segment frame_size param_size frame_ptr : ℕ}
    {heap : Heap} {f : Frame} (hfresh : heap segment = none)
    (h : seffMemAllocateFrame min_segment_size segment frame_size param_size heap frame_ptr =
      some f) (htaken : (f.heap segment).isSome) :
    nextOf heap frame_ptr = NULL ∨
      spaceOf heap (nextOf heap frame_ptr) < addSize frame_size param_size := by
  simp only [seffMemAllocateFrame, Option.bind_eq_bind, Option.bind_eq_some_iff] at h
  obtain ⟨current, hcurrent, h⟩ := h
  have hnext : nextOf heap frame_ptr = current.next := by rw [nextOf, hcurrent]; rfl
  rw [hnext]
  split at h
  · rename_i hnull
    exact .inl hnull
  · obtain ⟨next, hn, h⟩ := Option.bind_eq_some_iff.mp h
    have hsize : spaceOf heap current.next = next.size := by rw [spaceOf, hn]; rfl
    rw [hsize]
    split at h
    · rename_i hlt
      exact .inr hlt
    · obtain rfl := enterSegment_eq h
      have hnone : (heap segment).isSome := htaken
      rw [hfresh] at hnone
      cases hnone

/-- For each block behind the first one, the number of sizes that are greater. -/
def heights (sizes : Finset ℕ) (heap : Heap) (l : List ℕ) : List ℕ :=
  l.map fun a => above sizes (spaceOf heap a)

def Roomy (sizes : Finset ℕ) (depth first : ℕ) (tr : List Event) (s : State) (cached : List ℕ) :
    Prop :=
  (allocated first tr).length + room sizes.card depth (heights sizes s.heap (chain s cached).tail) ≤
    (sizes.card + depth).choose depth

theorem heights_congr {sizes : Finset ℕ} {heap heap' : Heap} {l : List ℕ}
    (h : ∀ a ∈ l, spaceOf heap' a = spaceOf heap a) :
    heights sizes heap' l = heights sizes heap l :=
  List.map_congr_left fun a ha => by rw [h a ha]

theorem chain_tail (s : State) (cached : List ℕ) :
    (chain s cached).tail = (s.frames.reverse ++ [s.frame_ptr]).tail ++ cached :=
  List.tail_append_of_ne_nil (by simp)

theorem room_taken {sizes : Finset ℕ} {depth : ℕ} {heap heap' : Heap} {pre cached : List ℕ}
    {segment : ℕ} (hsize : spaceOf heap' segment ∈ sizes)
    (hold : ∀ a ∈ pre ++ cached, spaceOf heap' a = spaceOf heap a)
    (hhead : ∀ b t, cached = b :: t → spaceOf heap b < spaceOf heap' segment)
    (hdepth : pre.length < depth) :
    room sizes.card depth (heights sizes heap' (pre ++ segment :: cached)) <
      room sizes.card depth (heights sizes heap (pre ++ cached)) := by
  have hheights : heights sizes heap' (pre ++ segment :: cached) =
      heights sizes heap pre ++ above sizes (spaceOf heap' segment) ::
        heights sizes heap cached := by
    have hpre : heights sizes heap' pre = heights sizes heap pre :=
      heights_congr fun a ha => hold a (List.mem_append_left cached ha)
    have hcached : heights sizes heap' cached = heights sizes heap cached :=
      heights_congr fun a ha => hold a (List.mem_append_right pre ha)
    rw [← hpre, ← hcached]
    simp [heights]
  have happend : heights sizes heap (pre ++ cached) =
      heights sizes heap pre ++ heights sizes heap cached := List.map_append
  rw [hheights, happend]
  refine room_insert ?_ (by simpa [heights] using hdepth)
  cases cached with
  | nil => exact above_lt_card hsize
  | cons b t => exact above_lt_above hsize (hhead b t rfl)

theorem roomy_allocate {min_segment_size first depth : ℕ} {sizes : Finset ℕ} {tr : List Event}
    {s s' : State} {e : Event} {cached : List ℕ} (h : Inv first tr s cached)
    (hroom : Roomy sizes depth first tr s cached) {segment frame_size param_size : ℕ}
    (hf : fresh s.heap segment)
    (hsize : newSize min_segment_size frame_size param_size ∈ sizes)
    (hdepth : s.frames.length < depth)
    (hs : step min_segment_size s (.allocate segment frame_size param_size) = some (s', e)) :
    ∃ cached', Inv first (tr ++ [e]) s' cached' ∧ Roomy sizes depth first (tr ++ [e]) s' cached' := by
  obtain ⟨f, hstep, hcases, hout⟩ :=
    allocate_spec h.segments hf min_segment_size frame_size param_size
  have hchosen := allocate_chosen hf.2 hstep
  have he : some (s', e) = some (⟨f.heap, f.frame_ptr, s.frame_ptr :: s.frames⟩,
      if (f.heap segment).isSome then some segment else none) := by
    rw [← hs]
    simp [step, hstep]
  obtain ⟨hptr, hseg⟩ | ⟨hheap, t, rfl⟩ := hcases
  · have hsome : (f.heap segment).isSome := hseg.allocated segment (by simp)
    rw [if_pos hsome] at he
    cases he
    have hchain : chain ⟨f.heap, f.frame_ptr, s.frame_ptr :: s.frames⟩ cached =
        (s.frames.reverse ++ [s.frame_ptr]) ++ segment :: cached := by
      simp [chain, hptr]
    have htail : (chain ⟨f.heap, f.frame_ptr, s.frame_ptr :: s.frames⟩ cached).tail =
        (s.frames.reverse ++ [s.frame_ptr]).tail ++ segment :: cached := by
      rw [hchain]
      exact List.tail_append_of_ne_nil (by simp)
    refine ⟨cached, ⟨hchain ▸ hseg, ?_⟩, ?_⟩
    · rw [hchain, allocated_append]
      exact List.perm_middle.trans ((h.perm.cons segment).trans
        (List.perm_append_singleton segment _).symm)
    · have hnew := hchosen.taken hsome
      have hlt : room sizes.card depth (heights sizes f.heap
            ((s.frames.reverse ++ [s.frame_ptr]).tail ++ segment :: cached)) <
          room sizes.card depth (heights sizes s.heap
            ((s.frames.reverse ++ [s.frame_ptr]).tail ++ cached)) := by
        refine room_taken (hnew ▸ hsize) (fun a ha => hchosen.outside a ?_) ?_ (by simpa)
        · rintro rfl
          have hmem : a ∈ chain s cached := by
            refine List.mem_of_mem_tail ?_
            rw [chain_tail]
            exact ha
          have hnone := h.segments.allocated a hmem
          rw [hf.2] at hnone
          cases hnone
        · rintro b t rfl
          have hnext : nextOf s.heap s.frame_ptr = b := next_eq_headD h.segments
          have hb : b ≠ NULL := h.segments.ne_null b (by simp [chain])
          have hsmall := next_of_taken hf.2 hstep hsome
          rw [hnext] at hsmall
          rw [hnew]
          exact (hsmall.resolve_left hb).trans_le (addSize_le_newSize _ _ _)
      rw [Roomy, chain_tail] at hroom
      rw [Roomy, htail, allocated_append, List.length_append]
      simp only [Option.toList_some, List.length_singleton]
      omega
  · have hnone : ¬ (f.heap segment).isSome := by
      rw [hheap, hf.2]
      exact Bool.false_ne_true
    rw [if_neg hnone] at he
    cases he
    have hchain : chain ⟨f.heap, f.frame_ptr, s.frame_ptr :: s.frames⟩ t =
        chain s (f.frame_ptr :: t) := by
      simp [chain]
    refine ⟨t, ⟨?_, ?_⟩, ?_⟩
    · rw [hchain, hheap]
      exact h.segments
    · rw [hchain, allocated_append]
      simpa using h.perm
    · rw [Roomy, hchain, hheap, allocated_append, Option.toList_none, List.append_nil]
      exact hroom

theorem run_roomy {min_segment_size first depth : ℕ} {sizes : Finset ℕ} {tr : List Event}
    {s : State} (h : Run (boundedSystem min_segment_size first sizes depth) tr s) :
    ∃ cached, Inv first tr s cached ∧ Roomy sizes depth first tr s cached := by
  refine Run.invariant (fun tr s => ∃ cached, Inv first tr s cached ∧
    Roomy sizes depth first tr s cached) ?_ ?_ h
  · rintro s ⟨heap, frame_size, hf, rfl⟩
    refine ⟨[], ⟨segments_init hf _, List.Perm.refl _⟩, ?_⟩
    have hpos := choose_pos sizes.card depth
    have hroom : room sizes.card depth [] = (sizes.card + depth).choose depth - 1 :=
      room_nil sizes.card depth
    simp only [Roomy, chain, heights, allocated, List.reverse_nil, List.nil_append,
      List.append_nil, List.tail_cons, List.map_nil, List.filterMap_nil, List.length_singleton,
      hroom]
    omega
  · rintro tr s a s' e ⟨cached, hi, hroom⟩ ⟨hm, hbounded⟩ hs
    cases a with
    | allocate segment frame_size param_size =>
      exact roomy_allocate hi hroom hm hbounded.1 hbounded.2 hs
    | release =>
      obtain ⟨s1, e1, h1, hi', hframes⟩ := inv_release min_segment_size hi hm
      have hstep := h1.symm.trans hs
      obtain ⟨p, -, hp⟩ := Option.bind_eq_some_iff.mp hs
      cases hstep
      cases hp
      refine ⟨s.frame_ptr :: cached, hi', ?_⟩
      have hreverse : s.frames.reverse = s.frames.tail.reverse ++ [p.1] := by
        rw [← List.reverse_cons]
        exact congrArg List.reverse hframes
      have hchain : chain ⟨s.heap, p.1, s.frames.tail⟩ (s.frame_ptr :: cached) = chain s cached := by
        simp [chain, hreverse]
      rw [Roomy, hchain, allocated_append, Option.toList_none, List.append_nil]
      exact hroom

/-- A coroutine whose calls never nest deeper than `depth` and ask for at most
`n` sizes of segments never holds more than `(n + depth).choose depth` segments,
however long it runs, where its sizes do not wrap around. -/
theorem segments_bounded {min_segment_size first depth : ℕ} {sizes : Finset ℕ} {tr : List Event}
    {s : State} (h : Run (boundedSystem min_segment_size first sizes depth) tr s) :
    (allocated first tr).length ≤ (sizes.card + depth).choose depth := by
  obtain ⟨cached, -, hroom⟩ := run_roomy h
  exact (Nat.le_add_right _ _).trans hroom

theorem segments_bounded_six : ∃ tr s, Run (boundedSystem 0 16 {32, 64} 2) tr s ∧
    (allocated 16 tr).length = 6 ∧ (allocated 16 tr).length ≤ (2 + 2).choose 2 := by
  have h0 : Run (boundedSystem 0 16 {32, 64} 2) [] _ :=
    Run.start ⟨fun _ => none, 64, ⟨by decide, rfl⟩, rfl⟩
  have h1 := Run.next h0 (a := Action.allocate 400 24 8)
    ⟨⟨by decide, rfl⟩, by decide, by decide⟩ rfl
  have h2 := Run.next h1 (a := Action.allocate 800 24 8)
    ⟨⟨by decide, rfl⟩, by decide, by decide⟩ rfl
  have h3 := Run.next h2 (a := Action.release) ⟨List.cons_ne_nil _ _, trivial⟩ rfl
  have h4 := Run.next h3 (a := Action.allocate 1200 56 8)
    ⟨⟨by decide, rfl⟩, by decide, by decide⟩ rfl
  have h5 := Run.next h4 (a := Action.release) ⟨List.cons_ne_nil _ _, trivial⟩ rfl
  have h6 := Run.next h5 (a := Action.release) ⟨List.cons_ne_nil _ _, trivial⟩ rfl
  have h7 := Run.next h6 (a := Action.allocate 1600 56 8)
    ⟨⟨by decide, rfl⟩, by decide, by decide⟩ rfl
  have h8 := Run.next h7 (a := Action.allocate 2000 56 8)
    ⟨⟨by decide, rfl⟩, by decide, by decide⟩ rfl
  exact ⟨_, _, h8, rfl, segments_bounded h8⟩

end Libseff.SegmentBounds
