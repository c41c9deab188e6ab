import Libseff.SegmentRuns

namespace Libseff.SegmentLimits

open TransitionRuns StackSegments SegmentLists SegmentRelease SegmentRuns

def spaceOf (heap : Heap) (a : ℕ) : ℕ := (heap a).elim 0 Segment.size

/-- `offsetof(seff_stack_segment_t, padding)`; the fields before it are `prev`,
`next`, `size` and `canary`. -/
def offsetofPadding : ℕ := 32

def redZone : ℕ := 128

def blockEnd (heap : Heap) (a : ℕ) : ℕ := a + addSize (spaceOf heap a) sizeofSegment

/-- `malloc` returns aligned blocks whose end is an address. -/
structure Block (segment size : ℕ) : Prop where
  aligned : segment % 16 = 0
  fits : segment + addSize size sizeofSegment < 2 ^ 64

def newSize (min_segment_size frame_size param_size : ℕ) : ℕ :=
  let total := addSize frame_size param_size
  if total < min_segment_size then min_segment_size else total

def chosenSize (min_segment_size frame_size param_size : ℕ) (heap : Heap) (frame_ptr : ℕ) : ℕ :=
  let next := nextOf heap frame_ptr
  if next = NULL ∨ spaceOf heap next < addSize frame_size param_size then
    newSize min_segment_size frame_size param_size
  else spaceOf heap next

/-- The limit that `__morestack` publishes after an allocation. -/
def morestackLimit (f : Frame) : ℕ := subSize f.new_stack f.frame_size

def limitSystem (min_segment_size first : ℕ) : System State Action (State × Action) where
  init s := ∃ heap frame_size, fresh heap first ∧ Block first (addSize frame_size 16) ∧
    s = ⟨initSegment first (addSize frame_size 16) heap, first, []⟩
  may s a := mayRun s a ∧ match a with
    | .allocate segment frame_size param_size =>
      frame_size + param_size < 2 ^ 64 ∧
        Block segment (newSize min_segment_size frame_size param_size)
    | .release => True
  step s a := (step min_segment_size s a).map fun p => (p.1, (s, a))

/-- A limit in the data of a segment, with no stack pointer above it whose red
zone touches the fields of the header. -/
structure Limited (heap : Heap) (segment limit : ℕ) : Prop where
  data : segment + sizeofSegment ≤ limit
  inside : limit ≤ blockEnd heap segment
  red_zone : ∀ rsp, limit ≤ rsp → ∀ i, i < rsp → rsp ≤ i + redZone →
    segment + offsetofPadding ≤ i

structure FrameInside (frame_size param_size : ℕ) (f : Frame) : Prop where
  limited : Limited f.heap f.frame_ptr (morestackLimit f)
  space : morestackLimit f + frame_size ≤ f.new_stack
  aligned : f.new_stack % 16 = 0
  params : f.new_stack + param_size ≤ blockEnd f.heap f.frame_ptr

def LimitInside (min_segment_size : ℕ) (s : State) : Action → Prop
  | .allocate segment frame_size param_size => ∃ f,
    seffMemAllocateFrame min_segment_size segment frame_size param_size s.heap s.frame_ptr =
      some f ∧ FrameInside frame_size param_size f
  | .release => ∃ frame_ptr limit, seffMemReleaseFrame s.heap s.frame_ptr =
      some (frame_ptr, limit) ∧ Limited s.heap frame_ptr limit

/-- The alignment takes nothing away, and the size of the block has not wrapped
around. -/
def Fits (min_segment_size : ℕ) (s : State) : Action → Prop
  | .allocate _ frame_size param_size =>
    let size := chosenSize min_segment_size frame_size param_size s.heap s.frame_ptr
    size + sizeofSegment < 2 ^ 64 ∧ (size - param_size) % 16 = 0
  | .release => spaceOf s.heap (prevOf s.heap s.frame_ptr) + sizeofSegment < 2 ^ 64

theorem alignStack_eq (n : ℕ) : alignStack n = n - n % 16 := by
  induction n with
  | zero => rfl
  | succ n ih =>
    rw [alignStack]
    split
    · rw [ih]
      omega
    · omega

theorem addSize_of_lt {a b : ℕ} (h : a + b < 2 ^ 64) : addSize a b = a + b := Nat.mod_eq_of_lt h

theorem subSize_of_le {a b : ℕ} (hb : b ≤ a) (ha : a < 2 ^ 64) : subSize a b = a - b := by
  rw [subSize]
  omega

theorem link_space {a b : ℕ} {heap heap' : Heap} (h : link a b heap = some heap') (c : ℕ) :
    spaceOf heap' c = spaceOf heap c := by
  simp only [link, Option.bind_eq_bind, Option.bind_eq_some_iff, Option.some.injEq] at h
  obtain ⟨sa, ha, sb, hb, rfl⟩ := h
  have hupdate : ∀ (heap : Heap) (x y : Segment) (d : ℕ), heap d = some x → y.size = x.size →
      spaceOf (Function.update heap d (some y)) c = spaceOf heap c := by
    intro heap x y d hd hxy
    by_cases hcd : c = d
    · subst hcd
      simp [spaceOf, hd, hxy]
    · simp [spaceOf, Function.update_of_ne hcd]
  exact (hupdate _ sb { sb with prev := a } b hb rfl).trans
    (hupdate heap sa { sa with next := b } a ha rfl)

theorem init_space_outside {heap : Heap} {segment size c : ℕ} (h : c ≠ segment) :
    spaceOf (initSegment segment size heap) c = spaceOf heap c := by
  rw [spaceOf, init_outside h, spaceOf]

theorem init_space (heap : Heap) (segment size : ℕ) :
    spaceOf (initSegment segment size heap) segment = size := by
  rw [spaceOf, init_segment]
  rfl

theorem enterSegment_eq {heap : Heap} {a param_size : ℕ} {f : Frame}
    (h : enterSegment heap a param_size = some f) :
    f = ⟨heap, a, subSize (spaceOf heap a) param_size, alignStack
      (subSize (addSize (addSize a sizeofSegment) (spaceOf heap a)) param_size)⟩ := by
  simp only [enterSegment, Option.bind_eq_bind, Option.bind_eq_some_iff, Option.some.injEq] at h
  obtain ⟨s, hs, rfl⟩ := h
  simp only [spaceOf, hs, Option.elim_some]

structure Chosen (size new_size segment param_size : ℕ) (heap : Heap) (f : Frame) : Prop where
  space : spaceOf f.heap f.frame_ptr = size
  frame_size : f.frame_size = subSize size param_size
  new_stack : f.new_stack =
    alignStack (subSize (addSize (addSize f.frame_ptr sizeofSegment) size) param_size)
  taken : (f.heap segment).isSome → spaceOf f.heap segment = new_size
  outside : ∀ c, c ≠ segment → spaceOf f.heap c = spaceOf heap c

theorem chosen_of_enter {heap heap' : Heap} {a size new_size segment param_size : ℕ} {f : Frame}
    (h : enterSegment heap' a param_size = some f) (hsize : spaceOf heap' a = size)
    (htaken : (heap' segment).isSome → spaceOf heap' segment = new_size)
    (hout : ∀ c, c ≠ segment → spaceOf heap' c = spaceOf heap c) :
    Chosen size new_size segment param_size heap f := by
  obtain rfl := enterSegment_eq h
  exact ⟨hsize, by rw [hsize], by rw [hsize], htaken, hout⟩

theorem allocate_chosen {min_segment_size segment frame_size param_size frame_ptr : ℕ}
    {heap : Heap} {f : Frame} (hfresh : heap segment = none)
    (h : seffMemAllocateFrame min_segment_size segment frame_size param_size heap frame_ptr =
      some f) :
    Chosen (chosenSize min_segment_size frame_size param_size heap frame_ptr)
      (newSize min_segment_size frame_size param_size) segment param_size heap f := by
  simp only [seffMemAllocateFrame, Option.bind_eq_bind, Option.bind_eq_some_iff] at h
  obtain ⟨current, hcurrent, h⟩ := h
  have hnext : nextOf heap frame_ptr = current.next := by rw [nextOf, hcurrent]; rfl
  simp only [chosenSize, hnext]
  split at h
  · rename_i hnull
    obtain ⟨heap', hl, he⟩ := Option.bind_eq_some_iff.mp h
    have hspace := link_space hl
    rw [if_pos (.inl hnull)]
    exact chosen_of_enter he (by rw [hspace, init_space, newSize])
      (fun _ => by rw [hspace, init_space, newSize])
      fun c hc => by rw [hspace, init_space_outside hc]
  · rename_i hnull
    obtain ⟨next, hn, h⟩ := Option.bind_eq_some_iff.mp h
    have hsize : spaceOf heap current.next = next.size := by rw [spaceOf, hn]; rfl
    rw [hsize]
    split at h
    · rename_i hlt
      obtain ⟨heap1, hl1, h⟩ := Option.bind_eq_some_iff.mp h
      obtain ⟨heap', hl, he⟩ := Option.bind_eq_some_iff.mp h
      have hspace := fun c => (link_space hl c).trans (link_space hl1 c)
      rw [if_pos (.inr hlt)]
      exact chosen_of_enter he (by rw [hspace, init_space, newSize])
        (fun _ => by rw [hspace, init_space, newSize])
        fun c hc => by rw [hspace, init_space_outside hc]
    · rename_i hlt
      rw [if_neg (not_or.mpr ⟨hnull, hlt⟩)]
      refine chosen_of_enter h hsize (fun hsome => ?_) fun _ _ => rfl
      rw [hfresh] at hsome
      cases hsome

theorem le_chosenSize (min_segment_size : ℕ) {frame_size param_size : ℕ}
    (h : frame_size + param_size < 2 ^ 64) (heap : Heap) (frame_ptr : ℕ) :
    frame_size + param_size ≤ chosenSize min_segment_size frame_size param_size heap frame_ptr := by
  simp only [chosenSize, newSize, addSize_of_lt h]
  split_ifs <;> omega

theorem newSize_lt {min_segment_size : ℕ} (hmin : min_segment_size < 2 ^ 64)
    (frame_size param_size : ℕ) : newSize min_segment_size frame_size param_size < 2 ^ 64 := by
  simp only [newSize]
  split
  · exact hmin
  · exact Nat.mod_lt _ (Nat.two_pow_pos 64)

theorem limited_of_le {heap : Heap} {segment limit : ℕ} (hdata : segment + sizeofSegment ≤ limit)
    (hinside : limit ≤ blockEnd heap segment) : Limited heap segment limit := by
  refine ⟨hdata, hinside, fun rsp hrsp i hi hred => ?_⟩
  simp only [sizeofSegment] at hdata
  simp only [redZone, offsetofPadding] at hred ⊢
  omega

theorem Limited.size_lt {heap : Heap} {segment limit : ℕ} (h : Limited heap segment limit)
    (hsize : spaceOf heap segment < 2 ^ 64) : spaceOf heap segment + sizeofSegment < 2 ^ 64 := by
  have hle := Nat.le_trans h.data h.inside
  simp only [blockEnd, addSize, sizeofSegment] at hle ⊢
  omega

structure Sized (heap : Heap) (a : ℕ) : Prop where
  block : Block a (spaceOf heap a)
  size_lt : spaceOf heap a < 2 ^ 64

theorem morestackLimit_eq {size new_size segment param_size : ℕ} {heap : Heap} {f : Frame}
    (h : Chosen size new_size segment param_size heap f) (hsized : Sized f.heap f.frame_ptr)
    (hfit : size + sizeofSegment < 2 ^ 64) (hle : param_size ≤ size) :
    morestackLimit f + (size - param_size) = f.new_stack ∧
      morestackLimit f + (size - param_size) % 16 = f.frame_ptr + sizeofSegment := by
  obtain ⟨⟨halign, hend⟩, -⟩ := hsized
  rw [h.space, addSize_of_lt hfit] at hend
  have hns : f.new_stack = f.frame_ptr + sizeofSegment + (size - param_size) -
      (size - param_size) % 16 := by
    have hdata : addSize f.frame_ptr sizeofSegment = f.frame_ptr + sizeofSegment :=
      addSize_of_lt (by omega)
    rw [h.new_stack, hdata, addSize_of_lt (by omega), subSize_of_le (by omega) (by omega),
      alignStack_eq]
    simp only [sizeofSegment] at hend ⊢
    omega
  have hlimit : morestackLimit f = f.new_stack - (size - param_size) := by
    rw [morestackLimit, h.frame_size, subSize_of_le hle (by omega), subSize_of_le]
    · simp only [sizeofSegment] at hns
      omega
    · omega
  simp only [sizeofSegment] at hns hlimit ⊢
  omega

theorem frameInside_iff {size new_size segment frame_size param_size : ℕ} {heap : Heap} {f : Frame}
    (h : Chosen size new_size segment param_size heap f) (hsized : Sized f.heap f.frame_ptr)
    (hle : frame_size + param_size ≤ size) : FrameInside frame_size param_size f ↔
      size + sizeofSegment < 2 ^ 64 ∧ (size - param_size) % 16 = 0 := by
  constructor
  · intro hinside
    have hfit := hinside.limited.size_lt hsized.size_lt
    rw [h.space] at hfit
    obtain ⟨-, hlimit⟩ := morestackLimit_eq h hsized hfit (by omega)
    have hdata := hinside.limited.data
    exact ⟨hfit, by omega⟩
  · rintro ⟨hfit, halign⟩
    obtain ⟨hstack, hlimit⟩ := morestackLimit_eq h hsized hfit (by omega)
    have hend : blockEnd f.heap f.frame_ptr = f.frame_ptr + (size + sizeofSegment) := by
      rw [blockEnd, h.space, addSize_of_lt hfit]
    have haligned := hsized.block.aligned
    refine ⟨limited_of_le (by omega) (by omega), by omega, ?_, by omega⟩
    simp only [sizeofSegment] at hlimit
    omega

theorem isSome_of_allocated {min_segment_size first : ℕ} {tr : List Event} {s : State}
    (h : Run (segmentSystem min_segment_size first) tr s) {a : ℕ} (ha : a ∈ allocated first tr) :
    (s.heap a).isSome := by
  obtain ⟨cached, hi⟩ := run_inv h
  exact hi.segments.allocated a (hi.perm.mem_iff.mpr ha)

theorem frame_ptr_allocated {min_segment_size first : ℕ} {tr : List Event} {s : State}
    (h : Run (segmentSystem min_segment_size first) tr s) : s.frame_ptr ∈ allocated first tr := by
  obtain ⟨cached, hi⟩ := run_inv h
  exact hi.perm.mem_iff.mp (by simp [chain])

theorem run_sized {min_segment_size first : ℕ} (hmin : min_segment_size < 2 ^ 64)
    {tr : List (State × Action)} {s : State} (h : Run (limitSystem min_segment_size first) tr s) :
    ∃ tr', Run (segmentSystem min_segment_size first) tr' s ∧
      ∀ a ∈ allocated first tr', Sized s.heap a := by
  induction h with
  | start hinit =>
    obtain ⟨heap, frame_size, hfresh, hblock, rfl⟩ := hinit
    refine ⟨[], Run.start ⟨heap, frame_size, hfresh, rfl⟩, fun a ha => ?_⟩
    obtain rfl := List.mem_singleton.mp ha
    have hspace := init_space heap a (addSize frame_size 16)
    exact ⟨by rwa [hspace], by rw [hspace]; exact Nat.mod_lt _ (Nat.two_pow_pos 64)⟩
  | next _ hm hs ih =>
    rename_i s s' a e _
    obtain ⟨tr', hrun, hsized⟩ := ih
    obtain ⟨⟨s1, e1⟩, hstep, he⟩ := Option.map_eq_some_iff.mp hs
    cases he
    refine ⟨tr' ++ [e1], Run.next hrun hm.1 hstep, ?_⟩
    rw [allocated_append]
    cases a with
    | allocate segment frame_size param_size =>
      obtain ⟨f, hf, hp⟩ := Option.bind_eq_some_iff.mp hstep
      cases hp
      have hnone := hm.1.2
      have hchosen := allocate_chosen hnone hf
      intro a ha
      obtain hold | hnew := List.mem_append.mp ha
      · have hne : a ≠ segment := by
          rintro rfl
          have hsome := isSome_of_allocated hrun hold
          rw [hnone] at hsome
          cases hsome
        have hspace := hchosen.outside a hne
        exact ⟨by rw [hspace]; exact (hsized a hold).block,
          by rw [hspace]; exact (hsized a hold).size_lt⟩
      · by_cases hsome : (f.heap segment).isSome
        · rw [if_pos hsome] at hnew
          obtain rfl := List.mem_singleton.mp hnew
          have hspace := hchosen.taken hsome
          exact ⟨by rw [hspace]; exact hm.2.2, by rw [hspace]; exact newSize_lt hmin _ _⟩
        · rw [if_neg hsome] at hnew
          cases hnew
    | release =>
      obtain ⟨p, hp, he⟩ := Option.bind_eq_some_iff.mp hstep
      cases he
      rw [Option.toList_none, List.append_nil]
      exact hsized

/-- Each call of a history keeps the limit out of the header of its segment if
and only if it fits. -/
theorem limitInside_iff {min_segment_size first : ℕ} (hmin : min_segment_size < 2 ^ 64)
    {tr : List (State × Action)} {s : State} (h : Run (limitSystem min_segment_size first) tr s) :
    ∀ c ∈ tr, LimitInside min_segment_size c.1 c.2 ↔ Fits min_segment_size c.1 c.2 := by
  induction h with
  | start => simp
  | next hr hm hs ih =>
    rename_i tr s s' a e
    obtain ⟨⟨s1, e1⟩, hstep, he⟩ := Option.map_eq_some_iff.mp hs
    cases he
    intro c hc
    obtain hc | hc := List.mem_append.mp hc
    · exact ih c hc
    obtain rfl := List.mem_singleton.mp hc
    obtain ⟨tr', hrun, hall⟩ := run_sized hmin (Run.next hr hm hs)
    have hsized := hall _ (frame_ptr_allocated hrun)
    cases a with
    | allocate segment frame_size param_size =>
      obtain ⟨f, hf, hp⟩ := Option.bind_eq_some_iff.mp hstep
      cases hp
      have hle := le_chosenSize min_segment_size hm.2.1 s.heap s.frame_ptr
      have hiff := frameInside_iff (allocate_chosen hm.1.2 hf) hsized hle
      refine Iff.trans ⟨?_, fun hinside => ⟨f, hf, hinside⟩⟩ hiff
      rintro ⟨f', hf', hinside⟩
      cases hf.symm.trans hf'
      exact hinside
    | release =>
      obtain ⟨p, hp, he⟩ := Option.bind_eq_some_iff.mp hstep
      cases he
      obtain ⟨current, hcurrent, hprev⟩ := Option.bind_eq_some_iff.mp hp
      cases hprev
      have hprev : prevOf s.heap s.frame_ptr = current.prev := by rw [prevOf, hcurrent]; rfl
      have hsized : Sized s.heap current.prev := hsized
      simp only [LimitInside, Fits, hprev]
      constructor
      · rintro ⟨frame_ptr, limit, hrelease, hlimited⟩
        cases hp.symm.trans hrelease
        exact hlimited.size_lt hsized.size_lt
      · intro hfit
        have hend := hsized.block.fits
        rw [addSize_of_lt hfit] at hend
        have hdata : addSize current.prev sizeofSegment = current.prev + sizeofSegment :=
          addSize_of_lt (by omega)
        refine ⟨_, _, hp, limited_of_le (Nat.le_of_eq hdata.symm) ?_⟩
        rw [blockEnd, addSize_of_lt hfit, hdata]
        omega

theorem run_allocate (frame_size : ℕ) (h : frame_size < 2 ^ 32) :
    ∃ s, Run (limitSystem 0 16) [(⟨initSegment 16 80 fun _ => none, 16, []⟩,
      .allocate 400 frame_size 8)] s := by
  have h0 : Run (limitSystem 0 16) [] _ :=
    Run.start ⟨fun _ => none, 64, ⟨by decide, rfl⟩, ⟨rfl, by decide⟩, rfl⟩
  have hblock : Block 400 (newSize 0 frame_size 8) := by
    refine ⟨rfl, ?_⟩
    simp only [newSize, Nat.not_lt_zero, if_false, addSize, sizeofSegment]
    omega
  exact ⟨_, Run.next h0 (a := Action.allocate 400 frame_size 8)
    ⟨⟨by decide, rfl⟩, by omega, hblock⟩ rfl⟩

theorem limitInside_of_aligned : ∃ s, Run (limitSystem 0 16)
      [(⟨initSegment 16 80 fun _ => none, 16, []⟩, .allocate 400 32 8)] s ∧
    LimitInside 0 ⟨initSegment 16 80 fun _ => none, 16, []⟩ (.allocate 400 32 8) := by
  obtain ⟨s, h⟩ := run_allocate 32 (by decide)
  exact ⟨s, h, (limitInside_iff (by decide) h _ (List.mem_singleton_self _)).mpr
    ⟨by decide, by decide⟩⟩

/-- A frame of 24 bytes: the limit is 8 bytes below the data, and the red zone
below it holds the canary. -/
theorem not_limitInside : ¬ ∀ (min_segment_size first : ℕ), min_segment_size < 2 ^ 64 →
    ∀ tr s, Run (limitSystem min_segment_size first) tr s →
      ∀ c ∈ tr, LimitInside min_segment_size c.1 c.2 := by
  intro h
  obtain ⟨s, hrun⟩ := run_allocate 24 (by decide)
  obtain ⟨f, hf, hinside⟩ := h 0 16 (by decide) _ s hrun _ (List.mem_singleton_self _)
  have hlimit : (seffMemAllocateFrame 0 400 24 8 (initSegment 16 80 fun _ => none) 16).map
      (fun f => (f.frame_ptr, morestackLimit f)) = some (400, 552) := by decide +kernel
  rw [hf, Option.map_some, Option.some.injEq, Prod.mk.injEq] at hlimit
  have hdata := hinside.limited.data
  rw [hlimit.1, hlimit.2] at hdata
  exact absurd hdata (by decide)

end Libseff.SegmentLimits
