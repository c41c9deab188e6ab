import Libseff.SegmentBlocks

namespace Libseff.SegmentBlockRuns

open LinkedLists TransitionRuns SegmentLists SegmentRelease SegmentRuns SegmentBlocks
open SegmentLimits hiding Fits
open StackSegments (NULL Segment Heap Event sizeofSegment addSize subSize alignStack prevOf nextOf
  allocated segmentSystem seffCoroutineRelease)

theorem heapOf_isSome (blocks : Blocks) (a : ℕ) : (heapOf blocks a).isSome = (blocks a).isSome :=
  Option.isSome_map

theorem heapOf_fresh {blocks : Blocks} {a : ℕ} (h : fresh blocks a) :
    StackSegments.fresh (heapOf blocks) a :=
  ⟨h.1, by rw [heapOf, h.2]; rfl⟩

def sizes (blocks : Blocks) (a : ℕ) : Option (ℕ × ℕ) :=
  (blocks a).map fun b => (b.bytes, b.segment.size)

def Sound (blocks : Blocks) (a : ℕ) : Prop :=
  ∃ size, sizes blocks a = some (addSize size sizeofSegment, size) ∧ Block a size

def erase (s : State) : StackSegments.State := ⟨heapOf s.blocks, s.frame_ptr, s.frames⟩

variable {blocks blocks' : Blocks} {a b c : ℕ}

theorem Sound.congr (h : Sound blocks a) (hs : sizes blocks' a = sizes blocks a) :
    Sound blocks' a := by
  obtain ⟨size, hsize, hblock⟩ := h
  exact ⟨size, hs.trans hsize, hblock⟩

theorem heapOf_update (blocks : Blocks) (a : ℕ) (x : HeapBlock) :
    heapOf (Function.update blocks a (some x)) =
      Function.update (heapOf blocks) a (some x.segment) := by
  funext c
  by_cases hc : c = a
  · rw [hc, heapOf, Function.update_self, Function.update_self]
    rfl
  · rw [heapOf, Function.update_of_ne hc, Function.update_of_ne hc]
    rfl

theorem sizes_update {x y : HeapBlock} (hx : blocks a = some x)
    (hy : (y.bytes, y.segment.size) = (x.bytes, x.segment.size)) :
    sizes (Function.update blocks a (some y)) = sizes blocks := by
  funext c
  by_cases hc : c = a
  · rw [hc, sizes, sizes, Function.update_self, hx, Option.map_some, Option.map_some, hy]
  · rw [sizes, sizes, Function.update_of_ne hc]

theorem initSegment_spec {segment size : ℕ}
    (hfits : offsetofPadding ≤ addSize size sizeofSegment) (blocks : Blocks) :
    ∃ blocks', initSegment segment size blocks = some blocks' ∧
      heapOf blocks' = StackSegments.initSegment segment size (heapOf blocks) ∧
      sizes blocks' segment = some (addSize size sizeofSegment, size) ∧
      ∀ c, c ≠ segment → sizes blocks' c = sizes blocks c := by
  refine ⟨_, if_neg (Nat.not_lt.mpr hfits), heapOf_update _ _ _, ?_, fun c hc => ?_⟩
  · rw [sizes, Function.update_self]
    rfl
  · rw [sizes, sizes, Function.update_of_ne hc]

/-- `f` does on blocks what `p` does on their segments, and keeps the sizes. -/
def Lifts (f : Blocks → Option Blocks) (p : Heap → Option Heap) : Prop :=
  ∀ blocks heap, p (heapOf blocks) = some heap →
    ∃ blocks', f blocks = some blocks' ∧ heapOf blocks' = heap ∧ sizes blocks' = sizes blocks

theorem link_lifts (a b : ℕ) : Lifts (link a b) (StackSegments.link a b) := by
  intro blocks heap h
  simp only [StackSegments.link, Option.bind_eq_bind, Option.bind_eq_some_iff,
    Option.some.injEq] at h
  obtain ⟨sa, ha, sb, hb, rfl⟩ := h
  obtain ⟨x, hx, rfl⟩ := Option.map_eq_some_iff.mp ha
  change Function.update (heapOf blocks) a (some (setNext x b).segment) b = some sb at hb
  rw [← heapOf_update] at hb
  obtain ⟨y, hy, rfl⟩ := Option.map_eq_some_iff.mp hb
  refine ⟨Function.update (Function.update blocks a (some (setNext x b))) b
    (some (setPrev y a)), ?_, ?_, ?_⟩
  · simp only [link, hx, hy, Option.bind_eq_bind, Option.bind_some]
  · rw [heapOf_update, heapOf_update]
    rfl
  · exact (sizes_update (y := setPrev y a) hy rfl).trans (sizes_update (y := setNext x b) hx rfl)

theorem Lifts.bind {f g : Blocks → Option Blocks} {p q : Heap → Option Heap} (h : Lifts f p)
    (h' : Lifts g q) : Lifts (fun blocks => (f blocks).bind g) (fun heap => (p heap).bind q) := by
  intro blocks heap hpq
  obtain ⟨heap1, hp, hq⟩ := Option.bind_eq_some_iff.mp hpq
  obtain ⟨blocks1, hf, rfl, hsizes⟩ := h blocks heap1 hp
  obtain ⟨blocks2, hg, hheap, hsizes'⟩ := h' blocks1 heap hq
  exact ⟨blocks2, Option.bind_eq_some_iff.mpr ⟨blocks1, hf, hg⟩, hheap, hsizes'.trans hsizes⟩

theorem memcpy_eq {segment size param_size new_stack : ℕ} (copied : Segment) {x : HeapBlock}
    (hbytes : x.bytes = addSize size sizeofSegment) (hblock : Block segment size)
    (hfits : param_size + offsetofPadding ≤ addSize size sizeofSegment)
    (hstack : new_stack =
      alignStack (subSize (addSize (addSize segment sizeofSegment) size) param_size)) :
    memcpy segment new_stack param_size copied x = some x := by
  obtain ⟨halign, hend⟩ := hblock
  have hraw : subSize (addSize (addSize segment sizeofSegment) size) param_size =
      segment + addSize size sizeofSegment - param_size := by
    simp only [subSize, addSize, sizeofSegment, offsetofPadding] at hfits hend ⊢
    omega
  rw [hraw, alignStack_eq] at hstack
  simp only [offsetofPadding] at hfits
  have hinside : segment ≤ new_stack ∧ new_stack + param_size ≤ segment + x.bytes := by omega
  have houtside : ∀ offset, offset + 8 ≤ 32 → ¬ touches new_stack param_size (segment + offset) := by
    rintro offset hoffset ⟨-, htouch, -⟩
    omega
  simp only [memcpy, if_pos (Or.inr hinside), houtside 0 (by decide), houtside 8 (by decide),
    houtside 16 (by decide), if_false]

theorem enterSegment_spec {size param_size : ℕ} (copied : Segment)
    (hsize : sizes blocks a = some (addSize size sizeofSegment, size)) (hblock : Block a size)
    (hfits : param_size + offsetofPadding ≤ addSize size sizeofSegment)
    {f : StackSegments.Frame}
    (h : StackSegments.enterSegment (heapOf blocks) a param_size = some f) :
    enterSegment blocks a param_size copied =
      some ⟨blocks, f.frame_ptr, f.frame_size, f.new_stack⟩ ∧ heapOf blocks = f.heap := by
  obtain rfl := enterSegment_eq h
  obtain ⟨x, hx, hxsize⟩ := Option.map_eq_some_iff.mp hsize
  obtain ⟨hbytes, rfl⟩ := Prod.mk.inj hxsize
  have hspace : spaceOf (heapOf blocks) a = x.segment.size := by
    rw [spaceOf, heapOf, hx]
    rfl
  refine ⟨?_, rfl⟩
  simp only [enterSegment, hx, memcpy_eq copied hbytes hblock hfits rfl, hspace,
    Option.bind_eq_bind, Option.bind_some]
  rw [← hx, Function.update_eq_self]

/-- A block from `malloc`, with the links that `f` gives it. -/
theorem takeBlock_spec {f : Blocks → Option Blocks} {p : Heap → Option Heap} (hlift : Lifts f p)
    {segment size param_size : ℕ} (copied : Segment) (hblock : Block segment size)
    (hfits : param_size + offsetofPadding ≤ addSize size sizeofSegment)
    {r : StackSegments.Frame}
    (h : (p (StackSegments.initSegment segment size (heapOf blocks))).bind
      (fun heap => StackSegments.enterSegment heap segment param_size) = some r) : ∃ blocks',
    ((initSegment segment size blocks).bind fun blocks =>
      (f blocks).bind fun blocks => enterSegment blocks segment param_size copied) =
        some ⟨blocks', r.frame_ptr, r.frame_size, r.new_stack⟩ ∧
    heapOf blocks' = r.heap ∧ (∀ c, c ≠ segment → sizes blocks' c = sizes blocks c) ∧
    Sound blocks' segment := by
  obtain ⟨blocks1, hinit, hheap, hnew, hout⟩ :=
    initSegment_spec (Nat.le_of_add_left_le hfits) blocks
  rw [← hheap] at h
  obtain ⟨heap, hp, he⟩ := Option.bind_eq_some_iff.mp h
  obtain ⟨blocks2, hf, rfl, hsizes⟩ := hlift blocks1 heap hp
  rw [← hsizes] at hnew hout
  obtain ⟨henter, hheap'⟩ := enterSegment_spec copied hnew hblock hfits he
  refine ⟨blocks2, ?_, hheap', hout, ⟨size, hnew, hblock⟩⟩
  rw [hinit, Option.bind_some, hf, Option.bind_some, henter]

/-- Where the header and the parameters have room, the functions on blocks do what
those of `StackSegments` do. -/
theorem allocate_refines {min_segment_size segment frame_size param_size frame_ptr : ℕ}
    (copied : Segment) (hblock : Block segment (newSize min_segment_size frame_size param_size))
    (hnext : nextOf (heapOf blocks) frame_ptr ≠ NULL →
      Sound blocks (nextOf (heapOf blocks) frame_ptr))
    (hfits : param_size + offsetofPadding ≤ addSize (chosenSize min_segment_size frame_size
      param_size (heapOf blocks) frame_ptr) sizeofSegment) {f : StackSegments.Frame}
    (h : StackSegments.seffMemAllocateFrame min_segment_size segment frame_size param_size
      (heapOf blocks) frame_ptr = some f) : ∃ blocks',
    seffMemAllocateFrame min_segment_size segment frame_size param_size copied blocks frame_ptr =
      some ⟨blocks', f.frame_ptr, f.frame_size, f.new_stack⟩ ∧
    heapOf blocks' = f.heap ∧ (∀ c, c ≠ segment → sizes blocks' c = sizes blocks c) ∧
    (Sound blocks' segment ∨ blocks' = blocks) := by
  obtain ⟨current, hcurrent, h⟩ := Option.bind_eq_some_iff.mp h
  obtain ⟨x, hx, rfl⟩ := Option.map_eq_some_iff.mp hcurrent
  have hnextOf : nextOf (heapOf blocks) frame_ptr = x.segment.next := by
    rw [nextOf, hcurrent]
    rfl
  rw [hnextOf] at hnext
  simp only [chosenSize, hnextOf] at hfits
  simp only [seffMemAllocateFrame, hx, Option.bind_eq_bind, Option.bind_some] at h ⊢
  by_cases hnull : x.segment.next = NULL
  · rw [if_pos (.inl hnull)] at hfits
    rw [if_pos hnull] at h ⊢
    obtain ⟨blocks', halloc, hheap, hout, hnew⟩ :=
      takeBlock_spec (link_lifts frame_ptr segment) copied hblock hfits h
    exact ⟨blocks', halloc, hheap, hout, .inl hnew⟩
  rw [if_neg hnull] at h ⊢
  obtain ⟨next, hn, h⟩ := Option.bind_eq_some_iff.mp h
  obtain ⟨y, hy, rfl⟩ := Option.map_eq_some_iff.mp hn
  have hspace : spaceOf (heapOf blocks) x.segment.next = y.segment.size := by
    rw [spaceOf, hn]
    rfl
  rw [hspace] at hfits
  rw [hy, Option.bind_some]
  by_cases hlt : y.segment.size < addSize frame_size param_size
  · rw [if_pos (.inr hlt)] at hfits
    rw [if_pos hlt] at h ⊢
    rw [← Option.bind_assoc] at h
    obtain ⟨blocks', halloc, hheap, hout, hnew⟩ := takeBlock_spec
      ((link_lifts segment x.segment.next).bind (link_lifts frame_ptr segment)) copied hblock hfits h
    simp only [Option.bind_assoc] at halloc
    exact ⟨blocks', halloc, hheap, hout, .inl hnew⟩
  · rw [if_neg (not_or.mpr ⟨hnull, hlt⟩)] at hfits
    rw [if_neg hlt] at h ⊢
    obtain ⟨size, hsize, hcached⟩ := hnext hnull
    have hy' : sizes blocks x.segment.next = some (y.bytes, y.segment.size) := by
      rw [sizes, hy]
      rfl
    obtain ⟨-, rfl⟩ := Prod.mk.inj (Option.some.inj (hy'.symm.trans hsize))
    obtain ⟨henter, hheap⟩ := enterSegment_spec copied hsize hcached hfits h
    exact ⟨blocks, henter, hheap, fun _ _ => rfl, .inr rfl⟩

variable {min_segment_size first : ℕ} {tr : List Event} {s : State}

theorem sound_next (hrun : Run (segmentSystem min_segment_size first) tr (erase s))
    (hsound : ∀ a ∈ allocated first tr, Sound s.blocks a)
    (hne : nextOf (heapOf s.blocks) s.frame_ptr ≠ NULL) :
    Sound s.blocks (nextOf (heapOf s.blocks) s.frame_ptr) := by
  obtain ⟨cached, hi⟩ := run_inv hrun
  have hhead : nextOf (heapOf s.blocks) s.frame_ptr = cached.headD NULL := next_eq_headD hi.segments
  rw [hhead] at hne ⊢
  cases cached with
  | nil => exact absurd rfl hne
  | cons b t => exact hsound b (hi.perm.mem_iff.mp (by simp [chain]))

theorem allocate_step (hrun : Run (segmentSystem min_segment_size first) tr (erase s))
    (hsound : ∀ a ∈ allocated first tr, Sound s.blocks a)
    {segment frame_size param_size : ℕ} {copied : Segment}
    (hm : mayRun min_segment_size s (.allocate segment frame_size param_size copied))
    (hfits : Fits min_segment_size s (.allocate segment frame_size param_size copied)) :
    ∃ s' e, step min_segment_size s (.allocate segment frame_size param_size copied) =
        some (s', e) ∧
      StackSegments.step min_segment_size (erase s) (.allocate segment frame_size param_size) =
        some (erase s', e) ∧
      ∀ a ∈ allocated first (tr ++ [e]), Sound s'.blocks a := by
  obtain ⟨hfresh, hblock⟩ := hm
  have hnone := hfresh.2
  obtain ⟨cached, hi⟩ := run_inv hrun
  obtain ⟨f, hf, -⟩ :=
    allocate_spec hi.segments (heapOf_fresh hfresh) min_segment_size frame_size param_size
  obtain ⟨blocks', halloc, hheap, hout, hnew⟩ :=
    allocate_refines copied hblock (sound_next hrun hsound) hfits hf
  have hsome : (f.heap segment).isSome = (blocks' segment).isSome := by
    rw [← hheap, heapOf_isSome]
  refine ⟨⟨blocks', f.frame_ptr, s.frame_ptr :: s.frames⟩,
    if (blocks' segment).isSome then some segment else none, ?_, ?_, ?_⟩
  · simp only [step, halloc, Option.bind_eq_bind, Option.bind_some]
  · simp only [StackSegments.step, erase] at hf ⊢
    simp only [hf, hsome, hheap, Option.bind_eq_bind, Option.bind_some]
  · intro a ha
    rw [allocated_append] at ha
    obtain hold | htaken := List.mem_append.mp ha
    · refine (hsound a hold).congr (hout a ?_)
      rintro rfl
      obtain ⟨size, hsize, -⟩ := hsound a hold
      rw [sizes, hnone] at hsize
      cases hsize
    · split at htaken
      · rename_i hin
        obtain rfl := List.mem_singleton.mp htaken
        obtain hnew | rfl := hnew
        · exact hnew
        · rw [hnone] at hin
          cases hin
      · cases htaken

theorem release_erase : StackSegments.step min_segment_size (erase s) .release =
    (step min_segment_size s .release).map fun p => (erase p.1, p.2) := by
  simp only [StackSegments.step, step, erase, Option.bind_eq_bind, Option.map_bind]
  rfl

theorem run_erase (h : Run ((blockSystem min_segment_size first).restrict (Fits min_segment_size))
    tr s) : Run (segmentSystem min_segment_size first) tr (erase s) ∧
      ∀ a ∈ allocated first tr, Sound s.blocks a := by
  refine Run.invariant (fun tr s => Run (segmentSystem min_segment_size first) tr (erase s) ∧
    ∀ a ∈ allocated first tr, Sound s.blocks a) ?_ ?_ h
  · rintro s ⟨blocks, frame_size, blocks', hfresh, hblock, hinit, rfl⟩
    have hfits : offsetofPadding ≤ addSize (addSize frame_size 16) sizeofSegment := by
      by_contra hlt
      rw [initSegment, if_pos (Nat.not_le.mp hlt)] at hinit
      cases hinit
    obtain ⟨blocks1, hinit', hheap, hsize, -⟩ := initSegment_spec hfits blocks
    cases hinit.symm.trans hinit'
    refine ⟨Run.start ⟨heapOf blocks, frame_size, heapOf_fresh hfresh, ?_⟩, fun a ha => ?_⟩
    · rw [erase, hheap]
    · obtain rfl := List.mem_singleton.mp ha
      exact ⟨_, hsize, hblock⟩
  · rintro tr s a s' e ⟨hrun, hsound⟩ ⟨hm, hfits⟩ hs
    cases a with
    | allocate segment frame_size param_size copied =>
      obtain ⟨s1, e1, hs1, herase, hall⟩ := allocate_step hrun hsound hm hfits
      cases hs1.symm.trans hs
      exact ⟨Run.next (a := StackSegments.Action.allocate segment frame_size param_size) hrun
        (heapOf_fresh hm.1) herase, hall⟩
    | release =>
      have hs' : step min_segment_size s .release = some (s', e) := hs
      have herase := @release_erase min_segment_size s
      rw [hs', Option.map_some] at herase
      obtain ⟨p, hp, he⟩ := Option.bind_eq_some_iff.mp hs'
      cases he
      refine ⟨Run.next (a := StackSegments.Action.release) hrun hm herase, ?_⟩
      rw [allocated_append, Option.toList_none, List.append_nil]
      exact hsound

/-- In a run whose blocks have room, no segment is lost or freed twice. -/
theorem blocks_run (h : Run ((blockSystem min_segment_size first).restrict
    (Fits min_segment_size)) tr s) :
    ∃ l, SegmentsKept min_segment_size first (Fits min_segment_size s) tr s l := by
  obtain ⟨hrun, hsound⟩ := run_erase h
  obtain ⟨l, hperm, hnodup, hblocks, hlinked, hcurrent, hallocate, hrelease, hfree⟩ :=
    segments_run hrun
  refine ⟨l, hperm, hnodup, fun a ha => ?_, hlinked, hcurrent, ?_, fun hframes => ?_, hfree⟩
  · obtain ⟨hne, hsome⟩ := hblocks a ha
    exact ⟨hne, (heapOf_isSome s.blocks a).symm.trans hsome⟩
  · intro segment frame_size param_size copied hm hfits
    obtain ⟨s', e, hs, herase, -⟩ := allocate_step hrun hsound hm hfits
    obtain ⟨t, e', ht, hnext, hprev, hframes⟩ :=
      hallocate segment frame_size param_size (heapOf_fresh hm.1)
    cases herase.symm.trans ht
    exact ⟨s', e, hs, hnext, hprev, hframes⟩
  · obtain ⟨t, e, ht, hframes⟩ := hrelease hframes
    rw [release_erase] at ht
    obtain ⟨⟨s', e'⟩, hs, he⟩ := Option.map_eq_some_iff.mp ht
    cases he
    exact ⟨s', e', hs, hframes⟩

def created : State :=
  ⟨Function.update (fun _ => none) 16 (some ⟨240, NULL, NULL, 80⟩), 16, []⟩

theorem created_init (min_segment_size : ℕ) : (blockSystem min_segment_size 16).init created :=
  ⟨fun _ => none, 64, _, ⟨by decide, rfl⟩, ⟨rfl, by decide⟩, rfl, rfl⟩

theorem fits_of_lt {segment frame_size param_size : ℕ} (copied : Segment)
    (hsum : frame_size + param_size < 2 ^ 64)
    (hsize : chosenSize min_segment_size frame_size param_size (heapOf s.blocks) s.frame_ptr +
      sizeofSegment < 2 ^ 64) :
    Fits min_segment_size s (.allocate segment frame_size param_size copied) := by
  have hle := le_chosenSize min_segment_size hsum (heapOf s.blocks) s.frame_ptr
  have hroom := addSize_of_lt hsize
  simp only [Fits, hroom]
  simp only [sizeofSegment, offsetofPadding]
  omega

def allowedFits (min_segment_size : ℕ) (s : State) : Action → Bool
  | .allocate segment frame_size param_size _ =>
    decide (segment ≠ NULL ∧ segment % 16 = 0 ∧
      segment + addSize (newSize min_segment_size frame_size param_size) sizeofSegment < 2 ^ 64 ∧
      param_size + offsetofPadding ≤ addSize (chosenSize min_segment_size frame_size param_size
        (heapOf s.blocks) s.frame_ptr) sizeofSegment) && (s.blocks segment).isNone
  | .release => !s.frames.isEmpty

theorem may_of_allowedFits {act : Action} (h : allowedFits min_segment_size s act = true) :
    ((blockSystem min_segment_size first).restrict (Fits min_segment_size)).may s act := by
  cases act with
  | allocate =>
    simp only [allowedFits, Bool.and_eq_true, decide_eq_true_eq, Option.isNone_iff_eq_none] at h
    obtain ⟨⟨hne, halign, hend, hfits⟩, hnone⟩ := h
    exact ⟨⟨⟨hne, hnone⟩, halign, hend⟩, hfits⟩
  | release =>
    simp only [allowedFits, Bool.not_eq_true', List.isEmpty_eq_false_iff] at h
    exact ⟨h, trivial⟩

theorem blocks_run_cached : ∃ tr s l, Run ((blockSystem 0 16).restrict (Fits 0)) tr s ∧
    tr = [some 400, some 800, none] ∧ s.frame_ptr = 400 ∧
    SegmentsKept 0 16 (Fits 0 s) tr s l := by
  obtain ⟨tr, s, h, he⟩ := Run.exists_of_exec (S := (blockSystem 0 16).restrict (Fits 0))
    (fun _ _ => may_of_allowedFits)
    [.allocate 400 32 8 ⟨1, 2, 3⟩, .allocate 800 32 8 ⟨1, 2, 3⟩, .release] (created_init 0)
    (fun p => (p.2, p.1.frame_ptr)) (b := ([some 400, some 800, none], 400)) (by decide +kernel)
  obtain ⟨htr, hptr⟩ := Prod.mk.inj he
  obtain ⟨l, hkept⟩ := blocks_run h
  exact ⟨tr, s, l, h, htr, hptr, hkept⟩

/-- The parameters cover the header of the block, the first segment is lost. -/
theorem not_blocks_run : ¬ ∀ (min_segment_size first : ℕ) (tr : List Event) (s : State),
    Run (blockSystem min_segment_size first) tr s →
      ∃ l, SegmentsKept min_segment_size first (fun _ => True) tr s l := by
  intro hall
  have h0 : Run (blockSystem 0 16) [] created := Run.start (created_init 0)
  have hstep : (step 0 created (.allocate 400 (2 ^ 64 - 160) 168 ⟨NULL, NULL, 0⟩)).map (fun p =>
      ((seffCoroutineRelease 3 (heapOf p.1.blocks) p.1.frame_ptr).map Prod.snd, p.2)) =
      some (some [400], some 400) := by decide +kernel
  obtain ⟨⟨s, e⟩, hs, he⟩ := Option.map_eq_some_iff.mp hstep
  obtain ⟨hfreed, rfl⟩ := Prod.mk.inj he
  have hmay : (blockSystem 0 16).may created
      (Action.allocate 400 (2 ^ 64 - 160) 168 ⟨NULL, NULL, 0⟩) :=
    ⟨⟨by decide, rfl⟩, rfl, by decide⟩
  have h1 : Run (blockSystem 0 16) [some 400] s := Run.next h0 hmay hs
  obtain ⟨l, hkept⟩ := hall 0 16 _ s h1
  have hlength : l.length = 2 := hkept.perm.length_eq
  rw [hkept.frees 3 (by rw [hlength]; decide)] at hfreed
  obtain rfl : l = [400] := Option.some.inj hfreed
  cases hlength

end Libseff.SegmentBlockRuns
