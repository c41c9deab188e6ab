import Libseff.MorestackMachine

namespace Libseff.MorestackFrames

open ByteMemory StackSegments SegmentLimits MorestackMachine

/-- The bytes that have to survive the calls: the words that `__morestack` pushes
on the system stack, and the caller's frame with the parameters. -/
def InUse (m : Machine) (x : Word) : Prop :=
  Inside (m.system_stack - 88) 88 x ∨ Inside (m.rsp - 8) (24 + m.r11.toNat) x

structure Room (m : Machine) (segment size : ℕ) : Prop where
  fits : segment + sizeofSegment + size < 2 ^ 64
  apart : ∀ i, segment + offsetofPadding ≤ i → i < segment + sizeofSegment + size →
    ¬ InUse m (BitVec.ofNat 64 i)

/-- The running coroutine is in a segment, and the blocks that it may go to are
apart from the bytes in use. -/
structure Layout (code : Code) (f : Callees) (m : Machine) : Prop where
  apart : ∀ x, Inside (m.system_stack - 88) 88 x → ¬ Inside (m.rsp - 8) (24 + m.r11.toNat) x
  request : m.r10.toNat + m.r11.toNat < 2 ^ 64
  current : (m.heap m.frame_ptr).isSome
  cached : nextOf m.heap m.frame_ptr ≠ NULL → (m.heap (nextOf m.heap m.frame_ptr)).isSome ∧
    Room m (nextOf m.heap m.frame_ptr) (spaceOf m.heap (nextOf m.heap m.frame_ptr))
  free : m.heap f.malloc = none
  block : f.malloc ≠ NULL →
    Room m f.malloc (newSize code.min_segment_size m.r10.toNat m.r11.toNat)

def NoBlock (f : Callees) (m : Machine) : Prop :=
  takesBlock m.heap m.frame_ptr m.r10.toNat m.r11.toNat ∧ f.malloc = NULL

instance (f : Callees) (m : Machine) : Decidable (NoBlock f m) := inferInstanceAs (Decidable (_ ∧ _))

theorem isSome_update {heap : Heap} {a b : ℕ} {s : Segment} (h : (heap a).isSome) :
    (Function.update heap b (some s) a).isSome := by
  by_cases hab : a = b
  · subst hab
    rw [Function.update_self]
    rfl
  · rwa [Function.update_of_ne hab]

theorem link_isSome {heap : Heap} {a b : ℕ} (ha : (heap a).isSome) (hb : (heap b).isSome) :
    ∃ heap', link a b heap = some heap' ∧ ∀ c, (heap c).isSome → (heap' c).isSome := by
  obtain ⟨sa, hsa⟩ := Option.isSome_iff_exists.mp ha
  obtain ⟨sb, hsb⟩ := Option.isSome_iff_exists.mp
    (isSome_update (b := a) (s := { sa with next := b }) hb)
  refine ⟨Function.update (Function.update heap a (some { sa with next := b })) b
    (some { sb with prev := a }), ?_, fun c hc => isSome_update (isSome_update hc)⟩
  simp only [link, hsa, hsb, Option.bind_eq_bind, Option.bind_some]

theorem enterSegment_isSome {heap : Heap} {a param_size : ℕ} (h : (heap a).isSome) :
    ∃ f, enterSegment heap a param_size = some f ∧ f.frame_ptr = a ∧ (f.heap a).isSome := by
  obtain ⟨s, hs⟩ := Option.isSome_iff_exists.mp h
  simp only [enterSegment, hs, Option.bind_eq_bind, Option.bind_some]
  exact ⟨_, rfl, rfl, h⟩

theorem allocate_isSome (min_segment_size segment frame_size param_size : ℕ) {frame_ptr : ℕ}
    {heap : Heap} (hcurrent : (heap frame_ptr).isSome)
    (hnext : nextOf heap frame_ptr ≠ NULL → (heap (nextOf heap frame_ptr)).isSome) :
    ∃ f, seffMemAllocateFrame min_segment_size segment frame_size param_size heap
        frame_ptr = some f ∧ (f.heap f.frame_ptr).isSome ∧
      f.frame_ptr = if takesBlock heap frame_ptr frame_size param_size then segment
        else nextOf heap frame_ptr := by
  obtain ⟨current, hc⟩ := Option.isSome_iff_exists.mp hcurrent
  have hn : nextOf heap frame_ptr = current.next := by rw [nextOf, hc]; rfl
  simp only [takesBlock, hn] at hnext ⊢
  simp only [seffMemAllocateFrame, hc, Option.bind_eq_bind, Option.bind_some]
  have hinit : ∀ size, (initSegment segment size heap segment).isSome := fun size => by
    rw [initSegment, Function.update_self]
    rfl
  have hold : ∀ size c, (heap c).isSome → (initSegment segment size heap c).isSome :=
    fun _ _ h => isSome_update h
  by_cases hnull : current.next = NULL
  · obtain ⟨heap', hlink, hsome⟩ := link_isSome (hold _ _ hcurrent) (hinit _)
    obtain ⟨f, hf, hptr, hin⟩ := enterSegment_isSome (hsome _ (hinit _))
    rw [if_pos hnull, hlink, Option.bind_some, if_pos (.inl hnull)]
    exact ⟨f, hf, hptr ▸ hin, hptr⟩
  · obtain ⟨next, hs⟩ := Option.isSome_iff_exists.mp (hnext hnull)
    have hspace : spaceOf heap current.next = next.size := by rw [spaceOf, hs]; rfl
    rw [if_neg hnull, hs, Option.bind_some, hspace]
    by_cases hlt : next.size < addSize frame_size param_size
    · obtain ⟨heap1, hlink1, hsome1⟩ := link_isSome (hinit _) (hold _ _ (hnext hnull))
      obtain ⟨heap', hlink, hsome⟩ :=
        link_isSome (hsome1 _ (hold _ _ hcurrent)) (hsome1 _ (hinit _))
      obtain ⟨f, hf, hptr, hin⟩ := enterSegment_isSome (hsome _ (hsome1 _ (hinit _)))
      rw [if_pos hlt, hlink1, Option.bind_some, hlink, Option.bind_some, if_pos (.inr hlt)]
      exact ⟨f, hf, hptr ▸ hin, hptr⟩
    · obtain ⟨f, hf, hptr, hin⟩ := enterSegment_isSome (hnext hnull)
      rw [if_neg hlt, if_neg (not_or.mpr ⟨hnull, hlt⟩)]
      exact ⟨f, hf, hptr ▸ hin, hptr⟩

/-- The new stack pointer `ns` and the two stacks of a machine. The return address
of the body and the two pushed results are just below `ns`. -/
structure Areas (m : Machine) (ns : Word) : Prop where
  apart : ∀ x, Inside (m.system_stack - 88) 88 x → ¬ Inside (m.rsp - 8) (24 + m.r11.toNat) x
  unused : ∀ x, Inside (ns - 24) (24 + m.r11.toNat) x → ¬ InUse m x

theorem newStack_apart {m : Machine} {segment size : ℕ} (h : Room m segment size)
    (hsize : m.r11.toNat ≤ size) {new_stack : ℕ} (hstack : new_stack = alignStack
      (subSize (addSize (addSize segment sizeofSegment) size) m.r11.toNat)) {x : Word}
    (hx : Inside (BitVec.ofNat 64 new_stack - 24) (24 + m.r11.toNat) x) : ¬ InUse m x := by
  have hfits := h.fits
  rw [addSize_of_lt (show segment + sizeofSegment < 2 ^ 64 by omega), addSize_of_lt hfits,
    subSize_of_le (by omega) hfits, alignStack_eq] at hstack
  simp only [sizeofSegment] at hfits hstack
  have hlt : new_stack < 2 ^ 64 := by omega
  have hge : segment + 145 ≤ new_stack := by omega
  have hend : new_stack + m.r11.toNat ≤ segment + 160 + size := by omega
  rw [Inside] at hx
  have hoffset : x.toNat = new_stack - 24 + (x - (BitVec.ofNat 64 new_stack - 24)).toNat := by
    have hns : (BitVec.ofNat 64 new_stack).toNat = new_stack := by
      rw [BitVec.toNat_ofNat, Nat.mod_eq_of_lt hlt]
    generalize BitVec.ofNat 64 new_stack = ns at *
    bv_omega
  have happart := h.apart x.toNat
  rw [BitVec.ofNat_toNat, BitVec.setWidth_eq] at happart
  refine happart ?_ ?_
  · simp only [offsetofPadding]
    omega
  · simp only [sizeofSegment]
    omega

theorem chosen_room {code : Code} {f : Callees} {m : Machine} (h : Layout code f m)
    (hblock : ¬ NoBlock f m) {frame : Frame} (hptr : frame.frame_ptr =
      if takesBlock m.heap m.frame_ptr m.r10.toNat m.r11.toNat then f.malloc
      else nextOf m.heap m.frame_ptr) :
    Room m frame.frame_ptr (chosenSize code.min_segment_size m.r10.toNat m.r11.toNat m.heap
      m.frame_ptr) := by
  rw [hptr, chosenSize]
  by_cases htakes : takesBlock m.heap m.frame_ptr m.r10.toNat m.r11.toNat
  · rw [if_pos htakes]
    simp only [takesBlock] at htakes
    simp only [if_pos htakes]
    exact h.block fun hnull => hblock ⟨htakes, hnull⟩
  · rw [if_neg htakes]
    simp only [takesBlock] at htakes
    simp only [if_neg htakes]
    exact (h.cached fun hnull => htakes (.inl hnull)).2

def savedWords (code : Code) (m : Machine) : List Word :=
  [m.rbp, m.rbp, m.r10, m.rax, m.rdi, m.rsi, m.rdx, m.rcx, m.r8, m.r9, code.allocate_return]

def savedMemory (code : Code) (m : Machine) : Memory :=
  pushAll (store m.memory (m.rsp - 8) m.rbx) m.system_stack (savedWords code m)

def slot (m : Machine) (k : ℕ) : Word := m.system_stack - BitVec.ofNat 64 (8 * (k + 1))

theorem savedWords_fit (code : Code) (m : Machine) : 8 * (savedWords code m).length < 2 ^ 64 := by
  rw [show (savedWords code m).length = 11 from rfl]
  decide

theorem load_slot (code : Code) (m : Machine) {k : ℕ} (hk : k < 11) :
    load (savedMemory code m) (slot m k) = (savedWords code m)[k] :=
  load_pushAll (savedWords_fit code m) _ _ hk

theorem savedMemory_frame (code : Code) {m : Machine} {ns : Word} (h : Areas m ns) {x : Word}
    (hx : Inside (m.rsp - 8) (24 + m.r11.toNat) x) :
    savedMemory code m x = store m.memory (m.rsp - 8) m.rbx x :=
  pushAll_outside (savedWords_fit code m) _ _ fun hin => h.apart x hin hx

theorem slot_inside {m : Machine} {k : ℕ} (hk : k < 11) {x : Word} (hx : Inside (slot m k) 8 x) :
    Inside (m.system_stack - 88) 88 x := by
  rw [Inside, slot] at hx
  rw [Inside]
  bv_omega

theorem slot_apart {m : Machine} {j k : ℕ} (hj : j < 11) (hk : k < 11) (hjk : j ≠ k) {x : Word}
    (hx : Inside (slot m j) 8 x) : ¬ Inside (slot m k) 8 x := by
  rw [Inside, slot] at hx ⊢
  obtain hlt | hlt := Nat.lt_or_gt_of_ne hjk <;> bv_omega

structure Allocated (code : Code) (f : Callees) (m m' : Machine) : Prop where
  areas : Areas m m'.rax
  rbx : m'.rbx = m.rsp - 8
  rbp : m'.rbp = m.system_stack - 16
  r12 : m'.r12 = m.r12
  r13 : m'.r13 = m.r13
  r14 : m'.r14 = m.r14
  r15 : m'.r15 = m.r15
  xmm : m'.xmm = f.allocate.xmm
  slots : ∀ k (hk : k < 11), k ≠ 2 → load m'.memory (slot m k) = (savedWords code m)[k]
  frame : ∀ x, Inside (m.rsp - 8) (24 + m.r11.toNat) x →
    m'.memory x = store m.memory (m.rsp - 8) m.rbx x
  params : ∀ d : Word, d < m.r11 → m'.memory (m'.rax + d) = m.memory (m.rsp + 16 + d)
  segment : (m'.heap m'.frame_ptr).isSome

structure AllocateCall (code : Code) (m m' : Machine) : Prop where
  rsp : m'.rsp = m.system_stack - 88
  rbx : m'.rbx = m.rsp - 8
  rbp : m'.rbp = m.system_stack - 16
  rdi : m'.rdi = slot m 2
  rsi : m'.rsi = m.rsp + 16
  rdx : m'.rdx = m.r11
  r12 : m'.r12 = m.r12
  r13 : m'.r13 = m.r13
  r14 : m'.r14 = m.r14
  r15 : m'.r15 = m.r15
  memory : m'.memory = savedMemory code m
  heap : m'.heap = m.heap
  frame_ptr : m'.frame_ptr = m.frame_ptr

theorem saveRegisters_call (code : Code) (m : Machine) :
    push (saveRegisters m) code.allocate_return = { m with
      rsp := m.system_stack - 8 - 8 - 8 - 8 - 8 - 8 - 8 - 8 - 8 - 8 - 8
      rbx := m.rsp - 8, rbp := m.system_stack - 8 - 8, rdi := m.system_stack - 8 - 8 - 8
      rsi := m.rsp - 8 + 24, rdx := m.r11, memory := savedMemory code m } := by
  simp only [saveRegisters, push, savedMemory, savedWords, pushAll]

theorem allocateCall (code : Code) (m : Machine) :
    AllocateCall code m (push (saveRegisters m) code.allocate_return) := by
  rw [saveRegisters_call]
  refine ⟨?_, rfl, ?_, ?_, ?_, rfl, rfl, rfl, rfl, rfl, rfl, rfl, rfl⟩
  · change m.system_stack - 8 - 8 - 8 - 8 - 8 - 8 - 8 - 8 - 8 - 8 - 8 = _
    bv_omega
  · change m.system_stack - 8 - 8 = _
    bv_omega
  · change m.system_stack - 8 - 8 - 8 = _
    rw [slot]
    bv_omega
  · change m.rsp - 8 + 24 = _
    bv_omega

theorem callAllocateFrame_eq (code : Code) (f : Callees) (m : Machine) :
    callAllocateFrame code f (saveRegisters m) =
      if NoBlock f m then none
      else (seffMemAllocateFrame code.min_segment_size f.malloc m.r10.toNat m.r11.toNat m.heap
        m.frame_ptr).bind fun frame =>
          some (returnFrame f frame (push (saveRegisters m) code.allocate_return)) := by
  have hcall := allocateCall code m
  have hsize : load (push (saveRegisters m) code.allocate_return).memory
      (push (saveRegisters m) code.allocate_return).rdi = m.r10 := by
    rw [hcall.memory, hcall.rdi]
    exact load_slot code m (by decide)
  simp only [callAllocateFrame, hsize, hcall.rdx, hcall.heap, hcall.frame_ptr]
  rfl

theorem returnFrame_memory {f : Callees} {frame : Frame} {m : Machine} {x : Word}
    (hkept : Inside m.rsp 88 x ∨ Inside m.rbx (24 + m.rdx.toNat) x) (hsize : ¬ Inside m.rdi 8 x)
    (hstack : ¬ Inside (BitVec.ofNat 64 frame.new_stack) m.rdx.toNat x) :
    (returnFrame f frame m).memory x = m.memory x :=
  (copy_outside hstack).trans ((store_outside hsize).trans (if_pos hkept))

theorem returnFrame_params (f : Callees) (frame : Frame) {m : Machine} {d : Word}
    (hd : d < m.rdx) (hkept : Inside m.rbx (24 + m.rdx.toNat) (m.rsi + d))
    (hsize : ¬ Inside m.rdi 8 (m.rsi + d)) :
    (returnFrame f frame m).memory (BitVec.ofNat 64 frame.new_stack + d) = m.memory (m.rsi + d) :=
  (copy_inside _ _ _ hd).trans ((store_outside hsize).trans (if_pos (.inr hkept)))

theorem new_outside {m : Machine} {ns : Word} (h : Areas m ns) {x : Word} (hx : InUse m x) :
    ¬ Inside ns m.r11.toNat x := by
  intro hin
  refine h.unused x ?_ hx
  rw [Inside] at hin ⊢
  have hsub : x - ns = x - (ns - 24) - 24 := by bv_omega
  bv_omega

theorem Areas.fits {m : Machine} {ns : Word} (h : Areas m ns) : 24 + m.r11.toNat < 2 ^ 64 := by
  have hlow : Inside (m.system_stack - 88) 88 (m.system_stack - 88) := by
    rw [Inside, BitVec.sub_self]
    decide
  have hout := h.apart _ hlow
  rw [Inside] at hout
  omega

theorem params_frame {m : Machine} {ns d : Word} (h : Areas m ns) (hd : d < m.r11) :
    Inside (m.rsp - 8) (24 + m.r11.toNat) (m.rsp + 16 + d) ∧
      ¬ Inside (m.rsp - 8) 8 (m.rsp + 16 + d) := by
  have hfits := h.fits
  rw [BitVec.lt_def] at hd
  rw [Inside, Inside, show m.rsp + 16 + d - (m.rsp - 8) = 24 + d by bv_omega]
  bv_omega

theorem allocated_of_return {code : Code} {f : Callees} {frame : Frame} {m m' : Machine}
    (h : AllocateCall code m m') (hareas : Areas m (BitVec.ofNat 64 frame.new_stack))
    (hsome : (frame.heap frame.frame_ptr).isSome) :
    Allocated code f m (returnFrame f frame m') := by
  have hkept : ∀ x, InUse m x → Inside m'.rsp 88 x ∨ Inside m'.rbx (24 + m'.rdx.toNat) x := by
    rw [h.rsp, h.rbx, h.rdx]
    exact fun x hx => hx
  have hout : ∀ x, InUse m x → ¬ Inside (BitVec.ofNat 64 frame.new_stack) m'.rdx.toNat x := by
    rw [h.rdx]
    exact fun x => new_outside hareas
  have hframe : ∀ x, Inside (m.rsp - 8) (24 + m.r11.toNat) x → ¬ Inside m'.rdi 8 x := by
    rw [h.rdi]
    exact fun x hx hin => hareas.apart x (slot_inside (by decide) hin) hx
  refine ⟨hareas, h.rbx, h.rbp, h.r12, h.r13, h.r14, h.r15, rfl, ?_, ?_, ?_, hsome⟩
  · intro k hk hk2
    refine Eq.trans (load_congr fun x hx => ?_) (load_slot code m hk)
    have huse : InUse m x := .inl (slot_inside hk hx)
    rw [returnFrame_memory (hkept x huse) _ (hout x huse), h.memory]
    rw [h.rdi]
    exact slot_apart hk (by decide) hk2 hx
  · intro x hx
    have huse : InUse m x := .inr hx
    rw [returnFrame_memory (hkept x huse) (hframe x hx) (hout x huse), h.memory]
    exact savedMemory_frame code hareas hx
  · intro d hd
    obtain ⟨hin, hout⟩ := params_frame hareas hd
    have hparam := @returnFrame_params f frame m' d
    rw [h.rdx, h.rbx, h.rsi, h.memory] at hparam
    exact (hparam hd hin (hframe _ hin)).trans
      ((savedMemory_frame code hareas hin).trans (store_outside hout))

theorem callAllocateFrame_spec {code : Code} {f : Callees} {m : Machine} (h : Layout code f m)
    (hblock : ¬ NoBlock f m) :
    ∃ m', callAllocateFrame code f (saveRegisters m) = some m' ∧ Allocated code f m m' := by
  obtain ⟨frame, hframe, hsome, hptr⟩ := allocate_isSome code.min_segment_size f.malloc
    m.r10.toNat m.r11.toNat h.current fun hn => (h.cached hn).1
  have hchosen := allocate_chosen h.free hframe
  have hareas : Areas m (BitVec.ofNat 64 frame.new_stack) := ⟨h.apart, fun x hx =>
    newStack_apart (chosen_room h hblock hptr)
      (Nat.le_trans (Nat.le_add_left _ _) (le_chosenSize _ h.request _ _)) hchosen.new_stack hx⟩
  refine ⟨returnFrame f frame (push (saveRegisters m) code.allocate_return), ?_, ?_⟩
  · rw [callAllocateFrame_eq, if_neg hblock, hframe]
    rfl
  · exact allocated_of_return (allocateCall code m) hareas hsome

def FrameKept (m : Machine) (memory : Memory) : Prop :=
  ∀ x, Inside (m.rsp - 8) 24 x → memory x = store m.memory (m.rsp - 8) m.rbx x

theorem FrameKept.rbx {m : Machine} {memory : Memory} (h : FrameKept m memory) :
    load memory (m.rsp - 8) = m.rbx :=
  (load_congr fun x hx => h x (hx.mono (by decide))).trans (load_store _ _ _)

theorem FrameKept.load {m : Machine} {memory : Memory} (h : FrameKept m memory) {a : Word}
    (hlow : 8 ≤ (a - (m.rsp - 8)).toNat) (hhigh : (a - (m.rsp - 8)).toNat ≤ 16) :
    load memory a = load m.memory a := by
  refine load_congr fun x hx => ?_
  rw [Inside] at hx
  have hsub : x - (m.rsp - 8) = a - (m.rsp - 8) + (x - a) := by bv_omega
  have hoffset : (x - (m.rsp - 8)).toNat = (a - (m.rsp - 8)).toNat + (x - a).toNat := by
    rw [hsub, BitVec.toNat_add, Nat.mod_eq_of_lt (by omega)]
  rw [h x (show _ < 24 by omega)]
  exact store_outside (show ¬ _ < 8 by omega)

structure Entered (f : Callees) (m entry : Machine) (ns : Word) : Prop where
  areas : Areas m ns
  rip : entry.rip = load m.memory m.rsp + 1
  rsp : entry.rsp = ns - 8
  rbx : entry.rbx = m.rsp - 8
  rbp : entry.rbp = m.rbp
  rax : entry.rax = m.rax
  rdi : entry.rdi = m.rdi
  rsi : entry.rsi = m.rsi
  rdx : entry.rdx = m.rdx
  rcx : entry.rcx = m.rcx
  r8 : entry.r8 = m.r8
  r9 : entry.r9 = m.r9
  r12 : entry.r12 = m.r12
  r13 : entry.r13 = m.r13
  r14 : entry.r14 = m.r14
  r15 : entry.r15 = m.r15
  xmm : entry.xmm = f.allocate.xmm
  frame : FrameKept m entry.memory
  params : ∀ d : Word, d < m.r11 → entry.memory (ns + d) = m.memory (m.rsp + 16 + d)
  segment : (entry.heap entry.frame_ptr).isSome

theorem enterBody_eq (code : Code) (m : Machine) : enterBody code (switchStack m) = { m with
    rax := load m.memory (m.rbp - 16), rdi := load m.memory (m.rbp - 24)
    rsi := load m.memory (m.rbp - 32), rdx := load m.memory (m.rbp - 40)
    rcx := load m.memory (m.rbp - 48), r8 := load m.memory (m.rbp - 56)
    r9 := load m.memory (m.rbp - 64), rbp := load m.memory m.rbp
    r10 := load m.memory (m.rbx + 8) + 1, rip := load m.memory (m.rbx + 8) + 1
    stack_top := m.rax - load m.memory (m.rbp - 8)
    rsp := m.rax - 8, memory := store m.memory (m.rax - 8) code.body_return } := by
  simp only [enterBody, switchStack, push]

theorem entered_of_allocated {code : Code} {f : Callees} {m m' : Machine}
    (h : Allocated code f m m') : Entered f m (enterBody code (switchStack m')) m'.rax := by
  have hslot : ∀ k (hk : k < 11), k ≠ 2 → ∀ a, a = slot m k →
      load m'.memory a = (savedWords code m)[k] := by
    rintro k hk hk2 a rfl
    exact h.slots k hk hk2
  have hframe : FrameKept m m'.memory := fun x hx => h.frame x (hx.mono (Nat.le_add_right _ _))
  have hreturn : load m'.memory (m'.rbx + 8) = load m.memory m.rsp := by
    rw [h.rbx, BitVec.sub_add_cancel]
    exact hframe.load (by bv_omega) (by bv_omega)
  have hpush : ∀ x, Inside (m'.rax - 8) 8 x → Inside (m'.rax - 24) 24 x := by
    intro x hx
    rw [Inside] at hx ⊢
    bv_omega
  rw [enterBody_eq]
  refine ⟨h.areas, ?_, rfl, h.rbx, ?_, ?_, ?_, ?_, ?_, ?_, ?_, ?_, h.r12, h.r13, h.r14, h.r15,
    h.xmm, fun x hx => ?_, fun d hd => ?_, h.segment⟩
  · exact congrArg (· + 1) hreturn
  · exact hslot 1 (by decide) (by decide) _ (by rw [h.rbp, slot]; bv_omega)
  · exact hslot 3 (by decide) (by decide) _ (by rw [h.rbp, slot]; bv_omega)
  · exact hslot 4 (by decide) (by decide) _ (by rw [h.rbp, slot]; bv_omega)
  · exact hslot 5 (by decide) (by decide) _ (by rw [h.rbp, slot]; bv_omega)
  · exact hslot 6 (by decide) (by decide) _ (by rw [h.rbp, slot]; bv_omega)
  · exact hslot 7 (by decide) (by decide) _ (by rw [h.rbp, slot]; bv_omega)
  · exact hslot 8 (by decide) (by decide) _ (by rw [h.rbp, slot]; bv_omega)
  · exact hslot 9 (by decide) (by decide) _ (by rw [h.rbp, slot]; bv_omega)
  · refine Eq.trans (store_outside fun hin => ?_) (hframe x hx)
    exact h.areas.unused x ((hpush x hin).mono (Nat.le_add_right _ _))
      (.inr (hx.mono (Nat.le_add_right _ _)))
  · refine Eq.trans (store_outside fun hin => ?_) (h.params d hd)
    have hfits := h.areas.fits
    rw [Inside] at hin
    bv_omega

structure Exited (f : Callees) (m exit : Machine) (ns : Word) : Prop where
  areas : Areas m ns
  rsp : exit.rsp = ns
  rbx : exit.rbx = m.rsp - 8
  rbp : exit.rbp = m.rbp
  r12 : exit.r12 = m.r12
  r13 : exit.r13 = m.r13
  r14 : exit.r14 = m.r14
  r15 : exit.r15 = m.r15
  xmm : exit.xmm = f.body.xmm
  frame : FrameKept m exit.memory
  segment : (exit.heap exit.frame_ptr).isSome

theorem exited_of_entered {f : Callees} {m entry : Machine} {ns : Word}
    (h : Entered f m entry ns) : Exited f m (runBody f entry) ns := by
  refine ⟨h.areas, ?_, h.rbx, h.rbp, h.r12, h.r13, h.r14, h.r15, rfl, fun x hx => ?_, ?_⟩
  · exact (congrArg (· + 8) h.rsp).trans (BitVec.sub_add_cancel _ _)
  · refine Eq.trans (if_pos (.inr ?_)) (h.frame x hx)
    rwa [h.rbx]
  · change (Function.update f.heap entry.frame_ptr ((entry.heap entry.frame_ptr).map _)
      entry.frame_ptr).isSome
    rw [Function.update_self, Option.isSome_map]
    exact h.segment

def releasedMemory (code : Code) (f : Callees) (exit : Machine) : Memory := fun x =>
  if Inside (exit.rsp - 8 - 8 - 8) 24 x ∨ Inside exit.rbx 24 x then
    pushAll exit.memory exit.rsp [exit.rax, exit.rdx, code.release_return] x
  else f.release.memory x

theorem leaveSegment_eq (code : Code) (f : Callees) {m : Machine} {segment : Segment}
    (h : m.heap m.frame_ptr = some segment) :
    leaveSegment code f m = some { clobber f.release (fun _ => False) m with
      rax := load (releasedMemory code f m) (m.rsp - 8 - 8 - 8 + 8 + 8)
      rdx := load (releasedMemory code f m) (m.rsp - 8 - 8 - 8 + 8)
      rbx := load (releasedMemory code f m) m.rbx
      rip := load (releasedMemory code f m) (m.rbx + 8), rsp := m.rbx + 8 + 8
      stack_top := BitVec.ofNat 64 (addSize segment.prev sizeofSegment)
      memory := releasedMemory code f m, frame_ptr := segment.prev } := by
  simp only [leaveSegment, callReleaseFrame, push, seffMemReleaseFrame, h, Option.bind_eq_bind,
    Option.bind_some, clobber, ret]
  rfl

structure Returned (f : Callees) (m exit caller : Machine) : Prop where
  rip : caller.rip = load m.memory (m.rsp + 8)
  rsp : caller.rsp = m.rsp + 16
  rax : caller.rax = exit.rax
  rdx : caller.rdx = exit.rdx
  rbx : caller.rbx = m.rbx
  rbp : caller.rbp = m.rbp
  r12 : caller.r12 = m.r12
  r13 : caller.r13 = m.r13
  r14 : caller.r14 = m.r14
  r15 : caller.r15 = m.r15
  xmm : caller.xmm = f.release.xmm

theorem ret_rip (m : Machine) : (ret m).rip = load m.memory m.rsp := rfl

theorem returned_of_exited (code : Code) {f : Callees} {m exit : Machine} {ns : Word}
    (h : Exited f m exit ns) :
    ∃ m', leaveSegment code f exit = some m' ∧ Returned f m exit (ret m') := by
  obtain ⟨segment, hsegment⟩ := Option.isSome_iff_exists.mp h.segment
  have hlen : 8 * [exit.rax, exit.rdx, code.release_return].length < 2 ^ 64 := by
    rw [show [exit.rax, exit.rdx, code.release_return].length = 3 from rfl]
    decide
  have hframe : FrameKept m (releasedMemory code f exit) := by
    intro x hx
    refine Eq.trans (if_pos (.inr (by rwa [h.rbx]))) ?_
    refine Eq.trans (pushAll_outside hlen _ _ fun hin => ?_) (h.frame x hx)
    rw [h.rsp] at hin
    exact h.areas.unused x (hin.mono (Nat.le_add_right _ _)) (.inr (hx.mono (Nat.le_add_right _ _)))
  have hpop : ∀ k (hk : k < 3) a, a = exit.rsp - BitVec.ofNat 64 (8 * (k + 1)) →
      load (releasedMemory code f exit) a = [exit.rax, exit.rdx, code.release_return][k] := by
    rintro k hk a rfl
    refine Eq.trans (load_congr fun x hx => if_pos (.inl ?_)) (load_pushAll hlen _ _ hk)
    rw [Inside] at hx ⊢
    bv_omega
  refine ⟨_, leaveSegment_eq code f hsegment, ?_, ?_, ?_, ?_, ?_, h.rbp, h.r12, h.r13, h.r14,
    h.r15, rfl⟩
  · refine Eq.trans (ret_rip _) ?_
    change load (releasedMemory code f exit) (exit.rbx + 8 + 8) = _
    rw [h.rbx, show m.rsp - 8 + 8 + 8 = m.rsp + 8 by bv_omega]
    exact hframe.load (by bv_omega) (by bv_omega)
  · change exit.rbx + 8 + 8 + 8 = _
    rw [h.rbx]
    bv_omega
  · exact hpop 0 (by decide) _ (by bv_omega)
  · exact hpop 1 (by decide) _ (by bv_omega)
  · change load (releasedMemory code f exit) exit.rbx = _
    rw [h.rbx]
    exact hframe.rbx

/-- What `__morestack` does for the body and for the caller. -/
theorem morestack_spec {code : Code} {f : Callees} {m : Machine} (h : Layout code f m)
    (hblock : ¬ NoBlock f m) : ∃ o ns, morestack code f m = some o ∧ Entered f m o.entry ns ∧
      Returned f m o.exit o.caller ∧ o.exit.xmm = f.body.xmm := by
  obtain ⟨m1, hcall, hallocated⟩ := callAllocateFrame_spec h hblock
  have hentered := entered_of_allocated hallocated
  have hexited := exited_of_entered hentered
  obtain ⟨m2, hleave, hreturned⟩ := returned_of_exited code hexited
  let entry := enterBody code (switchStack m1)
  refine ⟨⟨entry, runBody f entry, ret m2⟩, m1.rax, ?_, hentered, hreturned, hexited.xmm⟩
  simp only [morestack, hcall, hleave, Option.bind_eq_bind, Option.bind_some, entry]

theorem morestack_none {code : Code} {f : Callees} {m : Machine} (h : NoBlock f m) :
    morestack code f m = none := by
  rw [morestack, callAllocateFrame_eq, if_pos h]
  rfl

end Libseff.MorestackFrames
