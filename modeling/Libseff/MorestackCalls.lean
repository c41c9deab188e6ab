import Libseff.MorestackFrames

namespace Libseff.MorestackCalls

open ByteMemory StackSegments SegmentLimits MorestackMachine MorestackFrames

def Grows (code : Code) : Entry → Machine → Prop
  | .morestack, _ => True
  | .nonSplit, m => m.rsp - (m.r10 + code.syscall_segment_size) < m.stack_top

def asked (code : Code) : Entry → Machine → Machine
  | .morestack, m => m
  | .nonSplit, m => { m with
    rax := code.syscall_segment_size, r10 := m.r10 + code.syscall_segment_size }

/-- A machine behind the call in a prologue: above the two return addresses are the
parameters, and a new segment can be taken where one is needed. -/
structure Prologue (code : Code) (f : Callees) (e : Entry) (m : Machine) : Prop where
  params : 16 + m.r11.toNat ≤ 2 ^ 64
  layout : Grows code e m → Layout code f (asked code e m)

/-- What the body that `m` calls sees at its first instruction. -/
structure SameArguments (m entry : Machine) : Prop where
  rip : entry.rip = load m.memory m.rsp + 1
  rdi : entry.rdi = m.rdi
  rsi : entry.rsi = m.rsi
  rdx : entry.rdx = m.rdx
  rcx : entry.rcx = m.rcx
  r8 : entry.r8 = m.r8
  r9 : entry.r9 = m.r9
  al : entry.al = m.al
  xmm : ∀ i : Fin 16, i.val < 8 → entry.xmm i = m.xmm i
  params : ∀ d : Word, d < m.r11 → entry.memory (entry.rsp + 8 + d) = m.memory (m.rsp + 16 + d)

/-- What the caller of `m` sees when the body has left `exit`. -/
structure SameResults (m exit caller : Machine) : Prop where
  rip : caller.rip = load m.memory (m.rsp + 8)
  rsp : caller.rsp = m.rsp + 16
  rax : caller.rax = exit.rax
  rdx : caller.rdx = exit.rdx
  xmm : ∀ i : Fin 16, i.val < 2 → caller.xmm i = exit.xmm i
  rbx : caller.rbx = m.rbx
  rbp : caller.rbp = m.rbp
  r12 : caller.r12 = m.r12
  r13 : caller.r13 = m.r13
  r14 : caller.r14 = m.r14
  r15 : caller.r15 = m.r15

def Transparent (code : Code) (f : Callees) (e : Entry) (m : Machine) : Prop :=
  ∀ o, enter code f e m = some o → SameArguments m o.entry ∧ SameResults m o.exit o.caller

/-- `__morestack_non_split` leaves the vector-argument count alone, and where a
segment is taken the two C functions leave the vector registers alone. -/
structure RegistersKept (code : Code) (f : Callees) (e : Entry) (m : Machine) : Prop where
  count : e = .nonSplit → code.syscall_segment_size.setWidth 8 = m.al
  arguments : Grows code e m → ∀ i : Fin 16, i.val < 8 → f.allocate.xmm i = m.xmm i
  results : Grows code e m → ∀ i : Fin 16, i.val < 2 → f.release.xmm i = f.body.xmm i

theorem enter_of_grows (code : Code) (f : Callees) {e : Entry} {m : Machine}
    (h : Grows code e m) : enter code f e m = morestack code f (asked code e m) := by
  cases e with
  | morestack => rfl
  | nonSplit =>
    refine (if_pos h).trans ?_
    rw [BitVec.sub_add_cancel]
    rfl

theorem skipReturn_params {m : Machine} (h : 16 + m.r11.toNat ≤ 2 ^ 64) {d : Word}
    (hd : d < m.r11) : (skipReturn m).memory ((skipReturn m).rsp + 8 + d) =
      m.memory (m.rsp + 16 + d) := by
  change store m.memory m.rsp (load m.memory m.rsp + 1) (m.rsp + 8 + 8 + d) = _
  rw [show m.rsp + 8 + 8 + d = m.rsp + 16 + d by bv_omega]
  refine store_outside ?_
  rw [BitVec.lt_def] at hd
  rw [Inside, show m.rsp + 16 + d - m.rsp = 16 + d by bv_omega]
  bv_omega

theorem skipReturn_results (left : Left) (m : Machine) : SameResults m
    (ret (clobber left (Inside (skipReturn m).rsp 8) (skipReturn m)))
    (ret (clobber left (Inside (skipReturn m).rsp 8) (skipReturn m))) := by
  refine ⟨?_, ?_, rfl, rfl, fun _ _ => rfl, rfl, rfl, rfl, rfl, rfl, rfl⟩
  · refine load_congr fun x hx => ?_
    refine Eq.trans (if_pos hx) (store_outside ?_)
    change Inside (m.rsp + 8) 8 x at hx
    rw [Inside] at hx ⊢
    bv_omega
  · change m.rsp + 8 + 8 = _
    bv_omega

theorem nonSplit_kept {code : Code} (f : Callees) {m : Machine} (h : ¬ Grows code .nonSplit m)
    (hparams : 16 + m.r11.toNat ≤ 2 ^ 64) :
    ∃ o, enter code f .nonSplit m = some o ∧
      o.entry.al = code.syscall_segment_size.setWidth 8 ∧ SameResults m o.exit o.caller ∧
      (o.entry.al = m.al → SameArguments m o.entry) := by
  let m' : Machine := { m with
    rax := code.syscall_segment_size, r10 := m.r10 + code.syscall_segment_size }
  have henter : enter code f .nonSplit m = some ⟨skipReturn m',
      ret (clobber f.body (Inside (skipReturn m').rsp 8) (skipReturn m')),
      ret (clobber f.body (Inside (skipReturn m').rsp 8) (skipReturn m'))⟩ := by
    refine (if_neg h).trans ?_
    rw [BitVec.sub_add_cancel]
  have hresults := skipReturn_results f.body m'
  refine ⟨_, henter, rfl, ?_, fun hal => ?_⟩
  · exact ⟨hresults.rip, hresults.rsp, rfl, rfl, fun _ _ => rfl, rfl, rfl, rfl, rfl, rfl, rfl⟩
  · exact ⟨load_store _ _ _, rfl, rfl, rfl, rfl, rfl, rfl, hal, fun _ _ => rfl,
      fun d hd => skipReturn_params (m := m') hparams hd⟩

theorem params_of_entered {f : Callees} {m entry : Machine} {ns : Word}
    (h : Entered f m entry ns) {d : Word} (hd : d < m.r11) :
    entry.memory (entry.rsp + 8 + d) = m.memory (m.rsp + 16 + d) := by
  rw [h.rsp, BitVec.sub_add_cancel]
  exact h.params d hd

theorem grown {code : Code} {f : Callees} {e : Entry} {m : Machine} (h : Grows code e m)
    (hlayout : Layout code f (asked code e m)) (hblock : ¬ NoBlock f (asked code e m)) :
    ∃ o, enter code f e m = some o ∧ o.entry.al = (asked code e m).al ∧
      o.entry.xmm = f.allocate.xmm ∧ o.exit.xmm = f.body.xmm ∧ o.caller.xmm = f.release.xmm ∧
      (o.entry.al = m.al → (∀ i : Fin 16, i.val < 8 → f.allocate.xmm i = m.xmm i) →
        SameArguments m o.entry) ∧
      ((∀ i : Fin 16, i.val < 2 → f.release.xmm i = f.body.xmm i) →
        SameResults m o.exit o.caller) := by
  obtain ⟨o, ns, ho, hentered, hreturned, hexit⟩ := morestack_spec hlayout hblock
  have hal : o.entry.al = (asked code e m).al := congrArg (BitVec.setWidth 8) hentered.rax
  have hparams : ∀ d : Word, d < (asked code e m).r11 → _ :=
    fun d => params_of_entered hentered
  refine ⟨o, (enter_of_grows code f h).trans ho, hal, hentered.xmm, hexit, hreturned.xmm,
    fun hcount hxmm => ?_, fun hxmm => ?_⟩
  · have hx : ∀ i : Fin 16, i.val < 8 → o.entry.xmm i = m.xmm i := by
      rw [hentered.xmm]
      exact hxmm
    cases e <;> exact ⟨hentered.rip, hentered.rdi, hentered.rsi, hentered.rdx, hentered.rcx,
      hentered.r8, hentered.r9, hcount, hx, hparams⟩
  · have hx : ∀ i : Fin 16, i.val < 2 → o.caller.xmm i = o.exit.xmm i := by
      rw [hreturned.xmm, hexit]
      exact hxmm
    cases e <;> exact ⟨hreturned.rip, hreturned.rsp, hreturned.rax, hreturned.rdx, hx,
      hreturned.rbx, hreturned.rbp, hreturned.r12, hreturned.r13, hreturned.r14, hreturned.r15⟩

theorem asked_al {code : Code} {e : Entry} {m : Machine} : (asked code e m).al = m.al ↔
    (e = .nonSplit → code.syscall_segment_size.setWidth 8 = m.al) := by
  cases e with
  | morestack => exact ⟨fun _ h => (nomatch h), fun _ => rfl⟩
  | nonSplit => exact ⟨fun h _ => h, fun h => h rfl⟩

theorem transparent_of_grows {code : Code} {f : Callees} {e : Entry} {m : Machine}
    (h : Grows code e m) (hlayout : Layout code f (asked code e m))
    (hblock : ¬ NoBlock f (asked code e m)) :
    Transparent code f e m ↔ RegistersKept code f e m := by
  obtain ⟨o, ho, hal, hentry, hexit, hcaller, harguments, hresults⟩ := grown h hlayout hblock
  constructor
  · intro htransparent
    obtain ⟨hargs, hres⟩ := htransparent o ho
    refine ⟨asked_al.mp (hal.symm.trans hargs.al), fun _ i hi => ?_, fun _ i hi => ?_⟩
    · rw [← hentry]
      exact hargs.xmm i hi
    · rw [← hcaller, ← hexit]
      exact hres.xmm i hi
  · intro hkept o' ho'
    obtain rfl : o = o' := Option.some.inj (ho.symm.trans ho')
    exact ⟨harguments (hal.trans (asked_al.mpr hkept.count)) (hkept.arguments h),
      hresults (hkept.results h)⟩

/-- A call through the two routines is transparent if and only if the process exits
in it or the registers that they do not save are left alone. -/
theorem transparent_iff {code : Code} {f : Callees} {e : Entry} {m : Machine}
    (h : Prologue code f e m) : Transparent code f e m ↔
      (Grows code e m ∧ NoBlock f (asked code e m)) ∨ RegistersKept code f e m := by
  by_cases hgrows : Grows code e m
  · by_cases hblock : NoBlock f (asked code e m)
    · refine ⟨fun _ => .inl ⟨hgrows, hblock⟩, fun _ o ho => ?_⟩
      rw [enter_of_grows code f hgrows, morestack_none hblock] at ho
      cases ho
    · rw [transparent_of_grows hgrows (h.layout hgrows) hblock]
      exact ⟨.inr, fun hor => hor.resolve_left fun hno => hblock hno.2⟩
  · obtain rfl : e = .nonSplit := by
      cases e with
      | morestack => exact absurd trivial hgrows
      | nonSplit => rfl
    obtain ⟨o, ho, hal, hresults, harguments⟩ := nonSplit_kept f hgrows h.params
    constructor
    · intro htransparent
      have hcount := (htransparent o ho).1.al
      exact .inr ⟨fun _ => hal.symm.trans hcount, fun hg => absurd hg hgrows,
        fun hg => absurd hg hgrows⟩
    · rintro (hno | hkept) o' ho'
      · exact absurd hno.1 hgrows
      · obtain rfl : o = o' := Option.some.inj (ho.symm.trans ho')
        exact ⟨harguments (hal.trans (hkept.count rfl)), hresults⟩

def sampleLeft : Left := ⟨0, 0, 0, 0, 0, 0, 0, 0, 0, fun _ => 0, fun _ => 0⟩

def sampleCallees : Callees :=
  { malloc := 0x30000, allocate := sampleLeft, body := sampleLeft, release := sampleLeft,
    heap := fun _ => none, next := 0 }

def sampleCode : Code :=
  { min_segment_size := 0, syscall_segment_size := 0x2000, allocate_return := 0x500100,
    body_return := 0x500200, release_return := 0x500300 }

def sample (x : BitVec 128) : Machine :=
  { rax := 0, rbx := 1, rcx := 4, rdx := 3, rsi := 2, rdi := 1, rbp := 0xff80, rsp := 0xff00
    r8 := 5, r9 := 6, r10 := 64, r11 := 16, r12 := 12, r13 := 13, r14 := 14, r15 := 15
    rip := 0x500000, xmm := fun i => if i = 0 then x else 0, stack_top := 0xf000
    system_stack := 0x20000, memory := fun _ => 0
    heap := fun a => if a = 0x8000 then some ⟨NULL, NULL, 0x7f60⟩ else none
    frame_ptr := 0x8000 }

theorem sample_room (e : Entry) (x : BitVec 128) {size : ℕ} (hsize : size ≤ 0x10000) :
    Room (asked sampleCode e (sample x)) 0x30000 size := by
  refine ⟨by simp only [sizeofSegment]; omega, fun i hlow hhigh => ?_⟩
  simp only [sizeofSegment, offsetofPadding] at hlow hhigh
  have hi : (BitVec.ofNat 64 i).toNat = i := by rw [BitVec.toNat_ofNat]; omega
  have huse : ¬ (Inside (0x20000 - 88) 88 (BitVec.ofNat 64 i) ∨
      Inside (0xff00 - 8) 40 (BitVec.ofNat 64 i)) := by
    rw [Inside, Inside]
    generalize BitVec.ofNat 64 i = y at hi ⊢
    bv_omega
  cases e <;> exact huse

theorem newSize_zero (frame_size param_size : ℕ) :
    newSize 0 frame_size param_size = addSize frame_size param_size := by
  simp only [newSize, Nat.not_lt_zero, if_false]

theorem sample_layout (e : Entry) (x : BitVec 128) :
    Layout sampleCode sampleCallees (asked sampleCode e (sample x)) := by
  have hr10 : (asked sampleCode e (sample x)).r10.toNat ≤ 0x4000 := by
    cases e with
    | morestack => exact (show (64 : Word).toNat ≤ 0x4000 by decide)
    | nonSplit => exact (show (64 + 0x2000 : Word).toNat ≤ 0x4000 by decide)
  have hr11 : (asked sampleCode e (sample x)).r11.toNat = 16 := by cases e <;> rfl
  have hsize : newSize sampleCode.min_segment_size (asked sampleCode e (sample x)).r10.toNat
      (asked sampleCode e (sample x)).r11.toNat ≤ 0x10000 := by
    rw [show sampleCode.min_segment_size = 0 from rfl, newSize_zero, hr11, addSize]
    omega
  have hapart : ∀ y : Word, Inside (0x20000 - 88) 88 y → ¬ Inside (0xff00 - 8) 40 y := by
    intro y hy
    rw [Inside] at hy ⊢
    bv_omega
  have hroom := sample_room e x hsize
  have hrequest : (asked sampleCode e (sample x)).r10.toNat +
      (asked sampleCode e (sample x)).r11.toNat < 2 ^ 64 := by omega
  cases e <;>
    exact ⟨hapart, hrequest, rfl, fun h => absurd rfl h, rfl, fun _ => hroom⟩

theorem transparent_nonSplit : Transparent sampleCode sampleCallees .nonSplit (sample 0) :=
  (transparent_iff ⟨by decide, fun _ => sample_layout .nonSplit 0⟩).mpr
    (.inr ⟨fun _ => rfl, fun _ i _ => (ite_self (0 : BitVec 128)).symm, fun _ _ _ => rfl⟩)

/-- An argument in the first vector register is lost in `seff_mem_allocate_frame`. -/
theorem not_transparent : ¬ ∀ code f e m, Prologue code f e m → Transparent code f e m := by
  intro h
  have hlayout := sample_layout .morestack 1
  have hblock : ¬ NoBlock sampleCallees (sample 1) := fun hno => absurd hno.2 (by decide)
  obtain ⟨o, ns, ho, hentered, -, -⟩ := morestack_spec hlayout hblock
  have hsample : Prologue sampleCode sampleCallees .morestack (sample 1) :=
    ⟨by decide, fun _ => hlayout⟩
  have hxmm := (h _ _ _ _ hsample o ho).1.xmm 0 (by decide)
  rw [hentered.xmm] at hxmm
  exact absurd hxmm (by decide)

end Libseff.MorestackCalls
