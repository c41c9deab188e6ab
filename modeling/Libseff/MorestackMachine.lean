import Libseff.ByteMemory
import Libseff.SegmentLimits

namespace Libseff.MorestackMachine

open ByteMemory StackSegments SegmentLimits

abbrev Word := BitVec 64

/-- The registers, `%fs:0x70`, the stack pointer in `_seff_system_stack`, the bytes
of the stacks, and the headers of the segments with the `frame_ptr` of the
running coroutine. -/
structure Machine where
  rax : Word
  rbx : Word
  rcx : Word
  rdx : Word
  rsi : Word
  rdi : Word
  rbp : Word
  rsp : Word
  r8 : Word
  r9 : Word
  r10 : Word
  r11 : Word
  r12 : Word
  r13 : Word
  r14 : Word
  r15 : Word
  rip : Word
  xmm : Fin 16 → BitVec 128
  stack_top : Word
  system_stack : Word
  memory : Memory
  heap : Heap
  frame_ptr : ℕ

/-- The vector-argument count. -/
def Machine.al (m : Machine) : BitVec 8 := m.rax.setWidth 8

/-- What a function leaves in the caller-saved registers and in the bytes that
are not its caller's. -/
structure Left where
  rax : Word
  rcx : Word
  rdx : Word
  rsi : Word
  rdi : Word
  r8 : Word
  r9 : Word
  r10 : Word
  r11 : Word
  xmm : Fin 16 → BitVec 128
  memory : Memory

/-- The functions that run during a call: the address that `malloc` returns, what
each function leaves, and the segments after the body, which may have grown the
stack further behind its own segment. -/
structure Callees where
  malloc : ℕ
  allocate : Left
  body : Left
  release : Left
  heap : Heap
  next : ℕ

/-- The two settings, and the return addresses of the calls in `__morestack`. -/
structure Code where
  min_segment_size : ℕ
  syscall_segment_size : Word
  allocate_return : Word
  body_return : Word
  release_return : Word

def push (m : Machine) (w : Word) : Machine :=
  { m with rsp := m.rsp - 8, memory := store m.memory (m.rsp - 8) w }

def ret (m : Machine) : Machine := { m with rip := load m.memory m.rsp, rsp := m.rsp + 8 }

/-- A function that obeys the ABI keeps the callee-saved registers and the bytes
of its caller. -/
def clobber (left : Left) (kept : Word → Prop) [DecidablePred kept] (m : Machine) : Machine :=
  { m with
    rax := left.rax, rcx := left.rcx, rdx := left.rdx, rsi := left.rsi, rdi := left.rdi,
    r8 := left.r8, r9 := left.r9, r10 := left.r10, r11 := left.r11, xmm := left.xmm,
    memory := fun x => if kept x then m.memory x else left.memory x }

def takesBlock (heap : Heap) (frame_ptr frame_size param_size : ℕ) : Prop :=
  let next := nextOf heap frame_ptr
  next = NULL ∨ spaceOf heap next < addSize frame_size param_size

instance (heap : Heap) (frame_ptr frame_size param_size : ℕ) :
    Decidable (takesBlock heap frame_ptr frame_size param_size) :=
  inferInstanceAs (Decidable (_ ∨ _))

/-- The end of `seff_mem_allocate_frame`. The words that `__morestack` has pushed
are its caller's, and so are the three words from `rbx` on with the parameters
behind them. -/
def returnFrame (f : Callees) (frame : Frame) (m : Machine) : Machine :=
  let pframe_size := m.rdi
  let old_stack := m.rsi
  let param_size := m.rdx.toNat
  let new_stack := BitVec.ofNat 64 frame.new_stack
  let m := clobber f.allocate (fun x => Inside m.rsp 88 x ∨ Inside m.rbx (24 + param_size) x) m
  let memory := store m.memory pframe_size (BitVec.ofNat 64 frame.frame_size)
  ret { m with
    rax := new_stack, memory := copy memory new_stack old_stack param_size,
    heap := frame.heap, frame_ptr := frame.frame_ptr }

/-- The call of `seff_mem_allocate_frame`. Without a block the process exits. -/
def callAllocateFrame (code : Code) (f : Callees) (m : Machine) : Option Machine := do
  let m := push m code.allocate_return
  let param_size := m.rdx.toNat
  let frame_size := (load m.memory m.rdi).toNat
  if takesBlock m.heap m.frame_ptr frame_size param_size ∧ f.malloc = NULL then none
  else do
    let frame ← seffMemAllocateFrame code.min_segment_size f.malloc frame_size param_size
      m.heap m.frame_ptr
    some (returnFrame f frame m)

/-- The call of `seff_mem_release_frame`, on the stack of the body. -/
def callReleaseFrame (code : Code) (f : Callees) (m : Machine) : Option Machine := do
  let m := push m code.release_return
  let (frame_ptr, stack_top) ← seffMemReleaseFrame m.heap m.frame_ptr
  let m := clobber f.release (fun x => Inside m.rsp 24 x ∨ Inside m.rbx 24 x) m
  some (ret { m with rax := BitVec.ofNat 64 stack_top, frame_ptr := frame_ptr })

/-- `__morestack` up to the call of `seff_mem_allocate_frame`. -/
def saveRegisters (m : Machine) : Machine :=
  let m := push m m.rbx
  let m := { m with rbx := m.rsp }
  let m := { m with rsp := m.system_stack }
  let m := push m m.rbp
  let m := push m m.rbp
  let m := { m with rbp := m.rsp }
  let m := push m m.r10
  let m := push m m.rax
  let m := push m m.rdi
  let m := push m m.rsi
  let m := push m m.rdx
  let m := push m m.rcx
  let m := push m m.r8
  let m := push m m.r9
  let m := { m with rdi := m.rbp - 8 }
  let m := { m with rsi := m.rbx + 24 }
  { m with rdx := m.r11 }

def switchStack (m : Machine) : Machine :=
  let m := { m with r10 := load m.memory (m.rbp - 8) }
  let m := { m with rsp := m.rax }
  let m := { m with rax := m.rax - m.r10 }
  let m := { m with stack_top := m.rax }
  let m := { m with rax := load m.memory (m.rbp - 16) }
  let m := { m with rdi := load m.memory (m.rbp - 24) }
  let m := { m with rsi := load m.memory (m.rbp - 32) }
  let m := { m with rdx := load m.memory (m.rbp - 40) }
  let m := { m with rcx := load m.memory (m.rbp - 48) }
  let m := { m with r8 := load m.memory (m.rbp - 56) }
  let m := { m with r9 := load m.memory (m.rbp - 64) }
  let m := { m with rbp := load m.memory m.rbp }
  let m := { m with r10 := load m.memory (m.rbx + 8) }
  { m with r10 := m.r10 + 1 }

def enterBody (code : Code) (m : Machine) : Machine :=
  let m := push m code.body_return
  { m with rip := m.r10 }

/-- The return address of the body and the three words from `rbx` on are not its
own. Of the header of its segment it can only change `next`. -/
def runBody (f : Callees) (m : Machine) : Machine :=
  let heap := Function.update f.heap m.frame_ptr
    ((m.heap m.frame_ptr).map fun s => { s with next := f.next })
  ret { clobber f.body (fun x => Inside m.rsp 8 x ∨ Inside m.rbx 24 x) m with heap := heap }

def leaveSegment (code : Code) (f : Callees) (m : Machine) : Option Machine := do
  let m := push m m.rax
  let m := push m m.rdx
  let m ← callReleaseFrame code f m
  let m := { m with stack_top := m.rax }
  let m := { m with rdx := load m.memory m.rsp, rsp := m.rsp + 8 }
  let m := { m with rax := load m.memory m.rsp, rsp := m.rsp + 8 }
  let m := { m with rsp := m.rbx }
  let m := { m with rbx := load m.memory m.rsp, rsp := m.rsp + 8 }
  some (ret m)

/-- The machine at the first instruction of the body, when the body has returned,
and at the return to the caller. -/
structure Outcome where
  entry : Machine
  exit : Machine
  caller : Machine

/-- The instruction behind the call of `__morestack` is a `ret`, and the body comes
after it. -/
def morestack (code : Code) (f : Callees) (m : Machine) : Option Outcome := do
  let m ← callAllocateFrame code f (saveRegisters m)
  let entry := enterBody code (switchStack m)
  let exit := runBody f entry
  let m ← leaveSegment code f exit
  some ⟨entry, exit, ret m⟩

def skipReturn (m : Machine) : Machine :=
  ret { m with memory := store m.memory m.rsp (load m.memory m.rsp + 1) }

/-- The comparison is unsigned. -/
def morestackNonSplit (code : Code) (f : Callees) (m : Machine) : Option Outcome :=
  let m := { m with rax := code.syscall_segment_size }
  let m := { m with r10 := m.r10 + m.rax }
  let m := { m with rsp := m.rsp - m.r10 }
  if m.rsp < m.stack_top then
    morestack code f { m with rsp := m.rsp + m.r10 }
  else
    let entry := skipReturn { m with rsp := m.rsp + m.r10 }
    let exit := ret (clobber f.body (Inside entry.rsp 8) entry)
    some ⟨entry, exit, exit⟩

inductive Entry where
  | morestack
  | nonSplit

def enter (code : Code) (f : Callees) : Entry → Machine → Option Outcome
  | .morestack => morestack code f
  | .nonSplit => morestackNonSplit code f

end Libseff.MorestackMachine
