import Mathlib.Data.Nat.Notation
import Mathlib.Logic.Function.Basic

namespace Libseff.CoroutineMachine

abbrev Word := BitVec 64

def NULL : Word := 0

def RETURN_EFFECT_ID : Word := 0

structure Cont where
  stack_top : Word
  current_coroutine : Word
  rsp : Word
  rbp : Word
  ip : Word
  rbx : Word
  r12 : Word
  r13 : Word
  r14 : Word
  r15 : Word

inductive CoroutineState where
  | finished
  | paused
  | running

/-- `seff_coroutine_t` without `frame_ptr`, which belongs to the stack
allocator. -/
structure Coroutine where
  resume_point : Cont
  state : CoroutineState
  parent_coroutine : Word
  handled_effects : Word

/-- The registers, the thread-local variables (`stack_top` is `%fs:0x70`), the
words of memory and the coroutine objects, each by its address. -/
structure Machine where
  rax : Word
  rbx : Word
  rcx : Word
  rdx : Word
  rsi : Word
  rdi : Word
  rbp : Word
  rsp : Word
  r9 : Word
  r10 : Word
  r11 : Word
  r12 : Word
  r13 : Word
  r14 : Word
  r15 : Word
  rip : Word
  stack_top : Word
  current_coroutine : Word
  system_stack : Word
  memory : Word → Word
  coroutines : Word → Coroutine

/-- The addresses of `coroutine_prelude` and of the instruction after its call,
and the pointer that `HANDLES_ALL` stands for. -/
structure Code where
  coroutine_prelude : Word
  prelude_return : Word
  handles_all : Word
  prelude_ne : coroutine_prelude ≠ prelude_return

def resumePoint (m : Machine) : Cont := (m.coroutines m.rdi).resume_point

def setCoroutine (m : Machine) (f : Coroutine → Coroutine) : Machine :=
  { m with coroutines := Function.update m.coroutines m.rdi (f (m.coroutines m.rdi)) }

def setResumePoint (m : Machine) (f : Cont → Cont) : Machine :=
  setCoroutine m fun k => { k with resume_point := f k.resume_point }

def push (m : Machine) (w : Word) : Machine :=
  { m with rsp := m.rsp - 8, memory := Function.update m.memory (m.rsp - 8) w }

def popR11 (m : Machine) : Machine := { m with r11 := m.memory m.rsp, rsp := m.rsp + 8 }

def swapRegisters (m : Machine) : Machine :=
  let m := { m with
    rax := (resumePoint m).rbx, rcx := (resumePoint m).r12, r9 := (resumePoint m).r13,
    r10 := (resumePoint m).r14, r11 := (resumePoint m).r15 }
  let m := setResumePoint m fun k =>
    { k with rbx := m.rbx, r12 := m.r12, r13 := m.r13, r14 := m.r14, r15 := m.r15 }
  { m with rbx := m.rax, r12 := m.rcx, r13 := m.r9, r14 := m.r10, r15 := m.r11 }

def swapStack (m : Machine) : Machine :=
  let m := { m with rax := (resumePoint m).rbp, rcx := (resumePoint m).rsp }
  let m := setResumePoint m fun k => { k with rbp := m.rbp, rsp := m.rsp }
  { m with rbp := m.rax, rsp := m.rcx }

/-- The coroutine is in `rdi`, the effect and its payload are in `rsi` and `rdx`. -/
def seffYield (m : Machine) : Machine :=
  let m := swapRegisters m
  let m := { m with rax := m.stack_top, rcx := m.current_coroutine }
  let m := { m with
    r9 := (resumePoint m).stack_top, r10 := (m.coroutines m.rdi).parent_coroutine }
  let m := { m with stack_top := m.r9, current_coroutine := m.r10 }
  let m := setResumePoint m fun k => { k with stack_top := m.rax, current_coroutine := m.rcx }
  let m := popR11 m
  let m := { m with r10 := (resumePoint m).ip }
  let m := setResumePoint m fun k => { k with ip := m.r11 }
  let m := swapStack m
  let m := { m with rax := m.rsi }
  { m with rip := m.r10 }

/-- The coroutine is in `rdi`, the argument and the handled effects are in `rsi`
and `rdx`. -/
def seffResumeUnwrapped (m : Machine) : Machine :=
  let m := setCoroutine m fun k => { k with handled_effects := m.rdx }
  let m := swapRegisters m
  let m := { m with rax := m.stack_top, rcx := m.current_coroutine }
  let m := { m with r9 := (resumePoint m).stack_top, r10 := (resumePoint m).current_coroutine }
  let m := { m with stack_top := m.r9, current_coroutine := m.r10 }
  let m := setResumePoint m fun k => { k with stack_top := m.rax }
  let m := setCoroutine m fun k => { k with parent_coroutine := m.rcx }
  let m := popR11 m
  let m := { m with r10 := (resumePoint m).ip }
  let m := setResumePoint m fun k => { k with ip := m.r11 }
  let m := { m with system_stack := if m.rcx ≠ NULL then m.system_stack else m.rsp }
  let m := swapStack m
  let m := { m with rax := m.rsi }
  { m with rip := m.r10 }

def seffExit (ndebug : Bool) (m : Machine) : Machine :=
  let m := setCoroutine m fun k => { k with state := .finished }
  let m := swapRegisters m
  let m := { m with r10 := (resumePoint m).stack_top }
  let m := { m with stack_top := m.r10 }
  let m := { m with r10 := (m.coroutines m.rdi).parent_coroutine }
  let m := { m with current_coroutine := m.r10 }
  let m := { m with r10 := (resumePoint m).ip }
  let m := { m with rbp := (resumePoint m).rbp, rsp := (resumePoint m).rsp }
  let m := if ndebug then m else setResumePoint m fun k => { k with ip := 0, rbp := 0, rsp := 0 }
  let m := { m with rax := m.rsi }
  { m with rip := m.r10 }

/-- `coroutine_prelude` up to its call of the start function. -/
def coroutinePrelude (code : Code) (m : Machine) : Machine :=
  let m := { m with rdi := m.r14 }
  let m := push m code.prelude_return
  { m with rip := m.r15 }

/-- `coroutine_prelude` after the start function has returned; it falls through
to `seff_exit`. -/
def preludeReturn (m : Machine) : Machine :=
  let m := { m with rdi := m.r13 }
  let m := push m m.rax
  let m := { m with rsi := RETURN_EFFECT_ID }
  { m with rdx := m.rax }

/-- `init_stack_frame` on the block `stack` that `malloc` returns. -/
def initStackFrame (stack frame_size : Word) : Word := stack + 160 + frame_size

def seffCoroutineInitSized (code : Code) (k fn arg frame_size stack : Word) (m : Machine) :
    Machine :=
  let overhead : Word := 16
  let rsp := initStackFrame stack (frame_size + overhead)
  let stack_top := rsp - frame_size - overhead
  let pad := rsp % 16
  { m with coroutines := Function.update m.coroutines k { m.coroutines k with
    resume_point := ⟨stack_top, k, rsp - pad, NULL, code.coroutine_prelude, 0xcacabbbb,
      0xcaca1212, k, arg, fn⟩
    state := .paused } }

/-- The loop of `seff_find_effect_in`, from index `i` on. -/
def scanEffects (m : Machine) (effect handled : Word) : ℕ → Word → Option Bool
  | 0, _ => none
  | fuel + 1, i =>
    if m.memory (handled + 8 * i) = 0 then some false
    else if effect = m.memory (handled + 8 * i) then some true
    else scanEffects m effect handled fuel (i + 1)

def seffFindEffectIn (code : Code) (m : Machine) (fuel : ℕ) (effect handled : Word) :
    Option Bool :=
  if handled = code.handles_all then some true
  else if handled = NULL then some false
  else scanEffects m effect handled fuel 0

/-- The loop of `seff_locate_handler`. -/
def locateFrom (code : Code) (m : Machine) (effect : Word) : ℕ → Word → Option Word
  | 0, _ => none
  | fuel + 1, k =>
    if k = NULL then some k
    else (seffFindEffectIn code m fuel effect (m.coroutines k).handled_effects).bind fun found =>
      if found then some k else locateFrom code m effect fuel (m.coroutines k).parent_coroutine

def seffLocateHandler (code : Code) (m : Machine) (fuel : ℕ) (effect : Word) : Option Word :=
  if effect ≠ RETURN_EFFECT_ID then locateFrom code m effect fuel m.current_coroutine
  else some m.current_coroutine

structure Context where
  rbx : Word
  rbp : Word
  r12 : Word
  r13 : Word
  r14 : Word
  r15 : Word
  rsp : Word
  ip : Word
  stack_top : Word
  current_coroutine : Word
  deriving DecidableEq

def context (m : Machine) : Context :=
  ⟨m.rbx, m.rbp, m.r12, m.r13, m.r14, m.r15, m.rsp, m.rip, m.stack_top, m.current_coroutine⟩

def callContext (m : Machine) : Context :=
  ⟨m.rbx, m.rbp, m.r12, m.r13, m.r14, m.r15, m.rsp + 8, m.memory m.rsp, m.stack_top,
    m.current_coroutine⟩

def savedContext (c : Cont) (current_coroutine : Word) : Context :=
  ⟨c.rbx, c.rbp, c.r12, c.r13, c.r14, c.r15, c.rsp, c.ip, c.stack_top, current_coroutine⟩

def resumer (m : Machine) (k : Word) : Context :=
  savedContext (m.coroutines k).resume_point (m.coroutines k).parent_coroutine

def suspended (m : Machine) (k : Word) : Context :=
  savedContext (m.coroutines k).resume_point (m.coroutines k).resume_point.current_coroutine

def startContext (code : Code) (k fn arg frame_size stack : Word) : Context :=
  let rsp := initStackFrame stack (frame_size + 16)
  ⟨0xcacabbbb, NULL, 0xcaca1212, k, arg, fn, rsp - rsp % 16, code.coroutine_prelude,
    rsp - frame_size - 16, k⟩

theorem suspended_init (code : Code) (k fn arg frame_size stack : Word) (m : Machine) :
    suspended (seffCoroutineInitSized code k fn arg frame_size stack m) k =
      startContext code k fn arg frame_size stack := by
  simp [suspended, savedContext, seffCoroutineInitSized, startContext]

theorem startContext_aligned (code : Code) (k fn arg frame_size stack : Word) :
    (startContext code k fn arg frame_size stack).rsp % 16 = 0 := by
  simp only [startContext]
  generalize initStackFrame stack (frame_size + 16) = rsp
  have h16 : BitVec.toNat (16 : Word) = 16 := rfl
  have h0 : BitVec.toNat (0 : Word) = 0 := rfl
  apply BitVec.eq_of_toNat_eq
  simp only [BitVec.toNat_umod, BitVec.toNat_sub, h16, h0]
  omega

theorem startContext_stack_top (code : Code) (k fn arg frame_size stack : Word) :
    (startContext code k fn arg frame_size stack).stack_top = stack + 160 := by
  simp only [startContext, initStackFrame]
  bv_omega

theorem parent_init (code : Code) (k fn arg frame_size stack : Word) (m : Machine) (g : Word) :
    ((seffCoroutineInitSized code k fn arg frame_size stack m).coroutines g).parent_coroutine =
      (m.coroutines g).parent_coroutine := by
  by_cases hg : g = k
  · subst hg
    simp [seffCoroutineInitSized]
  · simp [seffCoroutineInitSized, hg]

theorem coroutines_seffYield {m : Machine} {g : Word} (hg : g ≠ m.rdi) :
    (seffYield m).coroutines g = m.coroutines g := by
  simp [seffYield, swapRegisters, swapStack, setResumePoint, setCoroutine, popR11, hg]

theorem context_seffYield (m : Machine) : context (seffYield m) = resumer m m.rdi := by
  simp [seffYield, swapRegisters, swapStack, setResumePoint, setCoroutine, popR11, resumePoint,
    context, resumer, savedContext]

theorem suspended_seffYield (m : Machine) : suspended (seffYield m) m.rdi = callContext m := by
  simp [seffYield, swapRegisters, swapStack, setResumePoint, setCoroutine, popR11, resumePoint,
    callContext, suspended, savedContext]

theorem parent_seffYield (m : Machine) (g : Word) :
    ((seffYield m).coroutines g).parent_coroutine = (m.coroutines g).parent_coroutine := by
  by_cases hg : g = m.rdi
  · subst hg
    simp [seffYield, swapRegisters, swapStack, setResumePoint, setCoroutine, popR11]
  · rw [coroutines_seffYield hg]

theorem state_seffYield (m : Machine) (g : Word) :
    ((seffYield m).coroutines g).state = (m.coroutines g).state := by
  by_cases hg : g = m.rdi
  · subst hg
    simp [seffYield, swapRegisters, swapStack, setResumePoint, setCoroutine, popR11]
  · rw [coroutines_seffYield hg]

theorem result_seffYield (m : Machine) : (seffYield m).rax = m.rsi ∧ (seffYield m).rdx = m.rdx := by
  simp [seffYield, swapRegisters, swapStack, setResumePoint, setCoroutine, popR11]

theorem coroutines_seffResumeUnwrapped {m : Machine} {g : Word} (hg : g ≠ m.rdi) :
    (seffResumeUnwrapped m).coroutines g = m.coroutines g := by
  simp [seffResumeUnwrapped, swapRegisters, swapStack, setResumePoint, setCoroutine, popR11, hg]

theorem context_seffResumeUnwrapped (m : Machine) :
    context (seffResumeUnwrapped m) = suspended m m.rdi := by
  simp [seffResumeUnwrapped, swapRegisters, swapStack, setResumePoint, setCoroutine, popR11,
    resumePoint, context, suspended, savedContext]

theorem resumer_seffResumeUnwrapped (m : Machine) :
    resumer (seffResumeUnwrapped m) m.rdi = callContext m := by
  simp [seffResumeUnwrapped, swapRegisters, swapStack, setResumePoint, setCoroutine, popR11,
    resumePoint, callContext, resumer, savedContext]

theorem handled_seffResumeUnwrapped (m : Machine) :
    ((seffResumeUnwrapped m).coroutines m.rdi).handled_effects = m.rdx := by
  simp [seffResumeUnwrapped, swapRegisters, swapStack, setResumePoint, setCoroutine, popR11]

theorem state_seffResumeUnwrapped (m : Machine) (g : Word) :
    ((seffResumeUnwrapped m).coroutines g).state = (m.coroutines g).state := by
  by_cases hg : g = m.rdi
  · subst hg
    simp [seffResumeUnwrapped, swapRegisters, swapStack, setResumePoint, setCoroutine, popR11]
  · rw [coroutines_seffResumeUnwrapped hg]

theorem result_seffResumeUnwrapped (m : Machine) : (seffResumeUnwrapped m).rax = m.rsi := by
  simp [seffResumeUnwrapped, swapRegisters, swapStack, setResumePoint, setCoroutine, popR11]

theorem coroutines_seffExit (ndebug : Bool) {m : Machine} {g : Word} (hg : g ≠ m.rdi) :
    (seffExit ndebug m).coroutines g = m.coroutines g := by
  cases ndebug <;> simp [seffExit, swapRegisters, setResumePoint, setCoroutine, hg]

theorem context_seffExit (ndebug : Bool) (m : Machine) :
    context (seffExit ndebug m) = resumer m m.rdi := by
  cases ndebug <;> simp [seffExit, swapRegisters, setResumePoint, setCoroutine, resumePoint,
    context, resumer, savedContext]

theorem parent_seffExit (ndebug : Bool) (m : Machine) (g : Word) :
    ((seffExit ndebug m).coroutines g).parent_coroutine = (m.coroutines g).parent_coroutine := by
  by_cases hg : g = m.rdi
  · subst hg
    cases ndebug <;> simp [seffExit, swapRegisters, setResumePoint, setCoroutine]
  · rw [coroutines_seffExit ndebug hg]

theorem state_seffExit (ndebug : Bool) (m : Machine) :
    ((seffExit ndebug m).coroutines m.rdi).state = .finished := by
  cases ndebug <;> simp [seffExit, swapRegisters, setResumePoint, setCoroutine]

theorem result_seffExit (ndebug : Bool) (m : Machine) :
    (seffExit ndebug m).rax = m.rsi ∧ (seffExit ndebug m).rdx = m.rdx := by
  cases ndebug <;> simp [seffExit, swapRegisters, setResumePoint, setCoroutine]

end Libseff.CoroutineMachine
