import Libseff.CoroutineStacks
import Mathlib.Algebra.Group.Nat.Defs

namespace Libseff.SyscallWrappers

open LinkedLists TransitionRuns ShallowHandlers CoroutineMachine CoroutineRuns CoroutineSim
  CoroutineStacks

/-- A call of a wrapper that has not returned: `rsp` and the limit at its entry,
where the function returns to, and the address on the system stack where it was
started. Without a limit the function runs in place. -/
structure Call where
  rsp : Word
  limit : Word
  back : Word
  start : Option Word

/-- `calls` are the wrapped calls on the stack that runs, the innermost first, and
`saved` those on the stack in a `resume_point`. -/
structure State where
  base : CoroutineRuns.State
  paused_coroutine_stack : Word
  paused_coroutine_stack_top : Word
  calls : List Call
  saved : Word → List Call

/-- In `wrapper` the function is at `fn`, and the instruction after its call is at
`back`. A stack grows to a new `limit`; `callee` is what the call of
`seff_mem_allocate_frame` leaves on the system stack. -/
inductive Action where
  | base (act : CoroutineRuns.Action)
  | grow (limit r8 : Word) (callee : List Word)
  | shrink (limit : Word)
  | wrapper (fn back : Word)
  | wrapperReturn

def setMachine (s : State) (m : Machine) : State := { s with base := { s.base with m := m } }

/-- The words that `__morestack` pushes on the system stack before its call of
`seff_mem_allocate_frame`. -/
def savedWords (m : Machine) (r8 : Word) : List Word :=
  [m.rbp, m.rbp, m.r10, m.rax, m.rdi, m.rsi, m.rdx, m.rcx, r8, m.r9]

/-- `__morestack` as far as the system stack and the limit are concerned. -/
def morestack (m : Machine) (limit r8 : Word) (callee : List Word) : Machine :=
  let switched := { m with rsp := m.system_stack }
  { m with
    stack_top := limit, memory := ((savedWords m r8 ++ callee).foldl push switched).memory }

/-- The wrapper up to its jump to the function or its call of it. -/
def wrapper (s : State) (fn back : Word) : State :=
  let m := s.base.m
  let call : Call := ⟨m.rsp, m.stack_top, back, none⟩
  let m := { m with rax := m.stack_top }
  if m.rax = 0 then { setMachine s { m with rip := fn } with calls := call :: s.calls }
  else
    let s := { s with paused_coroutine_stack := m.rsp }
    let m := { m with rsp := m.system_stack }
    let call := { call with start := some m.rsp }
    let s := { s with paused_coroutine_stack_top := m.rax }
    let m := { m with stack_top := 0 }
    let m := push m back
    { setMachine s { m with rip := fn } with calls := call :: s.calls }

/-- The wrapper after its call of the function. -/
def wrapperReturn (s : State) : State :=
  let m := { s.base.m with rsp := s.paused_coroutine_stack }
  let m := { m with rcx := s.paused_coroutine_stack_top }
  let m := { m with stack_top := m.rcx }
  setMachine s { m with rip := m.memory m.rsp, rsp := m.rsp + 8 }

/-- A function that was jumped to returns to the caller of the wrapper. One that
was called only gets back to the wrapper by its return address. -/
def returnStep (s : State) : Option State :=
  match s.calls with
  | [] => none
  | c :: calls =>
    match c.start with
    | none => some { s with calls := calls }
    | some start =>
      if s.base.m.memory (start - 8) = c.back then some { wrapperReturn s with calls := calls }
      else none

def Running (s : State) (c : Call) : Prop :=
  c ∈ s.calls ∨ ∃ g, OnChain s.base.m g ∧ c ∈ s.saved g

def Captures (s : State) (h : Word) : Prop :=
  (∀ c ∈ s.calls, c.start = none) ∧
    ∀ l, Path (parent s.base.m) h s.base.m.current_coroutine l →
      ∀ g ∈ l, ∀ c ∈ s.saved g, c.start = none

/-- In a coroutine nothing but the wrappers and `__morestack` writes the first word
below `_seff_system_stack`. -/
def KeepsReturn (s : State) (m : Machine) : Prop :=
  s.base.m.current_coroutine ≠ NULL →
    m.memory (s.base.m.system_stack - 8) = s.base.m.memory (s.base.m.system_stack - 8)

instance (s : State) (m : Machine) : Decidable (KeepsReturn s m) :=
  inferInstanceAs (Decidable (_ → _))

section Steps

variable (code : Code) (ndebug : Bool)

def step (s : State) : Action → Option (State × CoroutineRuns.Event)
  | .base (.init k fn arg frame_size stack) =>
    (CoroutineRuns.step code ndebug s.base (.init k fn arg frame_size stack)).map fun (base, e) =>
      ({ s with base := base, saved := Function.update s.saved k [] }, e)
  | .base act =>
    (CoroutineRuns.step code ndebug s.base act).map fun (base, e) =>
      let (calls, saved) := switch s.calls s.saved e
      ({ s with base := base, calls := calls, saved := saved }, e)
  | .grow limit r8 callee =>
    if userCode code s.base.m.rip = true then
      some (setMachine s (morestack s.base.m limit r8 callee), none)
    else none
  | .shrink limit =>
    if userCode code s.base.m.rip = true then
      some (setMachine s { s.base.m with stack_top := limit }, none)
    else none
  | .wrapper fn back =>
    if userCode code s.base.m.rip = true then some (wrapper s fn back, none) else none
  | .wrapperReturn =>
    if userCode code s.base.m.rip = true then (returnStep s).map fun s => (s, none) else none

/-- User code leaves the limit and the return addresses on the system stack alone,
and so do the stacks of the coroutines, stacks end before the last address, a
wrapped function does not yield out of its call, and one that was jumped to
restores `rsp`. -/
def may (s : State) : Action → Prop
  | .base (.discard _) => False
  | .base act =>
    CoroutineRuns.may code s.base act ∧
      (∀ m, act = .user m → m.stack_top = s.base.m.stack_top) ∧
      (act = .resume → s.base.m.rsp.toNat + 8 < 2 ^ 64) ∧
      ∀ base e, CoroutineRuns.step code ndebug s.base act = some (base, e) →
        KeepsReturn s base.m ∧ ∀ h x c d, e = some (.perform h x c, d) → Captures s h
  | .grow limit _ _ | .shrink limit => s.base.m.stack_top ≠ 0 ∧ limit ≠ 0
  | .wrapper fn _ => userCode code fn = true
  | .wrapperReturn =>
    ∃ c calls, s.calls = c :: calls ∧ (c.start = none → s.base.m.rsp = c.rsp + 8) ∧
      (c.start ≠ none → userCode code (s.base.m.memory s.paused_coroutine_stack) = true)

def wrapperSystem : System State Action CoroutineRuns.Event where
  init s := (coroutineSystem code ndebug).init s.base ∧ s.base.m.stack_top = 0 ∧ s.calls = []
  may := may code ndebug
  step := step code ndebug

/-- The innermost call returns with the `rsp` and the limit of its entry, and a
call that is started now has no frame of a call that still runs below it: the
function's return address is the first one. -/
structure Reentrant (s : State) : Prop where
  returns : ∀ c calls, s.calls = c :: calls → userCode code s.base.m.rip = true →
    may code ndebug s .wrapperReturn → ∃ s' e,
      step code ndebug s .wrapperReturn = some (s', e) ∧
      s'.base.m.rsp = c.rsp + 8 ∧ s'.base.m.stack_top = c.limit
  starts : s.base.m.stack_top ≠ 0 → ∀ c, Running s c → ∀ start, c.start = some start →
    ¬ (start - 8).toNat < s.base.m.system_stack.toNat

end Steps

def usesSystemStack : Action → Bool
  | .wrapper .. | .grow .. => true
  | _ => false

/-- A step that goes to the system stack finds no other call there. -/
def Alone (s : State) (act : Action) : Prop :=
  usesSystemStack act = true → s.base.m.stack_top ≠ 0 → ∀ c, Running s c → c.start = none

end Libseff.SyscallWrappers
