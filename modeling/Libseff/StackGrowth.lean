import Libseff.CoroutineStacks
import Libseff.SegmentLimits

namespace Libseff.StackGrowth

open TransitionRuns CoroutineMachine CoroutineRuns CoroutineStacks
open StackSegments (Heap fresh initSegment seffMemAllocateFrame seffMemReleaseFrame)
open SegmentLimits (morestackLimit)

/-- A call of `__morestack` that has not returned: the coroutine that was
current, the segment that was installed for it and the one before. -/
structure Growth where
  coroutine : Word
  segment : ℕ
  prev : ℕ

/-- `frame_ptr` is the field of the coroutines. `pending` are the calls of
`__morestack` on the stack that runs, the innermost first, and `saved` those on
the stack in a `resume_point`. -/
structure State where
  base : CoroutineRuns.State
  heap : Heap
  frame_ptr : Word → ℕ
  pending : List Growth
  saved : Word → List Growth

inductive Action where
  | base (act : CoroutineRuns.Action)
  | grow (segment frame_size param_size : ℕ)
  | shrink

structure Event where
  base : CoroutineRuns.Event
  limit : Option (ℕ × Word)

def limits (tr : List Event) : List (ℕ × Word) := tr.filterMap Event.limit

def setStackTop (s : CoroutineRuns.State) (limit : Word) : CoroutineRuns.State :=
  { s with m := { s.m with stack_top := limit } }

section Steps

variable (code : Code) (ndebug : Bool) (min_segment_size : ℕ)

/-- `__morestack` before the call of the function that asked for it. -/
def grow (s : State) (segment frame_size param_size : ℕ) : Option (State × Event) := do
  let k := s.base.m.current_coroutine
  let f ← seffMemAllocateFrame min_segment_size segment frame_size param_size s.heap (s.frame_ptr k)
  let limit := BitVec.ofNat 64 (morestackLimit f)
  some (⟨setStackTop s.base limit, f.heap, Function.update s.frame_ptr k f.frame_ptr,
    ⟨k, f.frame_ptr, s.frame_ptr k⟩ :: s.pending, s.saved⟩, ⟨none, some (f.frame_ptr, limit)⟩)

/-- `__morestack` after that function has returned. -/
def shrink (s : State) : Option (State × Event) := do
  let k := s.base.m.current_coroutine
  let (frame_ptr, stack_top) ← seffMemReleaseFrame s.heap (s.frame_ptr k)
  let limit := BitVec.ofNat 64 stack_top
  some (⟨setStackTop s.base limit, s.heap, Function.update s.frame_ptr k frame_ptr,
    s.pending.tail, s.saved⟩, ⟨none, some (frame_ptr, limit)⟩)

/-- `seff_coroutine_init_sized` also takes the first segment from `malloc`. -/
def step (s : State) : Action → Option (State × Event)
  | .base (.init k fn arg frame_size stack) =>
    (CoroutineRuns.step code ndebug s.base (.init k fn arg frame_size stack)).map fun (base, e) =>
      (⟨base, initSegment stack.toNat (frame_size + 16).toNat s.heap,
        Function.update s.frame_ptr k stack.toNat, s.pending, Function.update s.saved k []⟩,
        ⟨e, some (stack.toNat, (base.m.coroutines k).resume_point.stack_top)⟩)
  | .base act =>
    (CoroutineRuns.step code ndebug s.base act).map fun (base, e) =>
      let (pending, saved) := switch s.pending s.saved e
      (⟨base, s.heap, s.frame_ptr, pending, saved⟩, ⟨e, none⟩)
  | .grow segment frame_size param_size =>
    if userCode code s.base.m.rip = true then
      grow min_segment_size s segment frame_size param_size
    else none
  | .shrink => if userCode code s.base.m.rip = true then shrink s else none

/-- User code leaves the limit alone, a prologue calls `__morestack` only below a
limit, and the calls of `__morestack` on one stack return in order. -/
def may (s : State) : Action → Prop
  | .base (.init k fn arg frame_size stack) =>
    CoroutineRuns.may code s.base (.init k fn arg frame_size stack) ∧ fresh s.heap stack.toNat
  | .base (.user m) => CoroutineRuns.may code s.base (.user m) ∧ m.stack_top = s.base.m.stack_top
  | .base (.discard _) => False
  | .base act => CoroutineRuns.may code s.base act
  | .grow segment _ _ => fresh s.heap segment ∧ s.base.m.stack_top ≠ 0
  | .shrink => s.pending ≠ []

/-- `seff_mem_thread_init` has run. -/
def growthSystem : System State Action Event where
  init s := (coroutineSystem code ndebug).init s.base ∧ s.base.m.stack_top = 0 ∧ s.pending = []
  may := may code
  step := step code ndebug min_segment_size

end Steps

end Libseff.StackGrowth
