import Libseff.LinkedLists
import Libseff.TransitionRuns
import Mathlib.Algebra.Group.Nat.Defs

namespace Libseff.StackSegments

open LinkedLists TransitionRuns

def NULL : ℕ := 0

/-- `seff_stack_segment_t`; its padding and canary are never read. -/
structure Segment where
  prev : ℕ
  next : ℕ
  size : ℕ

abbrev Heap := ℕ → Option Segment

def sizeofSegment : ℕ := 160

def addSize (a b : ℕ) : ℕ := (a + b) % 2 ^ 64

def subSize (a b : ℕ) : ℕ := (a + (2 ^ 64 - b)) % 2 ^ 64

/-- `segment` is the block that `malloc` returns. `SegmentBlocks` has its size, too. -/
def initSegment (segment frame_size : ℕ) (heap : Heap) : Heap :=
  Function.update heap segment (some ⟨NULL, NULL, frame_size⟩)

def link (first second : ℕ) (heap : Heap) : Option Heap := do
  let a ← heap first
  let heap := Function.update heap first (some { a with next := second })
  let b ← heap second
  some (Function.update heap second (some { b with prev := first }))

def alignStack : ℕ → ℕ
  | 0 => 0
  | new_stack + 1 =>
    if (new_stack + 1) % 16 ≠ 0 then alignStack new_stack else new_stack + 1

/-- What a call of `seff_mem_allocate_frame` changes and returns: `pframe_size`
and the new stack pointer. Reading a block that is not allocated has no result. -/
structure Frame where
  heap : Heap
  frame_ptr : ℕ
  frame_size : ℕ
  new_stack : ℕ

/-- The end of `seff_mem_allocate_frame`, once the segment is chosen, without the copy
of the parameters, which `SegmentBlocks` has. -/
def enterSegment (heap : Heap) (new_segment param_size : ℕ) : Option Frame := do
  let new ← heap new_segment
  let new_stack := subSize (addSize (addSize new_segment sizeofSegment) new.size) param_size
  some ⟨heap, new_segment, subSize new.size param_size, alignStack new_stack⟩

def seffMemAllocateFrame (min_segment_size segment frame_size param_size : ℕ) (heap : Heap)
    (frame_ptr : ℕ) : Option Frame := do
  let current ← heap frame_ptr
  let total := addSize frame_size param_size
  let new_size := if total < min_segment_size then min_segment_size else total
  if current.next = NULL then do
    let heap ← link frame_ptr segment (initSegment segment new_size heap)
    enterSegment heap segment param_size
  else do
    let next ← heap current.next
    if next.size < total then do
      let heap ← link segment current.next (initSegment segment new_size heap)
      let heap ← link frame_ptr segment heap
      enterSegment heap segment param_size
    else enterSegment heap current.next param_size

def seffMemReleaseFrame (heap : Heap) (frame_ptr : ℕ) : Option (ℕ × ℕ) := do
  let current ← heap frame_ptr
  some (current.prev, addSize current.prev sizeofSegment)

/-- The first loop of `seff_coroutine_release`. -/
def firstSegment (heap : Heap) : ℕ → ℕ → Option ℕ
  | 0, _ => none
  | fuel + 1, segment =>
    if segment = NULL then some segment
    else do
      let s ← heap segment
      if s.prev ≠ NULL then firstSegment heap fuel s.prev else some segment

/-- The second loop of `seff_coroutine_release`, with the blocks in the order in
which they are freed. -/
def freeSegments : ℕ → Heap → ℕ → Option (Heap × List ℕ)
  | 0, _, _ => none
  | fuel + 1, heap, segment =>
    if segment = NULL then some (heap, [])
    else do
      let old ← heap segment
      let (heap, freed) ← freeSegments fuel (Function.update heap segment none) old.next
      some (heap, segment :: freed)

def seffCoroutineRelease (fuel : ℕ) (heap : Heap) (frame_ptr : ℕ) : Option (Heap × List ℕ) := do
  let segment ← firstSegment heap fuel frame_ptr
  freeSegments fuel heap segment

/-- `frames` has the values of `frame_ptr` that the frames in use return to. -/
structure State where
  heap : Heap
  frame_ptr : ℕ
  frames : List ℕ

inductive Action where
  | allocate (segment frame_size param_size : ℕ)
  | release

abbrev Event := Option ℕ

def fresh (heap : Heap) (segment : ℕ) : Prop := segment ≠ NULL ∧ heap segment = none

def mayRun (s : State) : Action → Prop
  | .allocate segment _ _ => fresh s.heap segment
  | .release => s.frames ≠ []

def step (min_segment_size : ℕ) (s : State) : Action → Option (State × Event)
  | .allocate segment frame_size param_size => do
    let f ← seffMemAllocateFrame min_segment_size segment frame_size param_size s.heap s.frame_ptr
    some (⟨f.heap, f.frame_ptr, s.frame_ptr :: s.frames⟩,
      if (f.heap segment).isSome then some segment else none)
  | .release => do
    let (frame_ptr, _) ← seffMemReleaseFrame s.heap s.frame_ptr
    some (⟨s.heap, frame_ptr, s.frames.tail⟩, none)

/-- `seff_coroutine_init_sized` takes the first segment from `malloc`. -/
def segmentSystem (min_segment_size first : ℕ) : System State Action Event where
  init s := ∃ heap frame_size, fresh heap first ∧
    s = ⟨initSegment first (addSize frame_size 16) heap, first, []⟩
  may := mayRun
  step := step min_segment_size

def allocated (first : ℕ) (tr : List Event) : List ℕ := first :: tr.filterMap id

def prevOf (heap : Heap) (a : ℕ) : ℕ := (heap a).elim NULL Segment.prev

def nextOf (heap : Heap) (a : ℕ) : ℕ := (heap a).elim NULL Segment.next

end Libseff.StackSegments
