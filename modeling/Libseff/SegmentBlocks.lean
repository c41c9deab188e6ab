import Libseff.SegmentLimits

namespace Libseff.SegmentBlocks

open LinkedLists TransitionRuns SegmentLimits
open StackSegments (NULL Segment Heap Event sizeofSegment addSize subSize alignStack prevOf nextOf
  allocated seffMemReleaseFrame seffCoroutineRelease)

/-- A block of `bytes` bytes from `malloc`, with the segment at its start. -/
structure HeapBlock where
  bytes : ℕ
  segment : Segment

abbrev Blocks := ℕ → Option HeapBlock

def heapOf (blocks : Blocks) : Heap := fun a => (blocks a).map HeapBlock.segment

/-- Where `malloc(frame_size + overhead)` is too small for the fields of the header
they are stored behind the block, which has no result. -/
def initSegment (segment frame_size : ℕ) (blocks : Blocks) : Option Blocks :=
  let bytes := addSize frame_size sizeofSegment
  if bytes < offsetofPadding then none
  else some (Function.update blocks segment (some ⟨bytes, NULL, NULL, frame_size⟩))

def setNext (b : HeapBlock) (next : ℕ) : HeapBlock := { b with segment.next := next }

def setPrev (b : HeapBlock) (prev : ℕ) : HeapBlock := { b with segment.prev := prev }

def link (first second : ℕ) (blocks : Blocks) : Option Blocks := do
  let a ← blocks first
  let blocks := Function.update blocks first (some (setNext a second))
  let b ← blocks second
  some (Function.update blocks second (some (setPrev b first)))

def touches (dest size field : ℕ) : Prop := 0 < size ∧ dest < field + 8 ∧ field < dest + size

instance (dest size field : ℕ) : Decidable (touches dest size field) :=
  inferInstanceAs (Decidable (_ ∧ _))

/-- The copy of the parameters into the block at `segment`. What it puts into the
fields of the header that it touches is in `copied`. A copy that leaves the block
has no result. -/
def memcpy (segment new_stack param_size : ℕ) (copied : Segment) (b : HeapBlock) :
    Option HeapBlock :=
  let field := fun offset new old =>
    if touches new_stack param_size (segment + offset) then new else old
  if param_size = 0 ∨ segment ≤ new_stack ∧ new_stack + param_size ≤ segment + b.bytes then
    some { b with segment := ⟨field 0 copied.prev b.segment.prev, field 8 copied.next b.segment.next,
      field 16 copied.size b.segment.size⟩ }
  else none

structure Frame where
  blocks : Blocks
  frame_ptr : ℕ
  frame_size : ℕ
  new_stack : ℕ

def enterSegment (blocks : Blocks) (new_segment param_size : ℕ) (copied : Segment) :
    Option Frame := do
  let new ← blocks new_segment
  let new_stack := alignStack
    (subSize (addSize (addSize new_segment sizeofSegment) new.segment.size) param_size)
  let copy ← memcpy new_segment new_stack param_size copied new
  some ⟨Function.update blocks new_segment (some copy), new_segment,
    subSize new.segment.size param_size, new_stack⟩

def seffMemAllocateFrame (min_segment_size segment frame_size param_size : ℕ) (copied : Segment)
    (blocks : Blocks) (frame_ptr : ℕ) : Option Frame := do
  let current ← blocks frame_ptr
  let total := addSize frame_size param_size
  let new_size := if total < min_segment_size then min_segment_size else total
  if current.segment.next = NULL then do
    let blocks ← initSegment segment new_size blocks
    let blocks ← link frame_ptr segment blocks
    enterSegment blocks segment param_size copied
  else do
    let next ← blocks current.segment.next
    if next.segment.size < total then do
      let blocks ← initSegment segment new_size blocks
      let blocks ← link segment current.segment.next blocks
      let blocks ← link frame_ptr segment blocks
      enterSegment blocks segment param_size copied
    else enterSegment blocks current.segment.next param_size copied

/-- `frames` has the values of `frame_ptr` that the frames in use return to. -/
structure State where
  blocks : Blocks
  frame_ptr : ℕ
  frames : List ℕ

inductive Action where
  | allocate (segment frame_size param_size : ℕ) (copied : Segment)
  | release

def fresh (blocks : Blocks) (segment : ℕ) : Prop := segment ≠ NULL ∧ blocks segment = none

def mayRun (min_segment_size : ℕ) (s : State) : Action → Prop
  | .allocate segment frame_size param_size _ =>
    fresh s.blocks segment ∧ Block segment (newSize min_segment_size frame_size param_size)
  | .release => s.frames ≠ []

def step (min_segment_size : ℕ) (s : State) : Action → Option (State × Event)
  | .allocate segment frame_size param_size copied => do
    let f ← seffMemAllocateFrame min_segment_size segment frame_size param_size copied s.blocks
      s.frame_ptr
    some (⟨f.blocks, f.frame_ptr, s.frame_ptr :: s.frames⟩,
      if (f.blocks segment).isSome then some segment else none)
  | .release => do
    let (frame_ptr, _) ← seffMemReleaseFrame (heapOf s.blocks) s.frame_ptr
    some (⟨s.blocks, frame_ptr, s.frames.tail⟩, none)

/-- `seff_coroutine_init_sized` takes the first segment from `malloc`. A first block
too small for its header has no state. -/
def blockSystem (min_segment_size first : ℕ) : System State Action Event where
  init s := ∃ blocks frame_size blocks', fresh blocks first ∧ Block first (addSize frame_size 16) ∧
    initSegment first (addSize frame_size 16) blocks = some blocks' ∧ s = ⟨blocks', first, []⟩
  may := mayRun min_segment_size
  step := step min_segment_size

/-- The block that an allocation goes to has room for the fields of the header and
for the parameters. -/
def Fits (min_segment_size : ℕ) (s : State) : Action → Prop
  | .allocate _ frame_size param_size _ =>
    param_size + offsetofPadding ≤ addSize (chosenSize min_segment_size frame_size param_size
      (heapOf s.blocks) s.frame_ptr) sizeofSegment
  | .release => True

/-- No segment of the coroutine is lost or freed twice, and the calls that meet `C`
go on to the next segment and back. -/
structure SegmentsKept (min_segment_size first : ℕ) (C : Action → Prop) (tr : List Event)
    (s : State) (l : List ℕ) : Prop where
  perm : l.Perm (allocated first tr)
  nodup : l.Nodup
  allocated : ∀ a ∈ l, a ≠ NULL ∧ (s.blocks a).isSome
  linked : DoublyLinked (prevOf (heapOf s.blocks)) (nextOf (heapOf s.blocks)) NULL NULL l
  current : s.frame_ptr ∈ l
  allocates : ∀ segment frame_size param_size copied,
    mayRun min_segment_size s (.allocate segment frame_size param_size copied) →
    C (.allocate segment frame_size param_size copied) → ∃ s' e,
      step min_segment_size s (.allocate segment frame_size param_size copied) = some (s', e) ∧
      nextOf (heapOf s'.blocks) s.frame_ptr = s'.frame_ptr ∧
      prevOf (heapOf s'.blocks) s'.frame_ptr = s.frame_ptr ∧ s'.frames = s.frame_ptr :: s.frames
  releases : s.frames ≠ [] → ∃ s' e, step min_segment_size s .release = some (s', e) ∧
    s.frames = s'.frame_ptr :: s'.frames
  frees : ∀ fuel, l.length < fuel → seffCoroutineRelease fuel (heapOf s.blocks) s.frame_ptr =
    some (fun a => if a ∈ l then none else heapOf s.blocks a, l)

end Libseff.SegmentBlocks
