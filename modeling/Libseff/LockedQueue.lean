import Libseff.CircularArrays
import Libseff.SlotQueues

namespace Libseff.LockedQueue

open CircularArrays TransitionRuns AtomicObjects SlotQueues

variable {ι α : Type}

/-- `tl_queue_t` with the arrays that `malloc` has given out. An element is a
pointer: `none` is `EMPTY`. -/
structure TlQueue (α : Type) where
  locked : Bool
  head : ℤ
  tail : ℤ
  buffer : Option α
  array : ℕ
  arrays : ℕ → Option (CircularArray (Option α))

def tlQueueInit (log_size array : ℕ) (junk : ℤ → Option α) : TlQueue α :=
  ⟨false, 0, 0, none, array,
    Function.update (fun _ => none) array (some (circularArrayNew log_size junk))⟩

inductive Push where
  | acquire
  | load
  | resize (arr : ℕ) (head tail : ℤ)
  | free (new_array : ℕ) (head tail : ℤ)
  | storeArray (new_array : ℕ) (head tail : ℤ)
  | set (arr : ℕ) (head tail : ℤ)
  | storeTail (tail : ℤ)
  | release

/-- A step of `tl_queue_push`; there is none where it would use an array that is
not allocated. The block that `malloc` returns is `new_array`. -/
def tlQueuePush (new_array : ℕ) (junk : ℤ → Option α) (elt : Option α) (q : TlQueue α) :
    Push → Option (TlQueue α × Outcome Push Unit)
  | .acquire =>
    if q.locked then some (q, .run .acquire) else some ({ q with locked := true }, .run .load)
  | .load => do
    let arr ← q.arrays q.array
    if q.tail - q.head > arr.size - 1 then some (q, .run (.resize q.array q.head q.tail))
    else some (q, .run (.set q.array q.head q.tail))
  | .resize arr head tail => do
    let old ← q.arrays arr
    let new := circularArrayResize old tail head junk
    some ({ q with arrays := Function.update q.arrays new_array (some new) },
      .run (.free new_array head tail))
  | .free new_array head tail => do
    let _ ← q.arrays q.array
    some ({ q with arrays := Function.update q.arrays q.array none },
      .run (.storeArray new_array head tail))
  | .storeArray new_array head tail =>
    some ({ q with array := new_array }, .run (.set new_array head tail))
  | .set arr _ tail => do
    let a ← q.arrays arr
    some ({ q with arrays := Function.update q.arrays arr (some (caSet a tail elt)) },
      .run (.storeTail tail))
  | .storeTail tail => some ({ q with tail := tail + 1 }, .run .release)
  | .release => some ({ q with locked := false }, .done ())

/-- The locked part of `tl_queue_pop` and `tl_queue_steal`. -/
inductive Take (α : Type) where
  | acquire
  | load
  | get (arr : ℕ) (head : ℤ)
  | storeHead (head : ℤ) (elt : Option α)
  | release (result : Option α)

def takeLocked (q : TlQueue α) : Take α → Option (TlQueue α × Outcome (Take α) (Option α))
  | .acquire =>
    if q.locked then some (q, .run .acquire) else some ({ q with locked := true }, .run .load)
  | .load =>
    if q.head = q.tail then some (q, .run (.release none))
    else some (q, .run (.get q.array q.head))
  | .get arr head => do
    let a ← q.arrays arr
    some (q, .run (.storeHead head (caGet a head)))
  | .storeHead head elt => some ({ q with head := head + 1 }, .run (.release elt))
  | .release result => some ({ q with locked := false }, .done result)

inductive Owner (α : Type) where
  | idle
  | push (elt : α) (pc : Push)
  | loadBuffer (elt : α)
  | storeBuffer (elt : α) (old_buffer : Option α)
  | pushOld (elt old_buffer : α) (pc : Push)
  | testBuffer
  | takeBuffer
  | clearBuffer (buffer : Option α)
  | pop (pc : Take α)

inductive Thief (α : Type) where
  | idle
  | steal (pc : Take α)

abbrev Event (ι α : Type) := Option (HistoryEvent (Option ι) (Op α) (Option α))

def ownerStep (ι : Type) (new_array : ℕ) (junk : ℤ → Option α) (q : TlQueue α) :
    Owner α → Option (TlQueue α × Owner α × Event ι α)
  | .idle => none
  | .push elt pc => do
    match ← tlQueuePush new_array junk (some elt) q pc with
    | (q, .run pc) => some (q, .push elt pc, none)
    | (q, .done _) => some (q, .idle, some (.ret none none))
  | .loadBuffer elt => some (q, .storeBuffer elt q.buffer, none)
  | .storeBuffer elt none => some ({ q with buffer := some elt }, .idle, some (.ret none none))
  | .storeBuffer elt (some old_buffer) =>
    some ({ q with buffer := some elt }, .pushOld elt old_buffer .acquire, none)
  | .pushOld elt old_buffer pc => do
    match ← tlQueuePush new_array junk (some old_buffer) q pc with
    | (q, .run pc) => some (q, .pushOld elt old_buffer pc, none)
    | (q, .done _) => some (q, .idle, some (.ret none none))
  | .testBuffer => some (q, if q.buffer.isSome then .takeBuffer else .pop .acquire, none)
  | .takeBuffer => some (q, .clearBuffer q.buffer, none)
  | .clearBuffer buffer => some ({ q with buffer := none }, .idle, some (.ret none buffer))
  | .pop pc => do
    match ← takeLocked q pc with
    | (q, .run pc) => some (q, .pop pc, none)
    | (q, .done result) => some (q, .idle, some (.ret none result))

def thiefStep (i : ι) (q : TlQueue α) : Thief α → Option (TlQueue α × Thief α × Event ι α)
  | .idle => none
  | .steal pc => do
    match ← takeLocked q pc with
    | (q, .run pc) => some (q, .steal pc, none)
    | (q, .done result) => some (q, .idle, some (.ret (some i) result))

structure State (ι α : Type) where
  queue : TlQueue α
  owner : Owner α
  thief : ι → Thief α

inductive Action (ι α : Type) where
  | callPush (elt : α)
  | callPriorityPush (elt : α)
  | callPop
  | owner (new_array : ℕ) (junk : ℤ → Option α)
  | callSteal (i : ι)
  | thief (i : ι)

def mayRun (s : State ι α) : Action ι α → Prop
  | .owner new_array _ => s.queue.arrays new_array = none
  | _ => True

instance decidableMayRun (s : State ι α) : (a : Action ι α) → Decidable (mayRun s a)
  | .owner new_array _ =>
    decidable_of_iff ((s.queue.arrays new_array).isNone = true) Option.isNone_iff_eq_none
  | .callPush _ | .callPriorityPush _ | .callPop | .callSteal _ | .thief _ => isTrue trivial

variable [DecidableEq ι]

def step (s : State ι α) : Action ι α → Option (State ι α × Event ι α)
  | .callPush elt =>
    match s.owner with
    | .idle => some ({ s with owner := .push elt .acquire }, some (.call none (.push elt)))
    | _ => none
  | .callPriorityPush elt =>
    match s.owner with
    | .idle => some ({ s with owner := .loadBuffer elt }, some (.call none (.priorityPush elt)))
    | _ => none
  | .callPop =>
    match s.owner with
    | .idle => some ({ s with owner := .testBuffer }, some (.call none .pop))
    | _ => none
  | .owner new_array junk => do
    let (q, o, e) ← ownerStep ι new_array junk s.queue s.owner
    some ({ s with queue := q, owner := o }, e)
  | .callSteal i =>
    match s.thief i with
    | .idle => some ({ s with thief := Function.update s.thief i (.steal .acquire) },
        some (.call (some i) .steal))
    | _ => none
  | .thief i => do
    let (q, t, e) ← thiefStep i s.queue (s.thief i)
    some ({ s with queue := q, thief := Function.update s.thief i t }, e)

def tlSystem (ι α : Type) [DecidableEq ι] (log_size : ℕ) :
    System (State ι α) (Action ι α) (Event ι α) where
  init s := ∃ array junk, s = ⟨tlQueueInit log_size array junk, .idle, fun _ => .idle⟩
  may := mayRun
  step := step

end Libseff.LockedQueue
