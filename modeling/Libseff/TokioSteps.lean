import Libseff.CircularArrays
import Libseff.TransitionRuns

namespace Libseff.TokioSteps

open CircularArrays TransitionRuns

variable {ι α : Type}

/-- `tk_queue_t` and the arrays it has had. No function reads `replaced`: it
records the `tail` at which an array stopped being the current one. -/
structure TkQueue (α : Type) where
  head : ℤ
  tail : ℤ
  buffer : QueueElt α
  array : ℕ
  arrays : ℕ → CircularArray (QueueElt α)
  allocated : ℕ
  replaced : ℕ → Option ℤ

def tkQueueInit (log_size : ℕ) (junk : ℤ → QueueElt α) : TkQueue α :=
  ⟨0, 0, .EMPTY, 0, fun _ => circularArrayNew log_size junk, 1, fun _ => none⟩

def storeArrays (q : TkQueue α) (p : ℕ) (arr : CircularArray (QueueElt α)) : TkQueue α :=
  { q with arrays := Function.update q.arrays p arr }

def publishArray (q : TkQueue α) (new : ℕ) (tail : ℤ) : TkQueue α :=
  { q with array := new, replaced := Function.update q.replaced q.array (some tail) }

inductive Push (α : Type) where
  | loadArray
  | loadHead (arr : ℕ)
  | loadTail (arr : ℕ) (head : ℤ)
  | copyGet (arr new : ℕ) (head tail i : ℤ)
  | copySet (arr new : ℕ) (head tail i : ℤ) (elt : QueueElt α)
  | storeArray (new : ℕ) (head tail : ℤ)
  | set (arr : ℕ) (head tail : ℤ)
  | storeTail (head tail : ℤ)

def copyNext (arr new : ℕ) (head tail i : ℤ) : Push α :=
  if i < tail then .copyGet arr new head tail i else .storeArray new head tail

def tkQueuePush (junk : ℤ → QueueElt α) (elt : QueueElt α) (q : TkQueue α) :
    Push α → TkQueue α × Outcome (Push α) Unit
  | .loadArray => (q, .run (.loadHead q.array))
  | .loadHead arr => (q, .run (.loadTail arr q.head))
  | .loadTail arr head =>
    if q.tail - head > (q.arrays arr).size - 1 then
      ({ storeArrays q q.allocated (circularArrayGrow (q.arrays arr) junk) with
          allocated := q.allocated + 1 },
        .run (copyNext arr q.allocated head q.tail head))
    else (q, .run (.set arr head q.tail))
  | .copyGet arr new head tail i =>
    (q, .run (.copySet arr new head tail i (caGet (q.arrays arr) i)))
  | .copySet arr new head tail i v =>
    (storeArrays q new (caSet (q.arrays new) i v), .run (copyNext arr new head tail (i + 1)))
  | .storeArray new head tail => (publishArray q new tail, .run (.set new head tail))
  | .set arr head tail =>
    (storeArrays q arr (caSet (q.arrays arr) tail elt), .run (.storeTail head tail))
  | .storeTail _ tail => ({ q with tail := tail + 1 }, .done ())

/-- The loop of `tk_queue_pop` and `tk_queue_steal`: `self->array` is loaded
once, before the first iteration. -/
inductive Take (α : Type) where
  | loadArray
  | loadHead (arr : ℕ)
  | loadTail (arr : ℕ) (head : ℤ)
  | get (arr : ℕ) (head : ℤ)
  | cas (arr : ℕ) (head : ℤ) (elt : QueueElt α)

def takeLoop (q : TkQueue α) : Take α → TkQueue α × Outcome (Take α) (QueueElt α)
  | .loadArray => (q, .run (.loadHead q.array))
  | .loadHead arr => (q, .run (.loadTail arr q.head))
  | .loadTail arr head => if head = q.tail then (q, .done .EMPTY) else (q, .run (.get arr head))
  | .get arr head => (q, .run (.cas arr head (caGet (q.arrays arr) head)))
  | .cas arr head elt =>
    if q.head = head then ({ q with head := head + 1 }, .done elt) else (q, .run (.loadHead arr))

def tkQueueSteal (q : TkQueue α) : Take α → TkQueue α × Outcome (Take α) (QueueElt α) :=
  takeLoop q

/-- `if (self->buffer != EMPTY)`: the buffer is only accessed by the owner. -/
def tkQueuePop (q : TkQueue α) : TkQueue α × Outcome (Take α) (QueueElt α) :=
  match q.buffer with
  | .EMPTY => (q, .run .loadArray)
  | buffer => ({ q with buffer := .EMPTY }, .done buffer)

inductive Owner (α : Type) where
  | idle
  | push (elt : QueueElt α) (pc : Push α)
  | priorityPush (elt : QueueElt α)
  | pop
  | popLoop (pc : Take α)

/-- `tk_queue_priority_push` up to its call of `tk_queue_push`. -/
def tkQueuePriorityPush (elt : QueueElt α) (q : TkQueue α) : TkQueue α × Owner α :=
  match q.buffer with
  | .EMPTY => ({ q with buffer := elt }, .idle)
  | old_buffer => ({ q with buffer := elt }, .push old_buffer .loadArray)

inductive Thief (α : Type) where
  | idle
  | steal (pc : Take α)

structure State (ι α : Type) where
  queue : TkQueue α
  owner : Owner α
  thief : ι → Thief α

inductive Action (ι α : Type) where
  | callPush (elt : QueueElt α)
  | callPriorityPush (elt : QueueElt α)
  | callPop
  | owner (junk : ℤ → QueueElt α)
  | callSteal (i : ι)
  | thief (i : ι)

/-- One step of the owner (`none`) or of a thief: the element a call hands in,
the element that became visible at `tail`, and what a pop or a steal returned. -/
structure Event (ι α : Type) where
  thread : Option ι
  called : Option (QueueElt α)
  appended : Option (QueueElt α)
  result : Option (QueueElt α)

def ownerStep (ι : Type) (junk : ℤ → QueueElt α) (q : TkQueue α) :
    Owner α → Option (TkQueue α × Owner α × Event ι α)
  | .idle => none
  | .push elt pc =>
    match tkQueuePush junk elt q pc with
    | (q', .run pc') => some (q', .push elt pc', ⟨none, none, none, none⟩)
    | (q', .done _) => some (q', .idle, ⟨none, none, some elt, none⟩)
  | .priorityPush elt =>
    let (q', o) := tkQueuePriorityPush elt q
    some (q', o, ⟨none, none, none, none⟩)
  | .pop =>
    match tkQueuePop q with
    | (q', .run pc) => some (q', .popLoop pc, ⟨none, none, none, none⟩)
    | (q', .done r) => some (q', .idle, ⟨none, none, none, some r⟩)
  | .popLoop pc =>
    match takeLoop q pc with
    | (q', .run pc') => some (q', .popLoop pc', ⟨none, none, none, none⟩)
    | (q', .done r) => some (q', .idle, ⟨none, none, none, some r⟩)

def thiefStep (i : ι) (q : TkQueue α) : Thief α → Option (TkQueue α × Thief α × Event ι α)
  | .idle => none
  | .steal pc =>
    match tkQueueSteal q pc with
    | (q', .run pc') => some (q', .steal pc', ⟨some i, none, none, none⟩)
    | (q', .done r) => some (q', .idle, ⟨some i, none, none, some r⟩)

variable [DecidableEq ι]

def step (s : State ι α) : Action ι α → Option (State ι α × Event ι α)
  | .callPush elt =>
    match s.owner with
    | .idle => some ({ s with owner := .push elt .loadArray }, ⟨none, some elt, none, none⟩)
    | _ => none
  | .callPriorityPush elt =>
    match s.owner with
    | .idle => some ({ s with owner := .priorityPush elt }, ⟨none, some elt, none, none⟩)
    | _ => none
  | .callPop =>
    match s.owner with
    | .idle => some ({ s with owner := .pop }, ⟨none, none, none, none⟩)
    | _ => none
  | .owner junk =>
    (ownerStep ι junk s.queue s.owner).map fun (q, o, e) => ({ s with queue := q, owner := o }, e)
  | .callSteal i =>
    match s.thief i with
    | .idle => some ({ s with thief := Function.update s.thief i (.steal .loadArray) },
        ⟨some i, none, none, none⟩)
    | _ => none
  | .thief i =>
    (thiefStep i s.queue (s.thief i)).map fun (q, t, e) =>
      ({ s with queue := q, thief := Function.update s.thief i t }, e)

def tkSystem (ι α : Type) [DecidableEq ι] (log_size : ℕ) :
    System (State ι α) (Action ι α) (Event ι α) where
  init s := ∃ junk, s = ⟨tkQueueInit log_size junk, .idle, fun _ => .idle⟩
  may _ _ := True
  step := step

def isElt : QueueElt α → Bool
  | .EMPTY => false
  | _ => true

def pushed (tr : List (Event ι α)) : List (QueueElt α) := tr.filterMap Event.called

def appended (tr : List (Event ι α)) : List (QueueElt α) := tr.filterMap Event.appended

def returned (tr : List (Event ι α)) : List (QueueElt α) :=
  (tr.filterMap Event.result).filter isElt

/-- What the queue promises along every run, up to the step that comes next. -/
def ExactlyOnce (S : System (State ι α) (Action ι α) (Event ι α)) : Prop :=
  ∀ tr s, Run S tr s → (returned tr).Subperm (pushed tr) ∧
    ∀ a s' e, S.may s a → S.step s a = some (s', e) →
      (∀ r, e.result = some r → isElt r = true → (r :: returned tr).Subperm (pushed tr)) ∧
      (s'.queue.head ≠ s.queue.head → s'.queue.head = s.queue.head + 1 ∧ 0 ≤ s.queue.head ∧
        ∃ r, (appended tr)[s.queue.head.toNat]? = some r ∧ e.result = some r)

end Libseff.TokioSteps
