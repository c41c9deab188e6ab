import Libseff.LockedQueueCalls
import Libseff.TokioCalls

namespace Libseff.QueueEquivalence

open CircularArrays AtomicObjects SlotQueues CompleteCalls TokioCalls LockedQueueCalls

variable {α : Type}

inductive FifoOp (β : Type) where
  | enqueue (elt : β)
  | dequeue

def fifoQueue (β : Type) : AtomicObject (List β) (FifoOp β) (Option β) where
  init := []
  apply
    | .enqueue elt, l => (l ++ [elt], none)
    | .dequeue, l => (l.tail, l.head?)

def fifoOp {β : Type} : Op β → Option (FifoOp β)
  | .push elt => some (.enqueue elt)
  | .priorityPush _ => none
  | .pop => some .dequeue
  | .steal => some .dequeue

structure Call (α : Type) where
  op : Op (Elt α)
  tkJunk : ℤ → QueueElt α
  malloc : Malloc (Elt α)
  tlJunk : ℤ → Option (Elt α)

def tkReturns (c : Call α) : TokioSteps.TkQueue α → TokioSteps.TkQueue α → QueueElt α → Prop :=
  tkCall (c.op, c.tkJunk)

def tlReturns (c : Call α) (q q' : LockedQueue.TlQueue (Elt α)) (r : QueueElt α) : Prop :=
  ∃ r', tlCall (c.op, c.malloc, c.tlJunk) q q' r' ∧ r = value r'

def tlElements (q : LockedQueue.TlQueue (Elt α)) : Contents α :=
  (value (tlContents q).1, (tlContents q).2.map value)

def slotHistory (calls : List (Call α)) : List (QueueElt α × Contents α) :=
  (history (slotQueue (Elt α)) (slotQueue (Elt α)).init (calls.map Call.op)).map
    (Prod.map value slotContents)

def fifoHistory (ops : List (FifoOp (Elt α))) : List (QueueElt α × Contents α) :=
  (history (fifoQueue (Elt α)) (fifoQueue (Elt α)).init ops).map
    (Prod.map value fun l => (.EMPTY, l.map Subtype.val))

theorem tk_history (log_size : ℕ) (junk : ℤ → QueueElt α) (calls : List (Call α))
    (h : List (QueueElt α × Contents α)) :
    Sequential tkReturns tkContents (TokioSteps.tkQueueInit log_size junk) calls h ↔
      h = slotHistory calls :=
  sequential_iff (slotQueue (Elt α)) Call.op value slotContents TokioCalls.Rel
    (fun _ _ hR => hR.contents) (fun c => tkCall_unique (c.op, c.tkJunk))
    (fun q a c hR => tkCall_returns q a (c.op, c.tkJunk) hR) (TokioCalls.rel_init log_size junk)
    calls h

theorem tl_history (log_size array : ℕ) (junk : ℤ → Option (Elt α)) (calls : List (Call α))
    (h : List (QueueElt α × Contents α)) :
    Sequential tlReturns tlElements (LockedQueue.tlQueueInit log_size array junk) calls h ↔
      h = slotHistory calls := by
  refine sequential_iff (slotQueue (Elt α)) Call.op value slotContents
    (LockedQueueCalls.Rel false) ?_ ?_ ?_ (LockedQueueCalls.rel_init log_size array junk) calls h
  · intro q a hR
    rw [tlElements, rel_contents hR, slotContents, List.map_map]
    rfl
  · rintro c q q1 q2 _ _ ⟨r1, h1, rfl⟩ ⟨r2, h2, rfl⟩
    obtain ⟨hq, hr⟩ := tlCall_unique _ q q1 q2 r1 r2 h1 h2
    exact ⟨hq, congrArg value hr⟩
  · intro q a c hR
    obtain ⟨q', hc, hR'⟩ := tlCall_returns q a (c.op, c.malloc, c.tlJunk) hR
    exact ⟨q', ⟨_, hc, rfl⟩, hR'⟩

theorem history_of_fifo {β : Type} {ops : List (Op β)} {fops : List (FifoOp β)}
    (h : ops.map fifoOp = fops.map some) (items : List β) :
    history (slotQueue β) ⟨none, items⟩ ops =
      (history (fifoQueue β) items fops).map (Prod.map id (SlotQueue.mk none)) := by
  induction ops generalizing fops items with
  | nil =>
    obtain rfl : fops = [] := List.map_eq_nil_iff.mp h.symm
    rfl
  | cons o ops ih =>
    obtain ⟨f, fops, rfl⟩ : ∃ f t, fops = f :: t := by
      cases fops with
      | nil => cases h
      | cons f t => exact ⟨f, t, rfl⟩
    obtain ⟨hf, hrest⟩ := List.cons.inj h
    cases o with
    | priorityPush elt => cases hf
    | push elt =>
      cases hf
      exact congrArg (_ :: ·) (ih hrest (items ++ [elt]))
    | pop | steal =>
      cases hf
      exact congrArg (_ :: ·) (ih hrest items.tail)

/-- The two work queues and the queue with a priority slot have the same history
for every sequence of complete calls, and it is that of a FIFO queue when there
is no priority push. -/
theorem queues_interchangeable (log_size array : ℕ) (junk : ℤ → QueueElt α)
    (junk' : ℤ → Option (Elt α)) (calls : List (Call α)) :
    (∀ h, Sequential tkReturns tkContents (TokioSteps.tkQueueInit log_size junk) calls h ↔
      h = slotHistory calls) ∧
    (∀ h, Sequential tlReturns tlElements (LockedQueue.tlQueueInit log_size array junk') calls h ↔
      h = slotHistory calls) ∧
    (∀ fops, (calls.map Call.op).map fifoOp = fops.map some →
      slotHistory calls = fifoHistory fops) := by
  refine ⟨tk_history log_size junk calls, tl_history log_size array junk' calls, ?_⟩
  intro fops hfops
  have hh : history (slotQueue (Elt α)) (slotQueue (Elt α)).init (calls.map Call.op) = _ :=
    history_of_fifo hfops []
  rw [slotHistory, hh, List.map_map]
  rfl

end Libseff.QueueEquivalence
