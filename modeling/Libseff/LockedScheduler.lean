import Libseff.LockedQueueCalls
import Libseff.LockedQueueSim
import Libseff.TaskLives

namespace Libseff.LockedScheduler

open CircularArrays TransitionRuns AtomicObjects SlotQueues Scheduler TaskLives

variable {n : ℕ} {V : Type}

/-- The scheduler with the queues that `QUEUE` names, a `tl_queue_t` for each
worker: the worker is the owner of its queue and a thief at the others. -/
structure TlState (n : ℕ) (V : Type) where
  tasks : ℕ → Option (ScheffTask V)
  created : ℕ
  remaining_tasks : ℤ
  queue : Fin n → LockedQueue.State (Fin n) ℕ
  worker : Fin n → Worker V
  main : Main
  wakers : Multiset ℕ

def plain (s : TlState n V) : State n V :=
  ⟨s.tasks, s.created, s.remaining_tasks, fun _ => ⟨none, []⟩, s.worker, s.main, s.wakers⟩

def withQueues (s : State n V) (queue : Fin n → LockedQueue.State (Fin n) ℕ) : TlState n V :=
  ⟨s.tasks, s.created, s.remaining_tasks, queue, s.worker, s.main, s.wakers⟩

inductive TlAction (n : ℕ) (V : Type) where
  | plain (a : Action n V)
  | queue (i : Fin n) (new_array : ℕ) (junk : ℤ → Option ℕ)

/-- The payload of a request to wake is on the stack of the task. -/
def readable (s : TlState n V) : Worker V → Bool
  | .wake t (_ :: _) _ =>
    match s.tasks t with
    | some task => task.coroutine.frame
    | none => false
  | _ => true

def afterCall : Worker V → Option ℕ → Worker V
  | .pop, some t | .steal _, some t => .checkState t
  | .pop, none => .steal 1
  | .steal k, none => .steal (k + 1)
  | .forkEnqueue _ new_task, _ => .forkPriority new_task
  | .forkPriority _, _ | .enqueue _, _ => .pop
  | .wake t (_ :: wakers) resume, _ => .wake t wakers resume
  | x, _ => x

def callAction (i : Fin n) : Op ℕ → LockedQueue.Action (Fin n) ℕ
  | .push elt => .callPush elt
  | .priorityPush elt => .callPriorityPush elt
  | .pop => .callPop
  | .steal => .callSteal i

def runAction (i : Fin n) (new_array : ℕ) (junk : ℤ → Option ℕ) :
    Op ℕ → LockedQueue.Action (Fin n) ℕ
  | .steal => .thief i
  | _ => .owner new_array junk

def idleAt (q : LockedQueue.State (Fin n) ℕ) (c : Option (Fin n)) : Bool :=
  match c with
  | none =>
    match q.owner with
    | .idle => true
    | _ => false
  | some i =>
    match q.thief i with
    | .idle => true
    | _ => false

def setTlQueue (s : TlState n V) (j : Fin n) (q : LockedQueue.State (Fin n) ℕ) : TlState n V :=
  { s with queue := Function.update s.queue j q }

def setTlWorker (s : TlState n V) (i : Fin n) (x : Worker V) : TlState n V :=
  { s with worker := Function.update s.worker i x }

section Steps

variable [NeZero n]

/-- The call of a queue at which a worker is: of its own queue, or of the queue
that it steals from. -/
def queueCall (i : Fin n) : Worker V → Option (Option (Fin n) × Op ℕ)
  | .pop => some (none, .pop)
  | .steal k => if k < n then some (some (Fin.ofNat n (i + k)), .steal) else none
  | .forkEnqueue t _ | .enqueue t => some (none, .push t)
  | .forkPriority new_task => some (none, .priorityPush new_task)
  | .wake _ (waker :: _) _ => some (none, .priorityPush waker)
  | _ => none

def afterStep (s : TlState n V) (i j : Fin n) (q : LockedQueue.State (Fin n) ℕ) :
    LockedQueue.Event (Fin n) ℕ → TlState n V
  | some (.ret _ r) => setTlWorker (setTlQueue s j q) i (afterCall (s.worker i) r)
  | _ => setTlQueue s j q

def queueStep (s : TlState n V) (i : Fin n) (new_array : ℕ) (junk : ℤ → Option ℕ) :
    Option (TlState n V) :=
  match queueCall i (s.worker i) with
  | none => none
  | some (c, op) =>
    let j := c.getD i
    if idleAt (s.queue j) (c.map fun _ => i) then
      if readable s (s.worker i) then
        (LockedQueue.step (s.queue j) (callAction i op)).map fun (q, _) => setTlQueue s j q
      else some (setTlWorker s i .fault)
    else
      (LockedQueue.step (s.queue j) (runAction i new_array junk op)).map fun (q, e) =>
        afterStep s i j q e

def callsQueue (s : TlState n V) : Action n V → Bool
  | .worker i => (queueCall i (s.worker i)).isSome
  | _ => false

def tlStep (s : TlState n V) : TlAction n V → Option (TlState n V × Option (ℕ × TaskEvent V))
  | .plain a =>
    if callsQueue s a then none
    else (step (plain s) a).map fun (t, _) => (withQueues t s.queue, label (plain s) a)
  | .queue i new_array junk => (queueStep s i new_array junk).map fun s' => (s', none)

/-- The clients do as before, and `malloc` returns a block that is not in use. -/
def tlMay (s : TlState n V) : TlAction n V → Prop
  | .plain a => may (plain s) a
  | .queue i new_array junk =>
    match queueCall i (s.worker i) with
    | some (c, op) => LockedQueue.mayRun (s.queue (c.getD i)) (runAction i new_array junk op)
    | none => True

instance decidableTlMay (s : TlState n V) : (a : TlAction n V) → Decidable (tlMay s a)
  | .plain a => decidableMay (plain s) a
  | .queue i new_array junk =>
    match h : queueCall i (s.worker i) with
    | some (c, op) =>
      decidable_of_iff
        (LockedQueue.mayRun (s.queue (c.getD i)) (runAction i new_array junk op))
        (by rw [tlMay, h])
    | none => isTrue (by rw [tlMay, h]; trivial)

/-- `scheff_init`, and then calls of `scheff_schedule`. -/
inductive Scheduled (log_size : ℕ) : TlState n V → Prop
  | init (array : Fin n → ℕ) (junk : Fin n → ℤ → Option ℕ) :
      Scheduled log_size (withQueues (scheffInit n V) fun j =>
        ⟨LockedQueue.tlQueueInit log_size (array j) (junk j), .idle, fun _ => .idle⟩)
  | schedule {s : TlState n V} (h : Scheduled log_size s) (fn arg : V)
      (malloc : LockedQueueCalls.Malloc ℕ) (junk : ℤ → Option ℕ) {q : LockedQueue.TlQueue ℕ}
      {r : Option ℕ}
      (hcall : LockedQueueCalls.tlCall (.push s.created, malloc, junk) (s.queue 0).queue q r) :
      Scheduled log_size
        { s with
          tasks := Function.update s.tasks s.created (some (initTask fn arg))
          created := s.created + 1
          remaining_tasks := s.remaining_tasks + 1
          queue := Function.update s.queue 0 { s.queue 0 with queue := q } }

def tlScheffSystem (n : ℕ) (V : Type) [NeZero n] (log_size : ℕ) :
    System (TlState n V) (TlAction n V) (Option (ℕ × TaskEvent V)) where
  init := Scheduled log_size
  may := tlMay
  step := tlStep

end Steps

end Libseff.LockedScheduler
