import Libseff.SlotQueues
import Libseff.ThreadCounts
import Libseff.TransitionRuns
import Mathlib.Algebra.GroupWithZero.Nat
import Mathlib.Algebra.Order.Group.Multiset
import Mathlib.Data.Fintype.Fin

namespace Libseff.Scheduler

open SlotQueues ThreadCounts TransitionRuns

inductive CoroutineState where
  | finished
  | paused
  | running
  deriving DecidableEq

variable {n : ℕ} {V : Type}

/-- `frame` says that the stack of the coroutine is allocated. -/
structure Coroutine (V : Type) where
  fn : V
  arg : V
  state : CoroutineState
  frame : Bool

/-- `task_t`; pointers to code and data are values in `V`, and `none` is `NULL`. -/
structure ScheffTask (V : Type) where
  coroutine : Coroutine V
  poll_condition : Option V
  poll_arg : Option V

def initTask (fn arg : V) : ScheffTask V := ⟨⟨fn, arg, .paused, true⟩, none, none⟩

inductive Request (V : Type) where
  | ret (result : V)
  | fork (fn arg : V)
  | poll (poll_condition poll_arg : Option V)
  | sleep (must_sleep arg : V)
  | wake (wakers : List ℕ) (resume : Bool)

/-- Where a worker is in `scheff_worker_thread`. In `running` the task executes,
in `pollCondition` and `mustSleep` a callback does; `published` says that the
latter has handed out the waker. -/
inductive Worker (V : Type) where
  | unstarted
  | pop
  | steal (i : ℕ)
  | loadRemaining
  | checkState (current_task : ℕ)
  | checkPoll (current_task : ℕ)
  | pollCondition (current_task : ℕ) (poll_condition : V) (poll_arg : Option V)
  | clearPoll (current_task : ℕ)
  | resume (current_task : ℕ)
  | running (current_task : ℕ)
  | caseSwitch (current_task : ℕ) (request : Request V)
  | forkAdd (current_task : ℕ) (fn arg : V)
  | forkMalloc (current_task : ℕ) (fn arg : V)
  | forkEnqueue (current_task new_task : ℕ)
  | forkPriority (new_task : ℕ)
  | setPoll (current_task : ℕ) (poll_condition poll_arg : Option V)
  | mustSleep (current_task : ℕ) (must_sleep arg : V) (published : Bool)
  | wake (current_task : ℕ) (wakers : List ℕ) (resume : Bool)
  | enqueue (current_task : ℕ)
  | release (task : ℕ)
  | free (task : ℕ)
  | fetchSub
  | exited
  | fatal
  | fault

/-- Where `scheff_run` is: it starts the other workers, becomes the first one,
and joins the others. -/
inductive Main where
  | create (i : ℕ)
  | work
  | join (i : ℕ)
  | returned
  deriving DecidableEq

/-- A task is named by the number of tasks that were created before it; `wakers`
are the published wakers that no request has named yet. `malloc` succeeds, and
`remaining_tasks` counts blocks of memory, so that it does not overflow. -/
structure State (n : ℕ) (V : Type) where
  tasks : ℕ → Option (ScheffTask V)
  created : ℕ
  remaining_tasks : ℤ
  queue : Fin n → SlotQueue ℕ
  worker : Fin n → Worker V
  main : Main
  wakers : Multiset ℕ

inductive Action (n : ℕ) (V : Type) where
  | main
  | worker (i : Fin n)
  | request (i : Fin n) (request : Request V)
  | condition (i : Fin n) (result : Bool)
  | publish (i : Fin n)
  | answer (i : Fin n) (result : Bool)

inductive Event (n : ℕ) where
  | silent
  | create (i : Fin n) (task : ℕ)
  | touch (i : Fin n) (task : ℕ)
  | release (i : Fin n) (task : ℕ)
  deriving DecidableEq

def setWorker (s : State n V) (i : Fin n) (x : Worker V) : State n V :=
  { s with worker := Function.update s.worker i x }

def setTask (s : State n V) (t : ℕ) (task : Option (ScheffTask V)) : State n V :=
  { s with tasks := Function.update s.tasks t task }

def setQueue (s : State n V) (i : Fin n) (q : SlotQueue ℕ) : State n V :=
  { s with queue := Function.update s.queue i q }

def newTask (s : State n V) (fn arg : V) : State n V :=
  { s with
    tasks := Function.update s.tasks s.created (some (initTask fn arg)), created := s.created + 1 }

def scheffInit (n : ℕ) (V : Type) : State n V :=
  ⟨fun _ => none, 0, 0, fun _ => ⟨none, []⟩, fun _ => .unstarted, .create 1, 0⟩

section Steps

variable [NeZero n]

def scheffSchedule (s : State n V) (fn arg : V) : State n V :=
  let task := s.created
  let s := newTask s fn arg
  let s := { s with remaining_tasks := s.remaining_tasks + 1 }
  setQueue s 0 (push task (s.queue 0))

/-- An access to a task, which is a fault when the task is freed. -/
def access (s : State n V) (i : Fin n) (t : ℕ) (k : ScheffTask V → State n V) :
    Option (State n V × Event n) :=
  match s.tasks t with
  | some task => some (k task, .touch i t)
  | none => some (setWorker s i .fault, .touch i t)

def accessFrame (s : State n V) (i : Fin n) (t : ℕ) (k : ScheffTask V → State n V) :
    Option (State n V × Event n) :=
  access s i t fun task => if task.coroutine.frame then k task else setWorker s i .fault

/-- `priority_push` and `push` do not look at the task. -/
def pushTask (s : State n V) (i : Fin n) (t : ℕ) (x : Worker V) : Option (State n V × Event n) :=
  some (setWorker (setQueue s i (push t (s.queue i))) i x, .silent)

def pushPriority (s : State n V) (i : Fin n) (t : ℕ) (x : Worker V) :
    Option (State n V × Event n) :=
  some (setWorker (setQueue s i (priorityPush t (s.queue i))) i x, .silent)

def started (main : Main) (i : Fin n) : Bool :=
  match main with
  | .create k => decide (0 < i.val ∧ i.val < k)
  | _ => true

def tryTask (s : State n V) (i j : Fin n) (r : SlotQueue ℕ × Option ℕ) (x : Worker V) :
    Option (State n V × Event n) :=
  match r.2 with
  | some t => some (setWorker (setQueue s j r.1) i (.checkState t), .silent)
  | none => some (setWorker (setQueue s j r.1) i x, .silent)

def caseSwitch (t : ℕ) : Request V → Worker V
  | .ret _ => .release t
  | .fork fn arg => .forkAdd t fn arg
  | .poll poll_condition poll_arg => .setPoll t poll_condition poll_arg
  | .sleep must_sleep arg => .mustSleep t must_sleep arg false
  | .wake wakers resume => .wake t wakers resume

def workerStep (s : State n V) (i : Fin n) : Option (State n V × Event n) :=
  match s.worker i with
  | .unstarted => if started s.main i then some (setWorker s i .pop, .silent) else none
  | .pop => tryTask s i i (pop (s.queue i)) (.steal 1)
  | .steal k =>
    if k < n then
      let j := Fin.ofNat n (i + k)
      tryTask s i j (steal (s.queue j)) (.steal (k + 1))
    else some (setWorker s i .loadRemaining, .silent)
  | .loadRemaining =>
    if s.remaining_tasks = 0 then some (setWorker s i .exited, .silent)
    else some (setWorker s i .pop, .silent)
  | .checkState t =>
    access s i t fun task =>
      if task.coroutine.state ≠ .paused then setWorker s i .fatal
      else setWorker s i (.checkPoll t)
  | .checkPoll t =>
    access s i t fun task =>
      match task.poll_condition with
      | some poll_condition => setWorker s i (.pollCondition t poll_condition task.poll_arg)
      | none => setWorker s i (.clearPoll t)
  | .clearPoll t =>
    access s i t fun task =>
      setWorker (setTask s t (some { task with poll_condition := none })) i (.resume t)
  | .resume t => accessFrame s i t fun _ => setWorker s i (.running t)
  | .caseSwitch t (.ret result) => some (setWorker s i (caseSwitch t (.ret result)), .silent)
  | .caseSwitch t request => accessFrame s i t fun _ => setWorker s i (caseSwitch t request)
  | .forkAdd t fn arg =>
    some (setWorker { s with remaining_tasks := s.remaining_tasks + 1 } i (.forkMalloc t fn arg),
      .silent)
  | .forkMalloc t fn arg =>
    some (setWorker (newTask s fn arg) i (.forkEnqueue t s.created), .create i s.created)
  | .forkEnqueue t new_task => pushTask s i t (.forkPriority new_task)
  | .forkPriority new_task => pushPriority s i new_task .pop
  | .setPoll t poll_condition poll_arg =>
    access s i t fun task =>
      setWorker (setTask s t (some ⟨task.coroutine, poll_condition, poll_arg⟩)) i (.enqueue t)
  | .wake t (waker :: wakers) resume =>
    accessFrame s i t fun _ =>
      setWorker (setQueue s i (priorityPush waker (s.queue i))) i (.wake t wakers resume)
  | .wake t [] resume =>
    some (setWorker s i (if resume then .enqueue t else .release t), .silent)
  | .enqueue t => pushTask s i t .pop
  | .release t =>
    match s.tasks t with
    | some task =>
      if task.coroutine.frame then
        some (setWorker (setTask s t (some { task with
          coroutine := { task.coroutine with frame := false } })) i (.free t), .release i t)
      else some (setWorker s i .fault, .release i t)
    | none => some (setWorker s i .fault, .release i t)
  | .free t => access s i t fun _ => setWorker (setTask s t none) i .fetchSub
  | .fetchSub =>
    some (setWorker { s with remaining_tasks := s.remaining_tasks - 1 } i .pop, .silent)
  | .running _ | .pollCondition _ _ _ | .mustSleep _ _ _ _ | .exited | .fatal | .fault => none

/-- A request takes the wakers it names from those that are published, and a
return finishes the coroutine. -/
def requestStep (s : State n V) (i : Fin n) (t : ℕ) : Request V → Option (State n V × Event n)
  | .ret result =>
    accessFrame s i t fun task =>
      setWorker (setTask s t (some { task with
        coroutine := { task.coroutine with state := .finished } })) i (.caseSwitch t (.ret result))
  | .wake wakers resume =>
    accessFrame s i t fun _ =>
      setWorker { s with wakers := s.wakers - wakers } i (.caseSwitch t (.wake wakers resume))
  | request => accessFrame s i t fun _ => setWorker s i (.caseSwitch t request)

def mainStep (s : State n V) : Option (State n V × Event n) :=
  match s.main with
  | .create k => some ({ s with main := if k < n then .create (k + 1) else .work }, .silent)
  | .work =>
    match s.worker 0 with
    | .exited => some ({ s with main := .join 1 }, .silent)
    | _ => none
  | .join k =>
    if k < n then
      match s.worker (Fin.ofNat n k) with
      | .exited => some ({ s with main := .join (k + 1) }, .silent)
      | _ => none
    else some ({ s with main := .returned }, .silent)
  | .returned => none

def step (s : State n V) : Action n V → Option (State n V × Event n)
  | .main => mainStep s
  | .worker i => workerStep s i
  | .request i request =>
    match s.worker i with
    | .running t => requestStep s i t request
    | _ => none
  | .condition i result =>
    match s.worker i with
    | .pollCondition t _ _ =>
      some (setWorker s i (if result then .clearPoll t else .enqueue t), .silent)
    | _ => none
  | .publish i =>
    match s.worker i with
    | .mustSleep t must_sleep arg _ =>
      some (setWorker { s with wakers := t ::ₘ s.wakers } i (.mustSleep t must_sleep arg true),
        .silent)
    | _ => none
  | .answer i result =>
    match s.worker i with
    | .mustSleep t _ _ _ => some (setWorker s i (if result then .pop else .enqueue t), .silent)
    | _ => none

def published : Worker V → Bool
  | .mustSleep _ _ _ published => published
  | _ => false

/-- A request names published wakers only, a wakeup manager publishes its waker
once, and it returns true exactly when it has done so. -/
def may (s : State n V) : Action n V → Prop
  | .request _ (.wake wakers _) => (wakers : Multiset ℕ) ≤ s.wakers
  | .publish i => published (s.worker i) = false
  | .answer i result => result = published (s.worker i)
  | _ => True

instance decidableMay (s : State n V) : (a : Action n V) → Decidable (may s a)
  | .request _ (.wake wakers _) => inferInstanceAs (Decidable ((wakers : Multiset ℕ) ≤ s.wakers))
  | .publish i => inferInstanceAs (Decidable (published (s.worker i) = false))
  | .answer i result => inferInstanceAs (Decidable (result = published (s.worker i)))
  | .main | .worker _ | .condition _ _ | .request _ (.ret _) | .request _ (.fork _ _)
  | .request _ (.poll _ _) | .request _ (.sleep _ _) => isTrue trivial

def scheffSystem (n : ℕ) (V : Type) [NeZero n] : System (State n V) (Action n V) (Event n) where
  init s := ∃ tasks : List (V × V),
    s = tasks.foldl (fun s p => scheffSchedule s p.1 p.2) (scheffInit n V)
  may := may
  step := step

end Steps

end Libseff.Scheduler
