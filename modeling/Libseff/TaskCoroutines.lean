import Libseff.SchedulerRuns

namespace Libseff.TaskCoroutines

open TransitionRuns Scheduler SchedulerPlaces SchedulerMoves SchedulerOwner

variable {n : ℕ} {V : Type}

inductive Use (V : Type) where
  | init (t : ℕ) (fn arg : V)
  | resume (t : ℕ)
  | request (t : ℕ)
  | ret (t : ℕ)
  | drop (t : ℕ)
  deriving DecidableEq

def paused (s : State n V) (t : ℕ) : Bool :=
  match s.tasks t with
  | some task => decide (task.coroutine.state = .paused)
  | none => false

/-- The use that a step makes of a coroutine. A coroutine that has not returned when
its task is finalized is dropped where it is suspended. -/
def uses (s : State n V) : Action n V → Option (Fin n × Use V)
  | .worker i =>
    match s.worker i with
    | .forkMalloc _ fn arg => some (i, .init s.created fn arg)
    | .resume t => some (i, .resume t)
    | .release t => if paused s t then some (i, .drop t) else none
    | _ => none
  | .request i request =>
    match s.worker i, request with
    | .running t, .ret _ => some (i, .ret t)
    | .running t, _ => some (i, .request t)
    | _, _ => none
  | _ => none

def runs : Worker V → Option ℕ
  | .running t => some t
  | _ => none

def client : Worker V → Bool
  | .running _ | .pollCondition _ _ _ | .mustSleep _ _ _ _ => true
  | _ => false

def returns (i : Fin n) : Action n V → Bool
  | .condition j _ | .answer j _ => decide (j = i)
  | _ => false

def Waits (s : State n V) (t : ℕ) : Prop :=
  (∃ task, s.tasks t = some task ∧ ready task) ∧ ∀ i, runs (s.worker i) ≠ some t

def SameStart (s s' : State n V) (t : ℕ) : Prop :=
  ∀ task', s'.tasks t = some task' → ∃ task, s.tasks t = some task ∧
    task.coroutine.fn = task'.coroutine.fn ∧ task.coroutine.arg = task'.coroutine.arg

structure Quiet (s s' : State n V) (a : Action n V) : Prop where
  start : ∀ t, SameStart s s' t
  created : s'.created = s.created
  waits : ∀ t, Waits s' t → Waits s t
  runs : ∀ i, runs (s'.worker i) = runs (s.worker i)
  client : ∀ i, client (s.worker i) = true → client (s'.worker i) = false → returns i a = true

inductive UseStep (s : State n V) (a : Action n V) : Option (Fin n × Use V) → State n V → Prop
  | quiet {s' : State n V} (h : Quiet s s' a) : UseStep s a none s'
  | init {i : Fin n} {t : ℕ} {fn arg : V} (hpc : s.worker i = .forkMalloc t fn arg) :
      UseStep s a (some (i, .init s.created fn arg))
        (setWorker (newTask s fn arg) i (.forkEnqueue t s.created))
  | resume {i : Fin n} {t : ℕ} (hpc : s.worker i = .resume t) (hwaits : Waits s t) :
      UseStep s a (some (i, .resume t)) (setWorker s i (.running t))
  | request {i : Fin n} {t : ℕ} {s' : State n V} {x : Worker V} (hpc : s.worker i = .running t)
      (hworker : s'.worker = Function.update s.worker i x) (hruns : runs x = none)
      (hclient : client x = false) (htasks : s'.tasks = s.tasks)
      (hcreated : s'.created = s.created) : UseStep s a (some (i, .request t)) s'
  | ret {i : Fin n} {t : ℕ} {s' : State n V} {x : Worker V} (hpc : s.worker i = .running t)
      (hworker : s'.worker = Function.update s.worker i x) (hruns : runs x = none)
      (hclient : client x = false) (htasks : ∀ u, u ≠ t → s'.tasks u = s.tasks u)
      (hcreated : s'.created = s.created) (hdone : ¬ Waits s' t) :
      UseStep s a (some (i, .ret t)) s'
  | drop {i : Fin n} {t : ℕ} {s' : State n V} {x : Worker V} (hpc : s.worker i = .release t)
      (hwaits : Waits s t) (hworker : s'.worker = Function.update s.worker i x)
      (hruns : runs x = none) (htasks : ∀ u, u ≠ t → s'.tasks u = s.tasks u)
      (hcreated : s'.created = s.created) (hdone : ¬ Waits s' t) :
      UseStep s a (some (i, .drop t)) s'

theorem runs_of_hands {x : Worker V} {t : ℕ} (h : runs x = some t) : t ∈ hands x := by
  cases x <;> cases h
  exact Multiset.mem_singleton_self t

theorem waits_of_hands {s : State n V} (h : Owned s) {i : Fin n} {t : ℕ}
    (ht : t ∈ hands (s.worker i)) (hruns : runs (s.worker i) ≠ some t) {task : ScheffTask V}
    (htask : s.tasks t = some task) (hready : ready task) : Waits s t := by
  refine ⟨⟨task, htask, hready⟩, fun j hj => ?_⟩
  by_cases hji : j = i
  · subst hji
    exact hruns hj
  · exact (only_hands h ht).2.1 j hji (runs_of_hands hj)

theorem runs_update {s : State n V} {i : Fin n} {x : Worker V}
    (hx : runs x = runs (s.worker i)) (j : Fin n) :
    runs (Function.update s.worker i x j) = runs (s.worker j) := by
  by_cases hj : j = i
  · subst hj
    rwa [Function.update_self]
  · rw [Function.update_of_ne hj]

theorem waits_congr {s s' : State n V} {t : ℕ} (htasks : s'.tasks t = s.tasks t)
    (hruns : ∀ i, runs (s'.worker i) = runs (s.worker i)) (h : Waits s' t) : Waits s t := by
  obtain ⟨⟨task, htask, hready⟩, hno⟩ := h
  exact ⟨⟨task, htasks ▸ htask, hready⟩, fun i => hruns i ▸ hno i⟩

theorem sameStart_of_eq {s s' : State n V} {t : ℕ} (h : s'.tasks t = s.tasks t) :
    SameStart s s' t := fun task' htask' => ⟨task', h ▸ htask', rfl, rfl⟩

theorem sameStart_of_update {s s' : State n V} {t : ℕ} {task task' : ScheffTask V}
    (htask : s.tasks t = some task) (htask' : s'.tasks t = some task')
    (hfn : task.coroutine.fn = task'.coroutine.fn)
    (harg : task.coroutine.arg = task'.coroutine.arg) : SameStart s s' t := by
  intro u hu
  cases htask'.symm.trans hu
  exact ⟨task, htask, hfn, harg⟩

theorem quiet_worker {s s' : State n V} {a : Action n V} {i : Fin n} {x y : Worker V}
    (hpc : s.worker i = y) (hworker : s'.worker = Function.update s.worker i x)
    (hruns : runs x = runs y) (hclient : client y = true → client x = false → returns i a = true)
    (hcreated : s'.created = s.created)
    (htasks : ∀ t, s'.tasks t = s.tasks t ∨ SameStart s s' t ∧ (Waits s t ∨ ¬ Waits s' t)) :
    Quiet s s' a := by
  have hsame : ∀ j, runs (s'.worker j) = runs (s.worker j) := fun j =>
    hworker ▸ runs_update (hpc ▸ hruns) j
  refine ⟨fun t => ?_, hcreated, fun t ht => ?_, hsame, fun j hj hj' => ?_⟩
  · obtain htask | ⟨hstart, -⟩ := htasks t
    · exact sameStart_of_eq htask
    · exact hstart
  · obtain htask | ⟨-, hw | hno⟩ := htasks t
    · exact waits_congr htask hsame ht
    · exact hw
    · exact absurd ht hno
  · rw [hworker] at hj'
    by_cases hji : j = i
    · subst hji
      rw [Function.update_self] at hj'
      exact hclient (hpc ▸ hj) hj'
    · rw [Function.update_of_ne hji, hj] at hj'
      cases hj'

theorem quiet_walk {s s' : State n V} {a : Action n V} {i : Fin n} {x y : Worker V}
    (hpc : s.worker i = y) (hworker : s'.worker = Function.update s.worker i x)
    (hruns : runs x = runs y) (hclient : client y = false) (hcreated : s'.created = s.created)
    (htasks : s'.tasks = s.tasks) : Quiet s s' a :=
  quiet_worker hpc hworker hruns (fun h => by rw [hclient] at h; cases h) hcreated
    fun t => .inl (congrFun htasks t)

theorem quiet_tryTask {s s' : State n V} {a : Action n V} {i j : Fin n}
    {r : SlotQueues.SlotQueue ℕ × Option ℕ} {x y : Worker V} {e : Event n} (hpc : s.worker i = y)
    (hy : runs y = none) (hx : runs x = none) (hclient : client y = false)
    (hs : tryTask s i j r x = some (s', e)) : Quiet s s' a := by
  cases hres : r.2 with
  | none =>
    simp only [tryTask, hres] at hs
    cases hs
    exact quiet_walk hpc rfl (hx.trans hy.symm) hclient rfl rfl
  | some t =>
    simp only [tryTask, hres] at hs
    cases hs
    exact quiet_walk (x := .checkState t) hpc rfl hy.symm hclient rfl rfl

theorem not_waits_of_task {s : State n V} {t : ℕ} {task : ScheffTask V}
    (htask : s.tasks t = some task) (hready : ¬ ready task) : ¬ Waits s t := by
  rintro ⟨⟨task', htask', hready'⟩, -⟩
  rw [htask] at htask'
  cases htask'
  exact hready hready'

section Steps

variable [NeZero n]

omit [NeZero n] in
theorem useStep_quiet {s s' : State n V} {i : Fin n} (h : Quiet s s' (.worker i))
    (hinit : ∀ t fn arg, s.worker i ≠ .forkMalloc t fn arg)
    (hresume : ∀ t, s.worker i ≠ .resume t) (hrelease : ∀ t, s.worker i ≠ .release t) :
    UseStep s (.worker i) (uses s (.worker i)) s' := by
  have hnone : uses s (.worker i) = none := by
    cases hpc : s.worker i with
    | forkMalloc t fn arg => exact absurd hpc (hinit t fn arg)
    | resume t => exact absurd hpc (hresume t)
    | release t => exact absurd hpc (hrelease t)
    | unstarted | pop | steal | loadRemaining | checkState | checkPoll | pollCondition | clearPoll
    | running | caseSwitch | forkAdd | forkEnqueue | forkPriority | setPoll | mustSleep | wake
    | enqueue | free | fetchSub | exited | fatal | fault => simp only [uses, hpc]
  rw [hnone]
  exact .quiet h

theorem quiet_step {s s' : State n V} (h : Owned s) {i : Fin n} {e : Event n}
    (hs : workerStep s i = some (s', e)) (hinit : ∀ t fn arg, s.worker i ≠ .forkMalloc t fn arg)
    (hresume : ∀ t, s.worker i ≠ .resume t) (hrelease : ∀ t, s.worker i ≠ .release t) :
    Quiet s s' (.worker i) := by
  cases hpc : s.worker i with
  | unstarted =>
    simp only [workerStep, hpc] at hs
    split at hs
    · cases hs
      exact quiet_walk hpc rfl rfl rfl rfl rfl
    · cases hs
  | pop =>
    simp only [workerStep, hpc] at hs
    exact quiet_tryTask (x := .steal 1) hpc rfl rfl rfl hs
  | steal k =>
    simp only [workerStep, hpc] at hs
    split at hs
    · exact quiet_tryTask (x := .steal (k + 1)) hpc rfl rfl rfl hs
    · cases hs
      exact quiet_walk hpc rfl rfl rfl rfl rfl
  | loadRemaining =>
    simp only [workerStep, hpc] at hs
    split at hs
    · cases hs
      exact quiet_walk hpc rfl rfl rfl rfl rfl
    · cases hs
      exact quiet_walk hpc rfl rfl rfl rfl rfl
  | checkState t =>
    have ht : t ∈ hands (.checkState t : Worker V) := Multiset.mem_singleton_self t
    simp only [workerStep, hpc] at hs
    obtain ⟨task, -, hready, rfl, -⟩ := h.of_access hpc ht hs
    rw [if_neg (not_not_intro hready.1)]
    exact quiet_walk hpc rfl rfl rfl rfl rfl
  | checkPoll t =>
    have ht : t ∈ hands (.checkPoll t : Worker V) := Multiset.mem_singleton_self t
    simp only [workerStep, hpc] at hs
    obtain ⟨task, -, -, rfl, -⟩ := h.of_access hpc ht hs
    split
    · exact quiet_walk hpc rfl rfl rfl rfl rfl
    · exact quiet_walk hpc rfl rfl rfl rfl rfl
  | clearPoll t | setPoll t poll_condition poll_arg =>
    have ht : t ∈ hands (s.worker i) := by simp [hpc, hands]
    simp only [workerStep, hpc] at hs
    obtain ⟨task, htask, hready, rfl, -⟩ := h.of_access hpc (hpc ▸ ht) hs
    have hwaits := waits_of_hands h ht (by simp [hpc, runs]) htask hready
    refine quiet_worker hpc rfl rfl (fun h => by cases h) rfl fun u => ?_
    by_cases hu : u = t
    · subst hu
      exact .inr ⟨sameStart_of_update htask (Function.update_self ..) rfl rfl, .inl hwaits⟩
    · exact .inl (Function.update_of_ne hu ..)
  | caseSwitch t request =>
    cases request with
    | ret result =>
      simp only [workerStep, hpc] at hs
      cases hs
      exact quiet_walk hpc rfl rfl rfl rfl rfl
    | fork | poll | sleep | wake =>
      have ht : t ∈ hands (s.worker i) := by simp [hpc, hands]
      simp only [workerStep, hpc] at hs
      obtain ⟨task, -, -, rfl, -⟩ := h.of_accessFrame hpc (hpc ▸ ht) (fun _ h => h) hs
      exact quiet_walk hpc rfl rfl rfl rfl rfl
  | forkAdd t fn arg =>
    simp only [workerStep, hpc] at hs
    cases hs
    exact quiet_walk hpc rfl rfl rfl rfl rfl
  | forkEnqueue t new_task =>
    simp only [workerStep, hpc, pushTask] at hs
    cases hs
    exact quiet_walk hpc rfl rfl rfl rfl rfl
  | forkPriority new_task =>
    simp only [workerStep, hpc, pushPriority] at hs
    cases hs
    exact quiet_walk hpc rfl rfl rfl rfl rfl
  | wake t wakers resume =>
    cases wakers with
    | nil =>
      simp only [workerStep, hpc] at hs
      cases hs
      cases resume
      · exact quiet_walk hpc rfl rfl rfl rfl rfl
      · exact quiet_walk hpc rfl rfl rfl rfl rfl
    | cons waker wakers =>
      have ht : t ∈ hands (.wake t (waker :: wakers) resume : Worker V) :=
        Multiset.mem_cons_self t (waker :: wakers : List ℕ)
      simp only [workerStep, hpc] at hs
      obtain ⟨task, -, -, rfl, -⟩ := h.of_accessFrame hpc ht (fun _ h => h) hs
      exact quiet_walk hpc rfl rfl rfl rfl rfl
  | enqueue t =>
    simp only [workerStep, hpc, pushTask] at hs
    cases hs
    exact quiet_walk hpc rfl rfl rfl rfl rfl
  | free t =>
    simp only [workerStep, hpc] at hs
    obtain ⟨task, -, -, rfl, -⟩ := h.of_access hpc (Multiset.mem_singleton_self t) hs
    refine quiet_worker hpc rfl rfl (fun h => by cases h) rfl fun u => ?_
    by_cases hu : u = t
    · subst hu
      have hnone : (setTask s u none).tasks u = none := Function.update_self ..
      refine .inr ⟨fun task' htask' => ?_, .inr fun hw => ?_⟩
      · cases hnone.symm.trans htask'
      · obtain ⟨⟨task', htask', -⟩, -⟩ := hw
        cases hnone.symm.trans htask'
    · exact .inl (Function.update_of_ne hu ..)
  | fetchSub =>
    simp only [workerStep, hpc] at hs
    cases hs
    exact quiet_walk hpc rfl rfl rfl rfl rfl
  | forkMalloc t fn arg => exact absurd hpc (hinit t fn arg)
  | resume t => exact absurd hpc (hresume t)
  | release t => exact absurd hpc (hrelease t)
  | pollCondition | running | mustSleep | exited | fatal | fault => simp [workerStep, hpc] at hs

theorem workerStep_uses {s s' : State n V} (h : Owned s) {i : Fin n} {e : Event n}
    (hs : workerStep s i = some (s', e)) : UseStep s (.worker i) (uses s (.worker i)) s' := by
  cases hpc : s.worker i with
  | forkMalloc t fn arg =>
    simp only [workerStep, hpc] at hs
    cases hs
    simp only [uses, hpc]
    exact .init hpc
  | resume t =>
    have ht : t ∈ hands (.resume t : Worker V) := Multiset.mem_singleton_self t
    simp only [workerStep, hpc] at hs
    obtain ⟨task, htask, hready, rfl, -⟩ := h.of_accessFrame hpc ht (fun _ h => h) hs
    simp only [uses, hpc]
    exact .resume hpc (waits_of_hands h (hpc ▸ ht) (by simp [hpc, runs]) htask hready)
  | release t =>
    have ht : t ∈ hands (.release t : Worker V) := Multiset.mem_singleton_self t
    obtain ⟨task, htask, hframe⟩ := h.task_of_hands hpc ht
    have hframe : task.coroutine.frame = true := hframe
    simp only [workerStep, hpc, htask, hframe, if_true] at hs
    cases hs
    have hdone : ∀ (tasks : State n V), tasks.tasks t = some { task with
        coroutine := { task.coroutine with frame := false } } → ¬ Waits tasks t :=
      fun _ hu => not_waits_of_task hu fun hr => by cases hr.2
    have hothers : ∀ u, u ≠ t → (setTask s t (some { task with
        coroutine := { task.coroutine with frame := false } })).tasks u = s.tasks u :=
      fun u hu => Function.update_of_ne hu ..
    simp only [uses, hpc, paused, htask]
    by_cases hstate : task.coroutine.state = .paused
    · rw [if_pos (decide_eq_true hstate)]
      exact .drop hpc (waits_of_hands h (hpc ▸ ht) (by simp [hpc, runs]) htask ⟨hstate, hframe⟩)
        rfl rfl hothers rfl (hdone _ (Function.update_self ..))
    · rw [if_neg (by simpa using hstate)]
      refine .quiet (quiet_worker hpc rfl rfl (fun h => by cases h) rfl fun u => ?_)
      by_cases hu : u = t
      · subst hu
        exact .inr ⟨sameStart_of_update htask (Function.update_self ..) rfl rfl,
          .inr (hdone _ (Function.update_self ..))⟩
      · exact .inl (hothers u hu)
  | unstarted | pop | steal | loadRemaining | checkState | checkPoll | pollCondition | clearPoll
  | running | caseSwitch | forkAdd | forkEnqueue | forkPriority | setPoll | mustSleep | wake
  | enqueue | free | fetchSub | exited | fatal | fault =>
    exact useStep_quiet (quiet_step h hs (by simp [hpc]) (by simp [hpc]) (by simp [hpc]))
      (by simp [hpc]) (by simp [hpc]) (by simp [hpc])

omit [NeZero n] in
theorem requestStep_uses {s s' : State n V} (h : Owned s) {i : Fin n} {t : ℕ}
    {request : Request V} {e : Event n} (hpc : s.worker i = .running t)
    (hs : requestStep s i t request = some (s', e)) :
    UseStep s (.request i request) (uses s (.request i request)) s' := by
  have ht : t ∈ hands (.running t : Worker V) := Multiset.mem_singleton_self t
  cases request with
  | ret result =>
    obtain ⟨task, -, -, rfl, -⟩ := h.of_accessFrame hpc ht (fun _ h => h) hs
    simp only [uses, hpc]
    refine .ret hpc rfl rfl rfl (fun u hu => Function.update_of_ne hu ..) rfl ?_
    exact not_waits_of_task (Function.update_self ..) fun hr => by cases hr.1
  | fork | poll | sleep | wake =>
    obtain ⟨task, -, -, rfl, -⟩ := h.of_accessFrame hpc ht (fun _ h => h) hs
    simp only [uses, hpc]
    exact .request hpc rfl rfl rfl rfl rfl

/-- A step of the scheduler uses at most one coroutine, and a coroutine that it
resumes or drops waits to be resumed. -/
theorem step_uses {s s' : State n V} (h : Owned s) {a : Action n V} {e : Event n}
    (hs : step s a = some (s', e)) : UseStep s a (uses s a) s' := by
  cases a with
  | main =>
    obtain ⟨main, rfl, -, -⟩ := mainStep_cases hs
    refine .quiet ⟨fun _ => sameStart_of_eq rfl, rfl, fun _ ht => ht, fun _ => rfl, ?_⟩
    intro i hi hi'
    cases hi.symm.trans hi'
  | worker i => exact workerStep_uses h hs
  | request i request =>
    simp only [step] at hs
    split at hs
    · rename_i t hpc
      exact requestStep_uses h hpc hs
    · cases hs
  | condition i result =>
    simp only [step] at hs
    split at hs
    · rename_i t _ _ hpc
      cases hs
      refine .quiet (quiet_worker hpc rfl ?_ (fun _ _ => decide_eq_true rfl) rfl fun _ => .inl rfl)
      cases result <;> rfl
    · cases hs
  | publish i =>
    simp only [step] at hs
    split at hs
    · rename_i t must_sleep arg published hpc
      cases hs
      exact .quiet (quiet_worker hpc rfl rfl (fun _ h => by cases h) rfl fun _ => .inl rfl)
    · cases hs
  | answer i result =>
    simp only [step] at hs
    split at hs
    · rename_i t must_sleep arg published hpc
      cases hs
      refine .quiet (quiet_worker hpc rfl ?_ (fun _ _ => decide_eq_true rfl) rfl fun _ => .inl rfl)
      cases result <;> rfl
    · cases hs

end Steps

end Libseff.TaskCoroutines
