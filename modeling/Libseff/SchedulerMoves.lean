import Libseff.SchedulerPlaces

namespace Libseff.SchedulerMoves

open SlotQueues TransitionRuns Scheduler SchedulerPlaces

variable {n : ℕ} {V : Type}

def ready (task : ScheffTask V) : Prop :=
  task.coroutine.state = .paused ∧ task.coroutine.frame = true

def expects : Worker V → ScheffTask V → Prop
  | .caseSwitch _ (.ret _), task | .release _, task => task.coroutine.frame = true
  | .free _, task => task.coroutine.frame = false
  | _, task => ready task

def Holds (tasks : ℕ → Option (ScheffTask V)) (p : ScheffTask V → Prop) (ts : Multiset ℕ) : Prop :=
  ∀ t ∈ ts, ∃ task, tasks t = some task ∧ p task

def busy : Worker V → Bool
  | .exited | .fatal | .fault => false
  | _ => true

/-- What a worker has counted in `remaining_tasks` and does not hold: a task that
it has not created yet, or one that it has freed. -/
def ahead : Worker V → ℕ
  | .forkMalloc _ _ _ | .fetchSub => 1
  | _ => 0

structure Owned (s : State n V) : Prop where
  places_eq : places s = (liveTasks s).val
  fresh : ∀ t, s.created ≤ t → s.tasks t = none
  queue : ∀ i, Holds s.tasks ready (contents (s.queue i))
  wakers : Holds s.tasks ready s.wakers
  held : ∀ i, Holds s.tasks (expects (s.worker i)) (hands (s.worker i))
  worker : ∀ i, busy (s.worker i) = true ∨ s.worker i = .exited

inductive Look (i : Fin n) (x : Worker V) : Event n → Prop
  | silent : Look i x .silent
  | touch (t : ℕ) (ht : t ∈ hands x) : Look i x (.touch i t)

inductive Move (s : State n V) (i : Fin n) : State n V → Event n → Prop
  | walk {x y : Worker V} {e : Event n} (hpc : s.worker i = y) (hlook : Look i y e)
      (hhands : hands x = hands y) (hexp : ∀ task, expects y task → expects x task)
      (hahead : ahead x = ahead y) (hbusy : busy x = true) : Move s i (setWorker s i x) e
  | exit (hpc : s.worker i = .loadRemaining) (hzero : s.remaining_tasks = 0) :
      Move s i (setWorker s i .exited) .silent
  | queue {x y : Worker V} {e : Event n} (j : Fin n) (q : SlotQueue ℕ) (hpc : s.worker i = y)
      (hlook : Look i y e) (hplaces : contents q + hands x = contents (s.queue j) + hands y)
      (hy : ∀ task, expects y task → ready task) (hx : ∀ task, ready task → expects x task)
      (hahead : ahead x = ahead y) (hbusy : busy x = true) :
      Move s i (setWorker (setQueue s j q) i x) e
  | wakers {x y : Worker V} {e : Event n} (wakers : Multiset ℕ) (hpc : s.worker i = y)
      (hlook : Look i y e) (hplaces : hands x + wakers = hands y + s.wakers)
      (hy : ∀ task, expects y task → ready task) (hx : ∀ task, ready task → expects x task)
      (hahead : ahead x = ahead y) (hbusy : busy x = true) :
      Move s i (setWorker { s with wakers := wakers } i x) e
  | write {x y : Worker V} {t : ℕ} {task : ScheffTask V} (task' : ScheffTask V)
      (hpc : s.worker i = y) (htask : s.tasks t = some task) (hy : hands y = {t})
      (hx : hands x = {t}) (hexp : expects x task') (hold : task.coroutine.frame = true)
      (hframe : task'.coroutine.frame = true) (hahead : ahead x = ahead y)
      (hbusy : busy x = true) :
      Move s i (setWorker (setTask s t (some task')) i x) (.touch i t)
  | release {t : ℕ} {task : ScheffTask V} (task' : ScheffTask V) (hpc : s.worker i = .release t)
      (htask : s.tasks t = some task) (hold : task.coroutine.frame = true)
      (hframe : task'.coroutine.frame = false) :
      Move s i (setWorker (setTask s t (some task')) i (.free t)) (.release i t)
  | forkAdd (t : ℕ) (fn arg : V) (hpc : s.worker i = .forkAdd t fn arg) :
      Move s i (setWorker { s with remaining_tasks := s.remaining_tasks + 1 } i
        (.forkMalloc t fn arg)) .silent
  | forkMalloc (t : ℕ) (fn arg : V) (hpc : s.worker i = .forkMalloc t fn arg) :
      Move s i (setWorker (newTask s fn arg) i (.forkEnqueue t s.created)) (.create i s.created)
  | free {t : ℕ} {task : ScheffTask V} (hpc : s.worker i = .free t)
      (htask : s.tasks t = some task) (hold : task.coroutine.frame = false) :
      Move s i (setWorker (setTask s t none) i .fetchSub) (.touch i t)
  | fetchSub (hpc : s.worker i = .fetchSub) :
      Move s i (setWorker { s with remaining_tasks := s.remaining_tasks - 1 } i .pop) .silent

theorem Owned.task_of_hands {s : State n V} (h : Owned s) {i : Fin n} {x : Worker V} {t : ℕ}
    (hpc : s.worker i = x) (ht : t ∈ hands x) : ∃ task, s.tasks t = some task ∧ expects x task := by
  subst hpc
  exact h.held i t ht

theorem Owned.of_access {s s' : State n V} (h : Owned s) {i : Fin n} {x : Worker V} {t : ℕ}
    {k : ScheffTask V → State n V} {e : Event n} (hpc : s.worker i = x) (ht : t ∈ hands x)
    (hs : access s i t k = some (s', e)) :
    ∃ task, s.tasks t = some task ∧ expects x task ∧ s' = k task ∧ e = .touch i t := by
  obtain ⟨task, htask, hexp⟩ := h.task_of_hands hpc ht
  rw [access, htask] at hs
  cases hs
  exact ⟨task, htask, hexp, rfl, rfl⟩

theorem Owned.of_accessFrame {s s' : State n V} (h : Owned s) {i : Fin n} {x : Worker V} {t : ℕ}
    {k : ScheffTask V → State n V} {e : Event n} (hpc : s.worker i = x) (ht : t ∈ hands x)
    (hx : ∀ task, expects x task → ready task) (hs : accessFrame s i t k = some (s', e)) :
    ∃ task, s.tasks t = some task ∧ ready task ∧ s' = k task ∧ e = .touch i t := by
  obtain ⟨task, htask, hexp, rfl, rfl⟩ := h.of_access hpc ht hs
  exact ⟨task, htask, hx task hexp, if_pos (hx task hexp).2, rfl⟩

theorem tryTask_move {s s' : State n V} {i j : Fin n} {r : SlotQueue ℕ × Option ℕ}
    {x y : Worker V} {e : Event n} (hpc : s.worker i = y) (hy : hands y = 0) (hx : hands x = 0)
    (hr : contents r.1 + r.2.toList = contents (s.queue j))
    (hexp : ∀ task, expects y task → ready task) (hexp' : ∀ task, ready task → expects x task)
    (hahead : ahead y = 0) (hahead' : ahead x = 0) (hbusy : busy x = true)
    (hs : tryTask s i j r x = some (s', e)) : Move s i s' e := by
  cases hres : r.2 with
  | none =>
    simp only [tryTask, hres] at hs
    cases hs
    refine .queue j r.1 hpc .silent ?_ hexp hexp' (hahead'.trans hahead.symm) hbusy
    rw [hx, hy, ← hr, hres, Option.toList_none, Multiset.coe_nil, add_zero, add_zero]
  | some t =>
    simp only [tryTask, hres] at hs
    cases hs
    refine .queue j r.1 hpc .silent ?_ hexp (fun _ h => h) hahead.symm rfl
    rw [hy, ← hr, hres, add_zero]
    rfl

section Steps

variable [NeZero n]

theorem workerStep_move {s s' : State n V} (h : Owned s) {i : Fin n} {e : Event n}
    (hs : workerStep s i = some (s', e)) : Move s i s' e := by
  cases hpc : s.worker i with
  | unstarted =>
    simp only [workerStep, hpc] at hs
    split at hs
    · cases hs
      exact .walk hpc .silent rfl (fun _ h => h) rfl rfl
    · cases hs
  | pop =>
    simp only [workerStep, hpc] at hs
    exact tryTask_move (x := .steal 1) hpc rfl rfl (contents_pop _) (fun _ h => h) (fun _ h => h)
      rfl rfl rfl hs
  | steal k =>
    simp only [workerStep, hpc] at hs
    split at hs
    · exact tryTask_move (x := .steal (k + 1)) hpc rfl rfl (contents_steal _) (fun _ h => h)
        (fun _ h => h) rfl rfl rfl hs
    · cases hs
      exact .walk hpc .silent rfl (fun _ h => h) rfl rfl
  | loadRemaining =>
    simp only [workerStep, hpc] at hs
    split at hs
    · rename_i hzero
      cases hs
      exact .exit hpc hzero
    · cases hs
      exact .walk hpc .silent rfl (fun _ h => h) rfl rfl
  | checkState t =>
    have ht : t ∈ hands (.checkState t : Worker V) := Multiset.mem_singleton_self t
    simp only [workerStep, hpc] at hs
    obtain ⟨task, -, hready, rfl, rfl⟩ := h.of_access hpc ht hs
    rw [if_neg (not_not_intro hready.1)]
    exact .walk hpc (.touch t ht) rfl (fun _ h => h) rfl rfl
  | checkPoll t =>
    have ht : t ∈ hands (.checkPoll t : Worker V) := Multiset.mem_singleton_self t
    simp only [workerStep, hpc] at hs
    obtain ⟨task, -, -, rfl, rfl⟩ := h.of_access hpc ht hs
    split
    · exact .walk hpc (.touch t ht) rfl (fun _ h => h) rfl rfl
    · exact .walk hpc (.touch t ht) rfl (fun _ h => h) rfl rfl
  | clearPoll t =>
    have ht : t ∈ hands (.clearPoll t : Worker V) := Multiset.mem_singleton_self t
    simp only [workerStep, hpc] at hs
    obtain ⟨task, htask, hready, rfl, rfl⟩ := h.of_access hpc ht hs
    exact .write _ hpc htask rfl rfl hready hready.2 hready.2 rfl rfl
  | resume t =>
    have ht : t ∈ hands (.resume t : Worker V) := Multiset.mem_singleton_self t
    simp only [workerStep, hpc] at hs
    obtain ⟨task, -, -, rfl, rfl⟩ := h.of_accessFrame hpc ht (fun _ h => h) hs
    exact .walk hpc (.touch t ht) rfl (fun _ h => h) rfl rfl
  | caseSwitch t request =>
    cases request with
    | ret result =>
      simp only [workerStep, hpc] at hs
      cases hs
      exact .walk hpc .silent rfl (fun _ h => h) rfl rfl
    | fork | poll | sleep | wake =>
      have ht : t ∈ hands (s.worker i) := by simp [hpc, hands]
      simp only [workerStep, hpc] at hs
      obtain ⟨task, -, -, rfl, rfl⟩ := h.of_accessFrame hpc (hpc ▸ ht) (fun _ h => h) hs
      exact .walk hpc (.touch t (hpc ▸ ht)) rfl (fun _ h => h) rfl rfl
  | forkAdd t fn arg =>
    simp only [workerStep, hpc] at hs
    cases hs
    exact .forkAdd t fn arg hpc
  | forkMalloc t fn arg =>
    simp only [workerStep, hpc] at hs
    cases hs
    exact .forkMalloc t fn arg hpc
  | forkEnqueue t new_task =>
    simp only [workerStep, hpc, pushTask] at hs
    cases hs
    refine .queue i _ hpc .silent ?_ (fun _ h => h) (fun _ h => h) rfl rfl
    rw [contents_push, add_assoc]
    rfl
  | forkPriority new_task =>
    simp only [workerStep, hpc, pushPriority] at hs
    cases hs
    refine .queue i _ hpc .silent ?_ (fun _ h => h) (fun _ h => h) rfl rfl
    rw [contents_priorityPush]
    exact add_zero _
  | setPoll t poll_condition poll_arg =>
    have ht : t ∈ hands (.setPoll t poll_condition poll_arg : Worker V) :=
      Multiset.mem_singleton_self t
    simp only [workerStep, hpc] at hs
    obtain ⟨task, htask, hready, rfl, rfl⟩ := h.of_access hpc ht hs
    exact .write _ hpc htask rfl rfl hready hready.2 hready.2 rfl rfl
  | wake t wakers resume =>
    cases wakers with
    | nil =>
      simp only [workerStep, hpc] at hs
      cases hs
      cases resume
      · exact .walk hpc .silent rfl (fun _ h => h.2) rfl rfl
      · exact .walk hpc .silent rfl (fun _ h => h) rfl rfl
    | cons waker wakers =>
      have ht : t ∈ hands (.wake t (waker :: wakers) resume : Worker V) :=
        Multiset.mem_cons_self t (waker :: wakers : List ℕ)
      simp only [workerStep, hpc] at hs
      obtain ⟨task, -, -, rfl, rfl⟩ := h.of_accessFrame hpc ht (fun _ h => h) hs
      refine .queue i _ hpc (.touch t ht) ?_ (fun _ h => h) (fun _ h => h) rfl rfl
      rw [contents_priorityPush, add_assoc, hands, hands, Multiset.singleton_add,
        Multiset.cons_swap, Multiset.cons_coe]
  | enqueue t =>
    simp only [workerStep, hpc, pushTask] at hs
    cases hs
    refine .queue i _ hpc .silent ?_ (fun _ h => h) (fun _ h => h) rfl rfl
    rw [contents_push]
    exact add_zero _
  | release t =>
    obtain ⟨task, htask, hframe⟩ := h.task_of_hands hpc (Multiset.mem_singleton_self t)
    simp only [workerStep, hpc, htask, show task.coroutine.frame = true from hframe, if_true] at hs
    cases hs
    exact .release _ hpc htask hframe rfl
  | free t =>
    simp only [workerStep, hpc] at hs
    obtain ⟨task, htask, hframe, rfl, rfl⟩ :=
      h.of_access hpc (Multiset.mem_singleton_self t) hs
    exact .free hpc htask hframe
  | fetchSub =>
    simp only [workerStep, hpc] at hs
    cases hs
    exact .fetchSub hpc
  | pollCondition t poll_condition poll_arg | running t | mustSleep t must_sleep arg published
  | exited | fatal | fault => simp [workerStep, hpc] at hs

omit [NeZero n] in
theorem requestStep_move {s s' : State n V} (h : Owned s) {i : Fin n} {t : ℕ}
    {request : Request V} {e : Event n} (hpc : s.worker i = .running t)
    (hm : may s (.request i request)) (hs : requestStep s i t request = some (s', e)) :
    Move s i s' e := by
  have ht : t ∈ hands (.running t : Worker V) := Multiset.mem_singleton_self t
  cases request with
  | ret result =>
    obtain ⟨task, htask, hready, rfl, rfl⟩ := h.of_accessFrame hpc ht (fun _ h => h) hs
    exact .write _ hpc htask rfl rfl hready.2 hready.2 hready.2 rfl rfl
  | wake wakers resume =>
    obtain ⟨task, -, -, rfl, rfl⟩ := h.of_accessFrame hpc ht (fun _ h => h) hs
    refine .wakers _ hpc (.touch t ht) ?_ (fun _ h => h) (fun _ h => h) rfl rfl
    rw [hands, hands, ← Multiset.singleton_add, add_assoc, add_tsub_cancel_of_le hm]
  | fork fn arg | poll poll_condition poll_arg | sleep must_sleep arg =>
    obtain ⟨task, -, -, rfl, rfl⟩ := h.of_accessFrame hpc ht (fun _ h => h) hs
    exact .walk hpc (.touch t ht) rfl (fun _ h => h) rfl rfl

def afterWork : Main → Bool
  | .join _ | .returned => true
  | _ => false

theorem mainStep_cases {s s' : State n V} {e : Event n} (hs : mainStep s = some (s', e)) :
    ∃ main, s' = { s with main := main } ∧ e = .silent ∧
      (afterWork main = true → afterWork s.main = true ∨ s.worker 0 = .exited) := by
  cases hmain : s.main with
  | create k =>
    simp only [mainStep, hmain] at hs
    cases hs
    refine ⟨_, rfl, rfl, fun h => ?_⟩
    split at h <;> cases h
  | work =>
    simp only [mainStep, hmain] at hs
    split at hs
    · rename_i hpc
      cases hs
      exact ⟨_, rfl, rfl, fun _ => .inr hpc⟩
    · cases hs
  | join k =>
    simp only [mainStep, hmain] at hs
    split at hs
    · split at hs
      · cases hs
        exact ⟨_, rfl, rfl, fun _ => .inl rfl⟩
      · cases hs
    · cases hs
      exact ⟨_, rfl, rfl, fun _ => .inl rfl⟩
  | returned => simp [mainStep, hmain] at hs

theorem step_move {s s' : State n V} (h : Owned s) {a : Action n V} {e : Event n} (hm : may s a)
    (hs : step s a = some (s', e)) :
    (∃ i, s.worker i ≠ .exited ∧ Move s i s' e) ∨
    ∃ main, s' = { s with main := main } ∧ e = .silent ∧
      (afterWork main = true → afterWork s.main = true ∨ s.worker 0 = .exited) := by
  cases a with
  | main => exact .inr (mainStep_cases hs)
  | worker i =>
    refine .inl ⟨i, fun hpc => ?_, workerStep_move h hs⟩
    simp [step, workerStep, hpc] at hs
  | request i request =>
    simp only [step] at hs
    split at hs
    · rename_i t hpc
      exact .inl ⟨i, by simp [hpc], requestStep_move h hpc hm hs⟩
    · cases hs
  | condition i result =>
    simp only [step] at hs
    split at hs
    · rename_i t _ _ hpc
      cases hs
      cases result
      · exact .inl ⟨i, by simp [hpc], .walk hpc .silent rfl (fun _ h => h) rfl rfl⟩
      · exact .inl ⟨i, by simp [hpc], .walk hpc .silent rfl (fun _ h => h) rfl rfl⟩
    · cases hs
  | publish i =>
    simp only [step] at hs
    split at hs
    · rename_i t must_sleep arg published hpc
      obtain rfl : published = false := by simpa only [may, hpc, Scheduler.published] using hm
      cases hs
      refine .inl ⟨i, by simp [hpc], .wakers _ hpc .silent ?_ (fun _ h => h) (fun _ h => h) rfl rfl⟩
      rw [hands, hands, zero_add, Multiset.singleton_add]
    · cases hs
  | answer i result =>
    simp only [step] at hs
    split at hs
    · rename_i t must_sleep arg published hpc
      obtain rfl : result = published := by simpa only [may, hpc, Scheduler.published] using hm
      cases hs
      cases result
      · exact .inl ⟨i, by simp [hpc], .walk hpc .silent rfl (fun _ h => h) rfl rfl⟩
      · exact .inl ⟨i, by simp [hpc], .walk hpc .silent rfl (fun _ h => h) rfl rfl⟩
    · cases hs

end Steps

end Libseff.SchedulerMoves
