import Libseff.LockedScheduler

namespace Libseff.LockedSchedulerFrames

open TransitionRuns AtomicObjects SlotQueues Scheduler TaskLives LockedScheduler

variable {n : ℕ} {V : Type}

def withOthers (s : State n V) (queue : Fin n → SlotQueue ℕ) (worker : Fin n → Worker V) :
    State n V :=
  { s with queue := queue, worker := worker }

/-- The step to `u` is one of worker `i` alone: it is possible whatever the queues
and the other workers are, and leads to `u'` there. -/
structure Frames (s : State n V) (i : Fin n) (queue : Fin n → SlotQueue ℕ)
    (worker : Fin n → Worker V) (u u' : State n V) : Prop where
  others : u.worker = Function.update s.worker i (u.worker i)
  eq : u' = withOthers u queue (Function.update worker i (u.worker i))

def FramesStep (s : State n V) (i : Fin n) (queue : Fin n → SlotQueue ℕ)
    (worker : Fin n → Worker V) (r r' : Option (State n V × Event n)) : Prop :=
  ∀ u e, r = some (u, e) → ∃ u', r' = some (u', e) ∧ Frames s i queue worker u u'

variable {s : State n V} {i : Fin n} {queue : Fin n → SlotQueue ℕ} {worker : Fin n → Worker V}

theorem frames_setWorker {u : State n V} (h : u.worker = s.worker) (x : Worker V) :
    Frames s i queue worker (setWorker u i x) (setWorker (withOthers u queue worker) i x) := by
  refine ⟨?_, ?_⟩
  · simp only [setWorker, Function.update_self, h]
  · simp only [setWorker, withOthers, Function.update_self]

theorem framesStep_some {u u' : State n V} (h : Frames s i queue worker u u') (e : Event n) :
    FramesStep s i queue worker (some (u, e)) (some (u', e)) := by
  intro v f hv
  cases hv
  exact ⟨u', rfl, h⟩

theorem framesStep_access {t : ℕ} {k k' : ScheffTask V → State n V}
    (h : ∀ task, Frames s i queue worker (k task) (k' task)) :
    FramesStep s i queue worker (access s i t k) (access (withOthers s queue worker) i t k') := by
  intro u e hs
  have htask : (withOthers s queue worker).tasks t = s.tasks t := rfl
  rw [access, htask]
  rw [access] at hs
  cases hold : s.tasks t with
  | none =>
    rw [hold] at hs
    cases hs
    exact ⟨_, rfl, frames_setWorker rfl _⟩
  | some task =>
    rw [hold] at hs
    cases hs
    exact ⟨_, rfl, h task⟩

theorem framesStep_accessFrame {t : ℕ} {k k' : ScheffTask V → State n V}
    (h : ∀ task, Frames s i queue worker (k task) (k' task)) :
    FramesStep s i queue worker (accessFrame s i t k)
      (accessFrame (withOthers s queue worker) i t k') := by
  refine framesStep_access fun task => ?_
  split
  · exact h task
  · exact frames_setWorker rfl _

variable [NeZero n]

theorem workerStep_frames (hcall : queueCall i (s.worker i) = none)
    (hw : worker i = s.worker i) : FramesStep s i queue worker (workerStep s i)
      (workerStep (withOthers s queue worker) i) := by
  have hx : (withOthers s queue worker).worker i = s.worker i := hw
  cases hpc : s.worker i with
  | unstarted =>
    simp only [workerStep, hx, hpc]
    have hmain : (withOthers s queue worker).main = s.main := rfl
    rw [hmain]
    split
    · exact framesStep_some (frames_setWorker rfl _) _
    · intro u e hs
      cases hs
  | steal k =>
    have hk : ¬ k < n := by
      intro hk
      simp [queueCall, hpc, hk] at hcall
    simp only [workerStep, hx, hpc, if_neg hk]
    exact framesStep_some (frames_setWorker rfl _) _
  | loadRemaining =>
    simp only [workerStep, hx, hpc]
    have hremaining : (withOthers s queue worker).remaining_tasks = s.remaining_tasks := rfl
    rw [hremaining]
    split
    · exact framesStep_some (frames_setWorker rfl _) _
    · exact framesStep_some (frames_setWorker rfl _) _
  | checkState t =>
    simp only [workerStep, hx, hpc]
    refine framesStep_access fun task => ?_
    split
    · exact frames_setWorker rfl _
    · exact frames_setWorker rfl _
  | checkPoll t =>
    simp only [workerStep, hx, hpc]
    refine framesStep_access fun task => ?_
    split
    · exact frames_setWorker rfl _
    · exact frames_setWorker rfl _
  | clearPoll t | setPoll t poll_condition poll_arg | free t =>
    simp only [workerStep, hx, hpc]
    exact framesStep_access fun task => frames_setWorker (s := s) (u := setTask s t _) rfl _
  | resume t =>
    simp only [workerStep, hx, hpc]
    exact framesStep_accessFrame fun task => frames_setWorker rfl _
  | caseSwitch t request =>
    cases request with
    | ret result =>
      simp only [workerStep, hx, hpc]
      exact framesStep_some (frames_setWorker rfl _) _
    | fork | poll | sleep | wake =>
      simp only [workerStep, hx, hpc]
      exact framesStep_accessFrame fun task => frames_setWorker rfl _
  | forkAdd t fn arg =>
    simp only [workerStep, hx, hpc]
    exact framesStep_some
      (frames_setWorker (s := s) (u := { s with remaining_tasks := s.remaining_tasks + 1 }) rfl _) _
  | forkMalloc t fn arg =>
    simp only [workerStep, hx, hpc]
    exact framesStep_some (frames_setWorker (s := s) (u := newTask s fn arg) rfl _) _
  | wake t wakers resume =>
    cases wakers with
    | nil =>
      simp only [workerStep, hx, hpc]
      exact framesStep_some (frames_setWorker rfl _) _
    | cons waker wakers => simp [queueCall, hpc] at hcall
  | release t =>
    simp only [workerStep, hx, hpc]
    have htask : (withOthers s queue worker).tasks t = s.tasks t := rfl
    rw [htask]
    split
    · split
      · exact framesStep_some (frames_setWorker (s := s) (u := setTask s t _) rfl _) _
      · exact framesStep_some (frames_setWorker rfl _) _
    · exact framesStep_some (frames_setWorker rfl _) _
  | fetchSub =>
    simp only [workerStep, hx, hpc]
    exact framesStep_some
      (frames_setWorker (s := s) (u := { s with remaining_tasks := s.remaining_tasks - 1 }) rfl _) _
  | pop | forkEnqueue | forkPriority | enqueue => simp [queueCall, hpc] at hcall
  | pollCondition | running | mustSleep | exited | fatal | fault =>
    simp only [workerStep, hx, hpc]
    intro u e hs
    cases hs

omit [NeZero n] in
theorem requestStep_frames (t : ℕ) (request : Request V) : FramesStep s i queue worker
    (requestStep s i t request) (requestStep (withOthers s queue worker) i t request) := by
  cases request with
  | ret result =>
    exact framesStep_accessFrame fun task =>
      frames_setWorker (s := s) (u := setTask s t _) rfl _
  | wake wakers resume =>
    exact framesStep_accessFrame fun task =>
      frames_setWorker (s := s) (u := { s with wakers := s.wakers - wakers }) rfl _
  | fork fn arg | poll poll_condition poll_arg | sleep must_sleep arg =>
    exact framesStep_accessFrame fun task => frames_setWorker rfl _

def actor : Action n V → Option (Fin n)
  | .main => none
  | .worker i | .request i _ | .condition i _ | .publish i | .answer i _ => some i

variable (queue) in
theorem step_frames {a : Action n V} (ha : actor a = some i)
    (hcall : queueCall i (s.worker i) = none) (hw : worker i = s.worker i) :
    FramesStep s i queue worker (step s a) (step (withOthers s queue worker) a) := by
  have hx : (withOthers s queue worker).worker i = s.worker i := hw
  cases a with
  | main => cases ha
  | worker j =>
    cases ha
    exact workerStep_frames hcall hw
  | request j request =>
    cases ha
    simp only [step, hx]
    split
    · exact requestStep_frames _ request
    · intro u e hs
      cases hs
  | condition j result | answer j result =>
    cases ha
    simp only [step, hx]
    split
    · exact framesStep_some (frames_setWorker rfl _) _
    · intro u e hs
      cases hs
  | publish j =>
    cases ha
    simp only [step, hx]
    split
    · rename_i t must_sleep arg published hpc
      exact framesStep_some (frames_setWorker (s := s) (u := { s with wakers := t ::ₘ s.wakers })
        rfl _) _
    · intro u e hs
      cases hs

omit [NeZero n] in
theorem label_frames {a : Action n V} (ha : actor a = some i) (hw : worker i = s.worker i) :
    label (withOthers s queue worker) a = label s a := by
  have hx : (withOthers s queue worker).worker i = s.worker i := hw
  cases a with
  | main => cases ha
  | worker j =>
    cases ha
    have hcreated : (withOthers s queue worker).created = s.created := rfl
    simp only [label, hx, hcreated]
  | request j request | condition j result | publish j | answer j result =>
    cases ha
    simp only [label, hx]

omit [NeZero n] in
theorem may_frames {a : Action n V} (ha : actor a = some i) (hw : worker i = s.worker i)
    (hm : may s a) : may (withOthers s queue worker) a := by
  have hx : (withOthers s queue worker).worker i = s.worker i := hw
  cases a with
  | main => cases ha
  | worker j | condition j result => trivial
  | request j request => cases request <;> exact hm
  | publish j | answer j result =>
    cases ha
    simpa only [may, hx] using hm

variable (queue) in
theorem mainStep_frames {u : State n V} {e : Event n}
    (hw : ∀ j, s.worker j = .exited → worker j = .exited) (hs : mainStep s = some (u, e)) :
    ∃ main, u = { s with main := main } ∧ mainStep (withOthers s queue worker) =
      some (withOthers { s with main := main } queue worker, e) := by
  have hmain : (withOthers s queue worker).main = s.main := rfl
  have hworker : (withOthers s queue worker).worker = worker := rfl
  cases hpc : s.main with
  | create k =>
    simp only [mainStep, hpc] at hs
    cases hs
    exact ⟨_, rfl, by rw [mainStep, hmain, hpc]; rfl⟩
  | work =>
    simp only [mainStep, hpc] at hs
    split at hs
    · rename_i hexit
      cases hs
      exact ⟨_, rfl, by simp only [mainStep, hmain, hpc, hworker, hw 0 hexit]; rfl⟩
    · cases hs
  | join k =>
    simp only [mainStep, hpc] at hs
    split at hs
    · rename_i hk
      split at hs
      · rename_i hexit
        cases hs
        exact ⟨_, rfl, by
          simp only [mainStep, hmain, hpc, hworker, if_pos hk, hw _ hexit]; rfl⟩
      · cases hs
    · rename_i hk
      cases hs
      exact ⟨_, rfl, by simp only [mainStep, hmain, hpc, if_neg hk]; rfl⟩
  | returned =>
    simp only [mainStep, hpc] at hs
    cases hs

end Libseff.LockedSchedulerFrames
