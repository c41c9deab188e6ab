import Libseff.LockedSchedulerSim

namespace Libseff.LockedSchedulerCalls

open TransitionRuns AtomicObjects SlotQueues Scheduler SchedulerPlaces SchedulerMoves
  SchedulerOwner SchedulerRuns TaskLives LockedQueueSim LockedQueueLinear LockedQueueMoves
  LockedScheduler LockedSchedulerFrames LockedSchedulerSim

variable {n : ℕ} {V : Type} [NeZero n]

variable {s s' : TlState n V} {t : State n V}

def visible : Option (ℕ × TaskEvent V) → List (ℕ × TaskEvent V)
  | some (_, .woken) | none => []
  | some p => [p]

omit [NeZero n] in
theorem tryTask_eq (t : State n V) (i j : Fin n) (r : SlotQueue ℕ × Option ℕ) {x y : Worker V}
    (hx : afterCall y none = x) (hy : ∀ u, afterCall y (some u) = .checkState u) :
    tryTask t i j r x = some (setWorker (setQueue t j r.1) i (afterCall y r.2), .silent) := by
  obtain ⟨q, r⟩ := r
  cases r with
  | none => rw [hx]; rfl
  | some u => rw [hy]; rfl

theorem workerStep_call (ho : Owned t) {i : Fin n} {c : Option (Fin n)} {op : Op ℕ}
    (hcall : queueCall i (t.worker i) = some (c, op)) :
    (∃ e, workerStep t i = some (setWorker
      (setQueue t (c.getD i) ((slotQueue ℕ).apply op (t.queue (c.getD i))).1) i
      (afterCall (t.worker i) ((slotQueue ℕ).apply op (t.queue (c.getD i))).2), e)) ∧
    visible (label t (.worker i)) = [] := by
  cases hpc : t.worker i with
  | pop =>
    rw [hpc] at hcall
    cases hcall
    refine ⟨⟨.silent, ?_⟩, by simp only [label, hpc, visible]⟩
    simp only [workerStep, hpc]
    exact tryTask_eq t i i _ (y := .pop) rfl fun _ => rfl
  | steal k =>
    rw [hpc, queueCall] at hcall
    split at hcall
    · rename_i hk
      cases hcall
      refine ⟨⟨.silent, ?_⟩, by simp only [label, hpc, visible]⟩
      simp only [workerStep, hpc, if_pos hk]
      exact tryTask_eq t i (Fin.ofNat n (i + k)) _ (y := .steal k) rfl fun _ => rfl
    · cases hcall
  | forkEnqueue u new_task =>
    rw [hpc] at hcall
    cases hcall
    exact ⟨⟨.silent, by simp only [workerStep, hpc]; rfl⟩, by simp only [label, hpc, visible]⟩
  | forkPriority new_task =>
    rw [hpc] at hcall
    cases hcall
    exact ⟨⟨.silent, by simp only [workerStep, hpc]; rfl⟩, by simp only [label, hpc, visible]⟩
  | enqueue u =>
    rw [hpc] at hcall
    cases hcall
    exact ⟨⟨.silent, by simp only [workerStep, hpc]; rfl⟩, by simp only [label, hpc, visible]⟩
  | wake u wakers resume =>
    rw [hpc] at hcall
    cases wakers with
    | nil => cases hcall
    | cons waker wakers =>
      cases hcall
      obtain ⟨task, htask, hready⟩ := ho.task_of_hands hpc
        (Multiset.mem_cons_self u (waker :: wakers : List ℕ))
      refine ⟨⟨.touch i u, ?_⟩, by simp only [label, hpc, visible]⟩
      simp only [workerStep, hpc, accessFrame, access, htask]
      rw [if_pos (show task.coroutine.frame = true from hready.2)]
      rfl
  | _ =>
    rw [hpc] at hcall
    cases hcall

theorem thread_of_call {i : Fin n} {x : Worker V} {c : Option (Fin n)} {op : Op ℕ}
    (hcall : queueCall i x = some (c, op)) (new_array : ℕ) (junk : ℤ → Option ℕ) :
    threadOf (callAction i op) = c.map (fun _ => i) ∧
      threadOf (runAction i new_array junk op) = c.map fun _ => i := by
  cases x with
  | steal k =>
    rw [queueCall] at hcall
    split at hcall
    · cases hcall
      exact ⟨rfl, rfl⟩
    · cases hcall
  | wake u wakers resume =>
    cases wakers with
    | nil => cases hcall
    | cons waker wakers =>
      cases hcall
      exact ⟨rfl, rfl⟩
  | pop | forkEnqueue | forkPriority | enqueue =>
    cases hcall
    exact ⟨rfl, rfl⟩
  | _ => cases hcall

omit [NeZero n] in
theorem callAction_event {q q' : LockedQueue.State (Fin n) ℕ} {i : Fin n} {op : Op ℕ}
    {e : LockedQueue.Event (Fin n) ℕ}
    (hs : LockedQueue.step q (callAction i op) = some (q', e)) :
    e = some (.call (threadOf (callAction i op)) op) := by
  cases op with
  | push | priorityPush | pop | steal =>
    simp only [callAction, LockedQueue.step] at hs
    split at hs
    · cases hs
      rfl
    · cases hs

omit [NeZero n] in
theorem setWorker_self {t : State n V} {i : Fin n} {x : Worker V} (h : t.worker i = x)
    {j : Fin n} {a : SlotQueue ℕ} (ha : a = t.queue j) :
    setWorker (setQueue t j a) i x = t := by
  subst h ha
  simp only [setWorker, setQueue, Function.update_eq_self]

theorem life_step {t t' : State n V} {a : Action n V} {e : Event n}
    (h : step t a = some (t', e)) : (lifeSystem n V).step t a = some (t', label t a) := by
  simp only [lifeSystem, System.relabel, scheffSystem, h, Option.map_some]

def CallAnswered (s' : TlState n V) (t : State n V) : Prop :=
  ∃ tr t', Path (lifeSystem n V) t tr t' ∧ Refines s' t' ∧ tr.flatMap visible = []

theorem callAnswered_refl (h : Refines s' t) : CallAnswered s' t := ⟨[], t, .refl, h, rfl⟩

theorem callAnswered_point (ho : Owned t) {i : Fin n} {c : Option (Fin n)} {op : Op ℕ}
    (hcall : queueCall i (t.worker i) = some (c, op))
    (h : Refines s' (setWorker
      (setQueue t (c.getD i) ((slotQueue ℕ).apply op (t.queue (c.getD i))).1) i
      (afterCall (t.worker i) ((slotQueue ℕ).apply op (t.queue (c.getD i))).2))) :
    CallAnswered s' t := by
  obtain ⟨⟨e, hstep⟩, hvisible⟩ := workerStep_call ho hcall
  have hm : (lifeSystem n V).may t (.worker i) := trivial
  refine ⟨[label t (.worker i)], _, .single hm (life_step hstep), h, ?_⟩
  rw [List.flatMap_singleton, hvisible]

theorem worker_eq (h : Refines s t) {i : Fin n} {c : Option (Fin n)} {op : Op ℕ}
    (hcall : queueCall i (s.worker i) = some (c, op)) :
    t.worker i = shownAt (s.worker i) (phase s i c) := by
  rw [h.eq]
  exact workerAt_of_some hcall

theorem phases_idle (h : Refines s t) {i : Fin n} {c : Option (Fin n)} {op : Op ℕ}
    (hcall : queueCall i (s.worker i) = some (c, op)) {q : LockedQueue.State (Fin n) ℕ}
    (hp : phaseAt q = Function.update (phaseAt (s.queue (c.getD i))) (c.map fun _ => i) .idle)
    (c' : Option (Fin n)) : phase (setTlQueue s (c.getD i) q) i c' = .idle := by
  by_cases hc : c' = c
  · subst hc
    exact phase_self hp
  · rw [phase_other hp fun he => hc he.2]
    exact h.idle i c' fun op' he =>
      hc (Prod.mk.inj (Option.some.inj (he.symm.trans hcall))).1

theorem refines_return (h : Refines s t) {i : Fin n} {c : Option (Fin n)} {op : Op ℕ}
    (hcall : queueCall i (s.worker i) = some (c, op)) {q : LockedQueue.State (Fin n) ℕ}
    {a : SlotQueue ℕ} {hist : List (HistoryEvent (Option (Fin n)) (Op ℕ) (Option ℕ))}
    (hsim : Sim q a (phaseAt q)) (hl : Linearized (slotQueue ℕ) hist a (phaseAt q))
    (hp : phaseAt q = Function.update (phaseAt (s.queue (c.getD i))) (c.map fun _ => i) .idle)
    (y : Worker V) :
    Refines (setTlWorker (setTlQueue s (c.getD i) q) i y)
      (setWorker (setQueue t (c.getD i) a) i y) := by
  have hcallee := refines_call h hcall hsim hl hp fun _ ho' => by cases ho'
  have hnext := refines_worker hcallee (phases_idle h hcall hp) y
  simpa only [setWorker, Function.update_idem] using hnext

theorem begin_answered (h : Refines s t) {i : Fin n} {c : Option (Fin n)} {op : Op ℕ}
    (hcall : queueCall i (s.worker i) = some (c, op))
    (hidle : phase s i c = .idle) {q : LockedQueue.State (Fin n) ℕ}
    {e : LockedQueue.Event (Fin n) ℕ}
    (hq : LockedQueue.step (s.queue (c.getD i)) (callAction i op) = some (q, e)) :
    Refines (setTlQueue s (c.getD i) q) t := by
  obtain ⟨hist, hsim, hl⟩ := h.queue (c.getD i)
  have hm : LockedQueue.mayRun (s.queue (c.getD i)) (callAction i op) := by cases op <;> trivial
  obtain ⟨a, p, hsim', hl', hmove⟩ := step_moves hsim hl hm hq
  obtain rfl := phase_eq hsim'
  obtain rfl := callAction_event hq
  rw [(thread_of_call hcall 0 fun _ => none).1] at hmove
  generalize hp : phaseAt q = p at hmove
  cases hmove with
  | call o hidle' =>
    have hworker : t.worker i = shownAt (s.worker i) (.pending op) := by
      rw [worker_eq h hcall, hidle]
      rfl
    have hnext := refines_call h hcall hsim' hl' hp fun o' ho' => (Phase.pending.inj ho').symm
    rwa [setWorker_self hworker rfl] at hnext

theorem run_answered (h : Refines s t) (ho : Owned t) {i : Fin n} {c : Option (Fin n)} {op : Op ℕ}
    (hcall : queueCall i (s.worker i) = some (c, op)) (hbusy : phase s i c ≠ .idle)
    {new_array : ℕ} {junk : ℤ → Option ℕ} {q : LockedQueue.State (Fin n) ℕ}
    {e : LockedQueue.Event (Fin n) ℕ}
    (hm : LockedQueue.mayRun (s.queue (c.getD i)) (runAction i new_array junk op))
    (hq : LockedQueue.step (s.queue (c.getD i)) (runAction i new_array junk op) = some (q, e)) :
    CallAnswered (afterStep s i (c.getD i) q e) t := by
  obtain ⟨hist, hsim, hl⟩ := h.queue (c.getD i)
  obtain ⟨a, p, hsim', hl', hmove⟩ := step_moves hsim hl hm hq
  obtain rfl := phase_eq hsim'
  rw [(thread_of_call hcall new_array junk).2] at hmove
  have hworker := worker_eq h hcall
  generalize hp : phaseAt q = p at hmove
  cases hmove with
  | silent =>
    have hp' : phaseAt q = Function.update (phaseAt (s.queue (c.getD i))) (c.map fun _ => i)
        (phase s i c) := by
      rw [hp, phase, Function.update_eq_self]
    have hnext := refines_call h hcall hsim' hl' hp' fun o ho' => h.pending i c op o hcall ho'
    rw [setWorker_self hworker rfl] at hnext
    exact callAnswered_refl hnext
  | call o hidle => exact absurd hidle hbusy
  | point o hpending =>
    obtain rfl := h.pending i c op o hcall hpending
    have hpend : phase s i c = .pending o := hpending
    rw [hpend] at hworker
    have hnext := refines_call h hcall hsim' hl' hp fun _ ho' => by cases ho'
    have hcall' : queueCall i (t.worker i) = some (c, o) := by rw [hworker]; exact hcall
    refine callAnswered_point ho hcall' ?_
    rw [hworker]
    exact hnext
  | ret r hdone =>
    have hdone' : phase s i c = .done r := hdone
    rw [hdone', shownAt] at hworker
    have hnext := refines_return h hcall hsim' hl' hp (afterCall (s.worker i) r)
    rw [setWorker_self hworker rfl] at hnext
    exact callAnswered_refl hnext
  | pointRet o hpending =>
    obtain rfl := h.pending i c op o hcall hpending
    have hpend : phase s i c = .pending o := hpending
    rw [hpend] at hworker
    have hnext := refines_return h hcall hsim' hl' hp
      (afterCall (s.worker i) ((slotQueue ℕ).apply o (t.queue (c.getD i))).2)
    have hcall' : queueCall i (t.worker i) = some (c, o) := by rw [hworker]; exact hcall
    refine callAnswered_point ho hcall' ?_
    rw [hworker]
    exact hnext

end Libseff.LockedSchedulerCalls
