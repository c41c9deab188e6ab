import Libseff.LockedSchedulerCalls
import Libseff.SchedulerTermination

namespace Libseff.LockedSchedulerRuns

open TransitionRuns AtomicObjects SlotQueues Scheduler SchedulerPlaces SchedulerMoves
  SchedulerOwner SchedulerRuns SchedulerCounter TaskLives LockedQueueSections LockedQueueSim
  LockedQueueLinear LockedQueueCalls LockedScheduler LockedSchedulerFrames LockedSchedulerSim
  LockedSchedulerCalls

variable {n : ℕ} {V : Type} [NeZero n]

variable {s s' : TlState n V} {t : State n V}

theorem queueCall_none {a : Action n V} {i : Fin n} {r : State n V × Event n}
    (ha : actor a = some i) (hcalls : callsQueue s a = false)
    (hs : step (plain s) a = some r) : queueCall i (s.worker i) = none := by
  have hworker : (plain s).worker = s.worker := rfl
  cases a with
  | main => cases ha
  | worker j =>
    cases ha
    simpa only [callsQueue, Option.isSome_eq_false_iff, Option.isNone_iff_eq_none] using hcalls
  | request j request | condition j result | publish j | answer j result =>
    cases ha
    simp only [step, hworker] at hs
    split at hs
    · rename_i hpc
      rw [hpc]
      rfl
    · cases hs

theorem phases_of_none (h : Refines s t) {i : Fin n} (hcall : queueCall i (s.worker i) = none)
    (c : Option (Fin n)) : phase s i c = .idle := by
  refine h.idle i c fun op he => ?_
  rw [hcall] at he
  cases he

theorem step_refines (h : Refines s t) {a : Action n V} (hcalls : callsQueue s a = false)
    (hm : may (plain s) a) {u : State n V} {e : Event n} (hs : step (plain s) a = some (u, e)) :
    may t a ∧ label t a = label (plain s) a ∧
      ∃ t', step t a = some (t', e) ∧ Refines (withQueues u s.queue) t' := by
  have heq := h.eq
  rw [shown] at heq
  cases ha : actor a with
  | none =>
    cases a with
    | main =>
      have hexit : ∀ j, (plain s).worker j = .exited → workerAt s j = .exited := by
        intro j hj
        have hj : s.worker j = .exited := hj
        rw [workerAt_of_none (by rw [hj]; rfl), hj]
      obtain ⟨main, rfl, hstep⟩ := mainStep_frames t.queue hexit hs
      refine ⟨trivial, rfl, { t with main := main }, ?_, refines_main h main⟩
      conv_lhs => rw [heq]
      conv_rhs => rw [heq]
      exact hstep
    | worker | request | condition | publish | answer => cases ha
  | some i =>
    have hnone := queueCall_none ha hcalls hs
    have hw : workerAt s i = (plain s).worker i := workerAt_of_none hnone
    obtain ⟨t', hstep, hframes⟩ := step_frames t.queue ha hnone hw u e hs
    refine ⟨?_, ?_, t', ?_, ?_⟩
    · rw [heq]
      exact may_frames ha hw hm
    · rw [heq]
      exact label_frames ha hw
    · conv_lhs => rw [heq]
      exact hstep
    · rw [hframes.eq]
      exact refines_alone h (phases_of_none h hnone) hframes.others

theorem queueStep_answered (h : Refines s t) (ho : Owned t) {i : Fin n} {new_array : ℕ}
    {junk : ℤ → Option ℕ} (hm : tlMay s (.queue i new_array junk))
    (hs : queueStep s i new_array junk = some s') : CallAnswered s' t := by
  rw [queueStep] at hs
  cases hcall : queueCall i (s.worker i) with
  | none =>
    rw [hcall] at hs
    cases hs
  | some p =>
    obtain ⟨c, op⟩ := p
    simp only [tlMay, hcall] at hm
    simp only [hcall] at hs
    split at hs
    · rename_i hidle
      have hidle : phase s i c = .idle := idleAt_iff.mp hidle
      have hreadable : readable s (s.worker i) = true := by
        have hworker : t.worker i = s.worker i := by
          rw [worker_eq h hcall, hidle]
          rfl
        cases hpc : s.worker i with
        | wake u wakers resume =>
          cases wakers with
          | nil => rfl
          | cons waker wakers =>
            obtain ⟨task, htask, hready⟩ := ho.task_of_hands (hworker.trans hpc)
              (Multiset.mem_cons_self u (waker :: wakers : List ℕ))
            have htask : s.tasks u = some task := by
              rw [h.eq] at htask
              exact htask
            simp only [readable, htask]
            exact hready.2
        | _ => rfl
      rw [if_pos hreadable] at hs
      obtain ⟨⟨q, e⟩, hq, rfl⟩ := Option.map_eq_some_iff.mp hs
      exact callAnswered_refl (begin_answered h hcall hidle hq)
    · rename_i hbusy
      obtain ⟨⟨q, e⟩, hq, rfl⟩ := Option.map_eq_some_iff.mp hs
      exact run_answered h ho hcall (fun hidle => hbusy (idleAt_iff.mpr hidle)) hm hq

omit [NeZero n] in
theorem sim_of_rel {q : LockedQueue.TlQueue ℕ} {a : SlotQueue ℕ} (h : Rel false q a) :
    Sim (⟨q, .idle, fun _ => .idle⟩ : LockedQueue.State (Fin n) ℕ) a fun _ => .idle where
  holds := h.holds
  slot := h.slot.symm
  owner := trivial
  thief := fun _ => trivial
  phase_owner := rfl
  phase_thief := fun _ => rfl
  owner_locked := nofun
  thief_locked := fun _ hi => by cases hi

def Rested (q : LockedQueue.State (Fin n) ℕ) (a : SlotQueue ℕ) : Prop :=
  q.owner = .idle ∧ (∀ i, q.thief i = .idle) ∧ Rel false q.queue a ∧
    ∃ hist : List (HistoryEvent (Option (Fin n)) (Op ℕ) (Option ℕ)),
      Linearized (slotQueue ℕ) hist a fun _ => .idle

omit [NeZero n] in
theorem rested_push {q : LockedQueue.State (Fin n) ℕ} {a : SlotQueue ℕ} (h : Rested q a) (u : ℕ)
    {malloc : Malloc ℕ} {junk : ℤ → Option ℕ} {q' : LockedQueue.TlQueue ℕ} {r : Option ℕ}
    (hcall : tlCall (.push u, malloc, junk) q.queue q' r) :
    Rested { q with queue := q' } (push u a) := by
  obtain ⟨howner, hthief, hrel, hist, hl⟩ := h
  obtain ⟨q'', hcall', hrel'⟩ := tlCall_returns q.queue a (.push u, malloc, junk) hrel
  obtain ⟨rfl, -⟩ := tlCall_unique _ _ _ _ _ _ hcall hcall'
  refine ⟨howner, hthief, hrel', hist ++ [.call none (.push u)] ++ [.ret none none], ?_⟩
  have hpoint := Linearized.point_ret (Linearized.call (i := none) (.push u) hl rfl)
    (Function.update_self ..)
  rw [Function.update_idem, Function.update_eq_self_iff.mpr rfl] at hpoint
  exact hpoint

theorem scheduled_rested {log_size : ℕ} (h : LockedScheduler.Scheduled log_size s) :
    ∃ t, (scheffSystem n V).init t ∧ t = withOthers (plain s) t.queue s.worker ∧
      ∀ j, Rested (s.queue j) (t.queue j) := by
  induction h with
  | init array junk =>
    refine ⟨scheffInit n V, ⟨[], rfl⟩, rfl, fun j => ?_⟩
    exact ⟨rfl, fun _ => rfl, rel_init log_size (array j) (junk j), [], .start⟩
  | @schedule s h fn arg malloc junk q r hcall ih =>
    obtain ⟨t, ⟨tasks, htasks⟩, heq, hrested⟩ := ih
    refine ⟨scheffSchedule t fn arg, ⟨tasks ++ [(fn, arg)], ?_⟩, ?_, fun j => ?_⟩
    · rw [List.foldl_append, ← htasks]
      rfl
    · simp only [scheffSchedule, setQueue, newTask]
      rw [heq]
      rfl
    · have hcreated : t.created = s.created := by rw [heq]; rfl
      by_cases hj : j = 0
      · subst hj
        simp only [scheffSchedule, setQueue, newTask, Function.update_self, hcreated]
        exact rested_push (hrested 0) s.created hcall
      · simp only [scheffSchedule, setQueue, newTask, Function.update_of_ne hj]
        exact hrested j

theorem scheduled_refines {log_size : ℕ} (h : LockedScheduler.Scheduled log_size s) :
    ∃ t, (lifeSystem n V).init t ∧ Refines s t := by
  obtain ⟨t, hinit, heq, hrested⟩ := scheduled_rested h
  have hphase : ∀ j, phaseAt (s.queue j) = fun _ => .idle := by
    intro j
    obtain ⟨howner, hthief, -⟩ := hrested j
    funext c
    cases c with
    | none => rw [phaseAt, howner, ownerPhase]
    | some i => rw [phaseAt, hthief i, thiefPhase]
  have hidle : ∀ i c, phase s i c = .idle := fun i c => congrFun (hphase _) _
  refine ⟨t, hinit, ?_, fun j => ?_, fun i c _ => hidle i c, fun i c op o _ hp => ?_⟩
  · have hworker : workerAt s = s.worker := funext fun i => workerAt_of_idle (hidle i)
    rw [shown, hworker]
    exact heq
  · obtain ⟨howner, hthief, hrel, hist, hl⟩ := hrested j
    rw [hphase]
    refine ⟨hist, ?_, hl⟩
    have hsim := sim_of_rel (n := n) hrel
    have hq : s.queue j = ⟨(s.queue j).queue, .idle, fun _ => .idle⟩ := by
      rw [← howner, ← (funext hthief : (s.queue j).thief = fun _ => .idle)]
    rw [hq]
    exact hsim
  · rw [hidle] at hp
    cases hp

/-- Every run answers to a run of the scheduler whose calls of its queues are
single steps. -/
theorem run_refines {log_size : ℕ} {tr : List (Option (ℕ × TaskEvent V))}
    (h : Run (tlScheffSystem n V log_size) tr s) :
    ∃ tr' t, Run (lifeSystem n V) tr' t ∧ Refines s t ∧
      tr'.flatMap visible = tr.flatMap visible := by
  refine Run.simulate Refines visible visible (fun _ => scheduled_refines) ?_ h
  intro s x s' e t tr hR hrun hm hs
  obtain ⟨tr', hrun'⟩ := Run.of_relabel hrun
  have ho := run_owned hrun'
  cases x with
  | plain a =>
    have hs : tlStep s (.plain a) = some (s', e) := hs
    rw [tlStep] at hs
    split at hs
    · cases hs
    · rename_i hcalls
      obtain ⟨⟨u, e'⟩, hstep, he⟩ := Option.map_eq_some_iff.mp hs
      cases he
      obtain ⟨hmay, hlabel, t', hstep', hR'⟩ :=
        step_refines hR (Bool.eq_false_iff.mpr hcalls) hm hstep
      refine ⟨[label t a], t', .single (a := a) hmay (life_step hstep'), hR', ?_⟩
      rw [List.flatMap_singleton, hlabel]
  | queue i new_array junk =>
    obtain ⟨u, hstep, he⟩ := Option.map_eq_some_iff.mp hs
    cases he
    exact queueStep_answered hR ho hm hstep

omit [NeZero n] in
theorem idleAt_none {q : LockedQueue.State (Fin n) ℕ} : idleAt q none = true ↔ q.owner = .idle := by
  cases hpc : q.owner <;> simp [idleAt, hpc]

omit [NeZero n] in
theorem idleAt_some {q : LockedQueue.State (Fin n) ℕ} {i : Fin n} :
    idleAt q (some i) = true ↔ q.thief i = .idle := by
  cases hpc : q.thief i <;> simp [idleAt, hpc]

omit [NeZero n] in
theorem callAction_isSome {q : LockedQueue.State (Fin n) ℕ} {i : Fin n} {op : Op ℕ}
    (h : idleAt q (LockedQueueMoves.threadOf (callAction i op)) = true) :
    (LockedQueue.step q (callAction i op)).isSome = true := by
  cases op with
  | push elt | priorityPush elt | pop =>
    have howner : q.owner = .idle := idleAt_none.mp h
    simp only [callAction, LockedQueue.step, howner, Option.isSome_some]
  | steal =>
    have hthief : q.thief i = .idle := idleAt_some.mp h
    simp only [callAction, LockedQueue.step, hthief, Option.isSome_some]

omit [NeZero n] in
theorem runAction_isSome {q : LockedQueue.State (Fin n) ℕ} {a : SlotQueue ℕ}
    {p : Option (Fin n) → Phase (Op ℕ) (Option ℕ)} (hsim : Sim q a p) {i : Fin n} {op : Op ℕ}
    {new_array : ℕ} {junk : ℤ → Option ℕ}
    (h : idleAt q (LockedQueueMoves.threadOf (runAction i new_array junk op)) ≠ true) :
    (LockedQueue.step q (runAction i new_array junk op)).isSome = true := by
  rw [Option.isSome_iff_exists]
  cases op with
  | push elt | priorityPush elt | pop =>
    exact owner_progress hsim (fun howner => h (idleAt_none.mpr howner)) new_array junk
  | steal => exact thief_progress hsim fun hthief => h (idleAt_some.mpr hthief)

theorem queueStep_isSome (h : Refines s t) {i : Fin n}
    (hcall : (queueCall i (s.worker i)).isSome = true) (new_array : ℕ) (junk : ℤ → Option ℕ) :
    (queueStep s i new_array junk).isSome = true := by
  obtain ⟨⟨c, op⟩, hcall⟩ := Option.isSome_iff_exists.mp hcall
  obtain ⟨hist, hsim, -⟩ := h.queue (c.getD i)
  obtain ⟨hbegin, hrun⟩ := thread_of_call hcall new_array junk
  simp only [queueStep, hcall]
  split
  · rename_i hidle
    split
    · rw [Option.isSome_map]
      exact callAction_isSome (hbegin ▸ hidle)
    · rfl
  · rename_i hbusy
    rw [Option.isSome_map]
    exact runAction_isSome hsim (hrun ▸ hbusy)

end Libseff.LockedSchedulerRuns
