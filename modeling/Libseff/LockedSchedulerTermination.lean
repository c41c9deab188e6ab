import Libseff.LockedQueueProgress
import Libseff.LockedSchedulerRuns

namespace Libseff.LockedSchedulerTermination

open TransitionRuns AtomicObjects SlotQueues Scheduler SchedulerPlaces SchedulerMoves
  SchedulerOwner SchedulerRuns SchedulerCounter SchedulerTermination TaskLives LockedQueueSim
  LockedQueueMoves LockedQueueProgress LockedScheduler LockedSchedulerFrames LockedSchedulerSim
  LockedSchedulerCalls LockedSchedulerRuns

variable {n : ℕ} {V : Type}

/-- Once there is no task left, a worker may still be in the call that has put the
last one back. -/
def tlStepsToExit (n : ℕ) : Worker V → ℕ
  | .enqueue _ | .forkPriority _ => n + 3
  | x => stepsToExit n x

section Steps

variable [NeZero n]

def callSteps (s : TlState n V) (i : Fin n) : ℕ :=
  match queueCall i (s.worker i) with
  | some (c, _) => ownSteps (s.queue (c.getD i)) (c.map fun _ => i)
  | none => 0

def tlStepsLeft (s : TlState n V) : ℕ :=
  ∑ i, (12 * tlStepsToExit n (s.worker i) + callSteps s i) + stepsToReturn n s.main

def waits (s : TlState n V) : TlAction n V → Bool
  | .plain _ => false
  | .queue i _ _ =>
    match queueCall i (s.worker i) with
    | some (c, _) => waitsAt (s.queue (c.getD i)) (c.map fun _ => i)
    | none => false

def CanGo (s : TlState n V) : Prop :=
  (∃ a, may (plain s) a ∧ callsQueue s a = false ∧ (step (plain s) a).isSome = true) ∨
  ∃ i, ∀ new_array junk, waits s (.queue i new_array junk) = false ∧
    (queueStep s i new_array junk).isSome = true

structure TlDrained (s : TlState n V) : Prop where
  refines : ∃ t, Refines s t ∧ Drained t
  held : ∀ j, Held (s.queue j)

variable {s s' : TlState n V} {t : State n V}

theorem callSteps_le (s : TlState n V) (i : Fin n) : callSteps s i ≤ 11 := by
  rw [callSteps]
  split
  · exact ownSteps_le _ _
  · exact Nat.zero_le 11

theorem worker_leaving (h : Refines s t) (hd : Drained t) (i : Fin n) :
    Leaving (workerAt s i) := by
  have hleaving := hd.leaving i
  rw [h.eq] at hleaving
  exact hleaving

theorem afterCall_less {i : Fin n} {x : Worker V} {c : Option (Fin n)} {op : Op ℕ}
    (hcall : queueCall i x = some (c, op)) {r : Option ℕ} (hleaving : Leaving (afterCall x r)) :
    tlStepsToExit n (afterCall x r) < tlStepsToExit n x := by
  cases x with
  | pop =>
    cases r with
    | none =>
      have hn := NeZero.pos n
      simp only [afterCall, tlStepsToExit, stepsToExit]
      omega
    | some u => exact hleaving.elim
  | steal k =>
    rw [queueCall] at hcall
    split at hcall
    · cases r with
      | none =>
        simp only [afterCall, tlStepsToExit, stepsToExit]
        omega
      | some u => exact hleaving.elim
    · cases hcall
  | enqueue u | forkPriority new_task => exact Nat.lt_succ_self (n + 2)
  | forkEnqueue u new_task => exact hleaving.elim
  | wake u wakers resume =>
    cases wakers with
    | nil => cases hcall
    | cons waker wakers => exact hleaving.elim
  | _ => cases hcall

omit [NeZero n] in
theorem sum_of_others {f g : Fin n → ℕ} {i : Fin n} {k : ℕ} (hothers : ∀ j, j ≠ i → g j = f j)
    (hi : g i + k ≤ f i) : ∑ j, g j + k ≤ ∑ j, f j := by
  have hrest : ∑ j ∈ Finset.univ.erase i, g j = ∑ j ∈ Finset.univ.erase i, f j :=
    Finset.sum_congr rfl fun j hj => hothers j (Finset.ne_of_mem_erase hj)
  have hg := Finset.add_sum_erase Finset.univ g (Finset.mem_univ i)
  have hf := Finset.add_sum_erase Finset.univ f (Finset.mem_univ i)
  omega

omit [NeZero n] in
theorem afterStep_queue (s : TlState n V) (i j : Fin n) (q : LockedQueue.State (Fin n) ℕ)
    (e : LockedQueue.Event (Fin n) ℕ) :
    (afterStep s i j q e).queue = Function.update s.queue j q := by
  unfold afterStep
  split <;> rfl

omit [NeZero n] in
theorem afterStep_quiet {i j : Fin n} {q : LockedQueue.State (Fin n) ℕ}
    {e : LockedQueue.Event (Fin n) ℕ} (he : ∀ c r, e ≠ some (.ret c r)) :
    afterStep s i j q e = setTlQueue s j q := by
  unfold afterStep
  split
  · exact absurd rfl (he _ _)
  · rfl

theorem callSteps_others {i : Fin n} {c : Option (Fin n)} {x : LockedQueue.Action (Fin n) ℕ}
    (hx : threadOf x = c.map fun _ => i) {q : LockedQueue.State (Fin n) ℕ}
    {e : LockedQueue.Event (Fin n) ℕ}
    (hq : LockedQueue.step (s.queue (c.getD i)) x = some (q, e)) {j : Fin n} (hj : j ≠ i) :
    callSteps (setTlQueue s (c.getD i) q) j = callSteps s j := by
  have hworker : (setTlQueue s (c.getD i) q).worker = s.worker := rfl
  simp only [callSteps, hworker]
  split
  · rename_i c' op' _
    by_cases heq : c'.getD j = c.getD i
    · have hthread : (c'.map fun _ => j) ≠ threadOf x := by
        rw [hx]
        exact fun hc => hj (thread_inj heq hc).1
      simp only [setTlQueue, heq, Function.update_self]
      exact ownSteps_others hq hthread
    · simp only [setTlQueue, Function.update_of_ne heq]
  · rfl

theorem call_less {i : Fin n} {c : Option (Fin n)} {op : Op ℕ}
    (hcall : queueCall i (s.worker i) = some (c, op)) {x : LockedQueue.Action (Fin n) ℕ}
    (hx : threadOf x = c.map fun _ => i) {q : LockedQueue.State (Fin n) ℕ}
    {e : LockedQueue.Event (Fin n) ℕ}
    (hq : LockedQueue.step (s.queue (c.getD i)) x = some (q, e)) {k : ℕ}
    (hle : ownSteps q (threadOf x) + k ≤ ownSteps (s.queue (c.getD i)) (threadOf x)) :
    tlStepsLeft (setTlQueue s (c.getD i) q) + k ≤ tlStepsLeft s := by
  have hself : callSteps (setTlQueue s (c.getD i) q) i + k ≤ callSteps s i := by
    have hworker : (setTlQueue s (c.getD i) q).worker = s.worker := rfl
    simp only [callSteps, hworker, hcall]
    simpa only [setTlQueue, Function.update_self, hx] using hle
  have hsum := sum_of_others (n := n) (i := i) (k := k)
    (f := fun j => 12 * tlStepsToExit n (s.worker j) + callSteps s j)
    (g := fun j => 12 * tlStepsToExit n (s.worker j) + callSteps (setTlQueue s (c.getD i) q) j)
    (fun j hj => by simp only [callSteps_others hx hq hj]) (by omega)
  simp only [tlStepsLeft] at hsum ⊢
  change (∑ j, (12 * tlStepsToExit n (s.worker j) + callSteps (setTlQueue s (c.getD i) q) j) +
    stepsToReturn n s.main) + k ≤ _
  omega

theorem worker_less {u : TlState n V} {i : Fin n} {y : Worker V}
    (hworker : u.worker = Function.update s.worker i y) (hmain : u.main = s.main)
    (hothers : ∀ j, j ≠ i → callSteps u j = callSteps s j)
    (hlt : tlStepsToExit n y < tlStepsToExit n (s.worker i)) :
    tlStepsLeft u + 1 ≤ tlStepsLeft s := by
  have hcalls := callSteps_le u i
  have hsum := sum_of_others (n := n) (i := i) (k := 1)
    (f := fun j => 12 * tlStepsToExit n (s.worker j) + callSteps s j)
    (g := fun j => 12 * tlStepsToExit n (u.worker j) + callSteps u j)
    (fun j hj => by simp only [hworker, Function.update_of_ne hj, hothers j hj])
    (by simp only [hworker, Function.update_self]; omega)
  simp only [tlStepsLeft, hmain]
  omega

theorem drained_path {tr : List (Option (ℕ × TaskEvent V))} {t' : State n V} (h : Drained t)
    (hp : Path (lifeSystem n V) t tr t') : Drained t' := by
  refine (Path.length_le Drained stepsLeft (fun t x t' e hd hm hs => ?_) h hp).1
  obtain ⟨⟨u, e'⟩, hstep, he⟩ := Option.map_eq_some_iff.mp hs
  cases he
  exact hd.step hm hstep

theorem held_queueStep (h : ∀ j, Held (s.queue j)) {i : Fin n} {new_array : ℕ}
    {junk : ℤ → Option ℕ} (hs : queueStep s i new_array junk = some s') (k : Fin n) :
    Held (s'.queue k) := by
  have hset : ∀ {j : Fin n} {q : LockedQueue.State (Fin n) ℕ} {x : LockedQueue.Action (Fin n) ℕ}
      {e : LockedQueue.Event (Fin n) ℕ}, LockedQueue.step (s.queue j) x = some (q, e) →
      Held (Function.update s.queue j q k) := by
    intro j q x e hq
    by_cases hk : k = j
    · subst hk
      rw [Function.update_self]
      exact held_step (h k) hq
    · rw [Function.update_of_ne hk]
      exact h k
  rw [queueStep] at hs
  split at hs
  · cases hs
  · simp only at hs
    split at hs
    · split at hs
      · obtain ⟨⟨q, e⟩, hq, rfl⟩ := Option.map_eq_some_iff.mp hs
        exact hset hq
      · cases hs
        exact h k
    · obtain ⟨⟨q, e⟩, hq, rfl⟩ := Option.map_eq_some_iff.mp hs
      rw [afterStep_queue]
      exact hset hq

theorem TlDrained.queue {i : Fin n} {new_array : ℕ} {junk : ℤ → Option ℕ} (h : TlDrained s)
    (hm : tlMay s (.queue i new_array junk)) (hs : queueStep s i new_array junk = some s') :
    TlDrained s' := by
  obtain ⟨t, hR, hd⟩ := h.refines
  obtain ⟨tr, t', hpath, hR', -⟩ := queueStep_answered hR hd.owned hm hs
  exact ⟨⟨t', hR', drained_path hd hpath⟩, held_queueStep h.held hs⟩

theorem return_less {i : Fin n} {new_array : ℕ} {junk : ℤ → Option ℕ} (h : TlDrained s)
    (hm : tlMay s (.queue i new_array junk)) {c : Option (Fin n)} {op : Op ℕ}
    (hcall : queueCall i (s.worker i) = some (c, op)) {q : LockedQueue.State (Fin n) ℕ}
    {d : Option (Fin n)} {r : Option ℕ}
    (hq : LockedQueue.step (s.queue (c.getD i)) (runAction i new_array junk op) =
      some (q, some (.ret d r)))
    (hleaving : Leaving (workerAt (afterStep s i (c.getD i) q (some (.ret d r))) i)) :
    tlStepsLeft (afterStep s i (c.getD i) q (some (.ret d r))) + 1 ≤ tlStepsLeft s := by
  obtain ⟨hbegin, hrun⟩ := thread_of_call hcall new_array junk
  obtain ⟨t, hR, -⟩ := h.refines
  obtain ⟨hist, hsim, hl⟩ := hR.queue (c.getD i)
  simp only [tlMay, hcall] at hm
  obtain ⟨a, p, hsim', -, hmove⟩ := step_moves hsim hl hm hq
  obtain rfl := phase_eq hsim'
  rw [hrun] at hmove
  generalize hp : phaseAt q = p at hmove
  have hidle : ∀ c', phase (setTlQueue s (c.getD i) q) i c' = .idle := by
    cases hmove with
    | ret _ hdone => exact phases_idle hR hcall hp
    | pointRet o hpending => exact phases_idle hR hcall hp
  have hworker : workerAt (setTlWorker (setTlQueue s (c.getD i) q) i (afterCall (s.worker i) r)) i =
      afterCall (s.worker i) r := by
    rw [workerAt_of_idle (s := setTlWorker (setTlQueue s (c.getD i) q) i _) hidle]
    exact Function.update_self ..
  have hafter : Leaving (afterCall (s.worker i) r) := hworker ▸ hleaving
  refine worker_less (s := s) rfl rfl (fun j hj => ?_) (afterCall_less hcall hafter)
  rw [← callSteps_others hrun hq hj]
  simp only [callSteps, afterStep, setTlWorker, Function.update_of_ne hj]

theorem TlDrained.queue_less {i : Fin n} {new_array : ℕ} {junk : ℤ → Option ℕ} (h : TlDrained s)
    (hm : tlMay s (.queue i new_array junk)) (hs : queueStep s i new_array junk = some s') :
    tlStepsLeft s' + (if waits s (.queue i new_array junk) then 0 else 1) ≤ tlStepsLeft s := by
  obtain ⟨t', hR', hd'⟩ := (h.queue hm hs).refines
  have hleaving := worker_leaving hR' hd' i
  rw [queueStep] at hs
  cases hcall : queueCall i (s.worker i) with
  | none =>
    rw [hcall] at hs
    cases hs
  | some p =>
    obtain ⟨c, op⟩ := p
    obtain ⟨hbegin, hrun⟩ := thread_of_call hcall new_array junk
    simp only [hcall] at hs
    simp only [waits, hcall]
    -- a step without a return, by the way it makes
    have hgoes : ∀ {x : LockedQueue.Action (Fin n) ℕ} {q : LockedQueue.State (Fin n) ℕ}
        {e : LockedQueue.Event (Fin n) ℕ}, threadOf x = (c.map fun _ => i) →
        LockedQueue.step (s.queue (c.getD i)) x = some (q, e) →
        (ownSteps q (threadOf x) < ownSteps (s.queue (c.getD i)) (threadOf x) ∨
          waitsAt (s.queue (c.getD i)) (threadOf x) = true ∧
            ownSteps q (threadOf x) = ownSteps (s.queue (c.getD i)) (threadOf x)) →
        tlStepsLeft (setTlQueue s (c.getD i) q) +
          (if waitsAt (s.queue (c.getD i)) (c.map fun _ => i) then 0 else 1) ≤ tlStepsLeft s := by
      intro x q e hx hq hgo
      refine call_less hcall hx hq ?_
      rw [← hx]
      obtain hlt | ⟨hwaits, heq⟩ := hgo
      · split <;> omega
      · rw [if_pos hwaits]
        omega
    split at hs
    · split at hs
      · obtain ⟨⟨q, e⟩, hq, rfl⟩ := Option.map_eq_some_iff.mp hs
        obtain ⟨r, rfl⟩ | ⟨-, hgo⟩ := step_progress hq
        · cases callAction_event hq
        · exact hgoes hbegin hq hgo
      · cases hs
        rw [workerAt_of_none (by simp only [setTlWorker, Function.update_self]; rfl)] at hleaving
        simp only [setTlWorker, Function.update_self] at hleaving
        exact hleaving.elim
    · obtain ⟨⟨q, e⟩, hq, rfl⟩ := Option.map_eq_some_iff.mp hs
      obtain ⟨r, rfl⟩ | ⟨hno, hgo⟩ := step_progress hq
      · refine le_trans (Nat.add_le_add_left ?_ _) (return_less h hm hcall hq hleaving)
        split <;> omega
      · rw [afterStep_quiet hno]
        exact hgoes hrun hq hgo

theorem plain_worker {s u : State n V} {i : Fin n} (hleaving : Leaving (s.worker i))
    (hzero : s.remaining_tasks = 0) (hcall : queueCall i (s.worker i) = none) {a : Action n V}
    (ha : actor a = some i) (hm : may s a) {e : Event n} (hs : step s a = some (u, e)) :
    ∃ y, u = setWorker s i y ∧ tlStepsToExit n y < tlStepsToExit n (s.worker i) := by
  cases a with
  | main => cases ha
  | worker j =>
    cases ha
    cases hpc : s.worker i with
    | unstarted =>
      simp only [step, workerStep, hpc] at hs
      split at hs
      · cases hs
        exact ⟨_, rfl, Nat.lt_succ_self (n + 2)⟩
      · cases hs
    | pop =>
      rw [hpc] at hcall
      cases hcall
    | steal k =>
      have hk : ¬ k < n := by
        intro hk
        rw [hpc, queueCall, if_pos hk] at hcall
        cases hcall
      simp only [step, workerStep, hpc, if_neg hk] at hs
      cases hs
      refine ⟨_, rfl, ?_⟩
      simp only [tlStepsToExit, stepsToExit]
      omega
    | loadRemaining =>
      simp only [step, workerStep, hpc, hzero, if_true] at hs
      cases hs
      exact ⟨_, rfl, Nat.zero_lt_one⟩
    | mustSleep | exited => simp [step, workerStep, hpc] at hs
    | _ =>
      rw [hpc] at hleaving
      exact hleaving.elim
  | request j _ | condition j _ =>
    cases ha
    simp only [step] at hs
    split at hs
    · rename_i hpc
      rw [hpc] at hleaving
      exact hleaving.elim
    · cases hs
  | publish j =>
    cases ha
    simp only [step] at hs
    split at hs
    · rename_i u must_sleep arg published hpc
      obtain rfl : published = false := by simpa only [may, hpc, Scheduler.published] using hm
      rw [hpc] at hleaving
      exact hleaving.elim
    · cases hs
  | answer j result =>
    cases ha
    simp only [step] at hs
    split at hs
    · rename_i u must_sleep arg published hpc
      obtain rfl : result = published := by simpa only [may, hpc, Scheduler.published] using hm
      rw [hpc] at hleaving
      cases result with
      | false => exact hleaving.elim
      | true =>
        cases hs
        exact ⟨_, rfl, by rw [hpc]; exact Nat.lt_succ_self (n + 2)⟩
    · cases hs

theorem remaining_eq (h : Refines s t) : t.remaining_tasks = s.remaining_tasks := by
  rw [h.eq]
  rfl

theorem TlDrained.plain {a : Action n V} (h : TlDrained s) (hm : tlMay s (.plain a))
    {e : Option (ℕ × TaskEvent V)} (hs : tlStep s (.plain a) = some (s', e)) :
    TlDrained s' ∧ tlStepsLeft s' + 1 ≤ tlStepsLeft s := by
  obtain ⟨t, hR, hd⟩ := h.refines
  rw [tlStep] at hs
  split at hs
  · cases hs
  · rename_i hcalls
    have hcalls : callsQueue s a = false := Bool.eq_false_iff.mpr hcalls
    obtain ⟨⟨u, e'⟩, hstep, he⟩ := Option.map_eq_some_iff.mp hs
    cases he
    obtain ⟨hmay, -, t', hstep', hR'⟩ := step_refines hR hcalls hm hstep
    refine ⟨⟨⟨t', hR', (hd.step hmay hstep').1⟩, h.held⟩, ?_⟩
    cases ha : actor a with
    | none =>
      cases a with
      | main =>
        have hless := (stepsLeft_main hstep).1
        obtain ⟨main, rfl, -⟩ := mainStep_frames t.queue (fun _ hj => hj) hstep
        have hless : ∑ j, stepsToExit n (s.worker j) + stepsToReturn n main <
            ∑ j, stepsToExit n (s.worker j) + stepsToReturn n s.main := hless
        change (∑ j, (12 * tlStepsToExit n (s.worker j) + callSteps s j) +
          stepsToReturn n main) + 1 ≤ tlStepsLeft s
        simp only [tlStepsLeft]
        omega
      | worker | request | condition | publish | answer => cases ha
    | some i =>
      have hnone := queueCall_none ha hcalls hstep
      have hleaving := worker_leaving hR hd i
      rw [workerAt_of_none hnone] at hleaving
      obtain ⟨y, rfl, hlt⟩ := plain_worker (s := LockedScheduler.plain s) hleaving
        ((remaining_eq hR).symm.trans hd.zero) hnone ha hm hstep
      refine worker_less (s := s) (i := i) (y := y) rfl rfl (fun j hj => ?_) hlt
      simp only [callSteps, withQueues, setWorker, Function.update_of_ne hj]
      rfl

theorem TlDrained.step {x : TlAction n V} (h : TlDrained s) (hm : tlMay s x)
    {e : Option (ℕ × TaskEvent V)} (hs : tlStep s x = some (s', e)) :
    TlDrained s' ∧ tlStepsLeft s' + (if waits s x then 0 else 1) ≤ tlStepsLeft s := by
  cases x with
  | plain a => exact h.plain hm hs
  | queue i new_array junk =>
    obtain ⟨u, hstep, he⟩ := Option.map_eq_some_iff.mp hs
    cases he
    exact ⟨h.queue hm hstep, h.queue_less hm hstep⟩

theorem plain_enabled {s : State n V} {i : Fin n} (hleaving : Leaving (s.worker i))
    (hzero : s.remaining_tasks = 0) (hcall : queueCall i (s.worker i) = none)
    (hstarted : started s.main i = true) (hexited : s.worker i ≠ .exited) :
    ∃ a, may s a ∧ actor a = some i ∧ (step s a).isSome = true := by
  cases hpc : s.worker i with
  | unstarted =>
    exact ⟨.worker i, trivial, rfl, by simp only [step, workerStep, hpc, hstarted, if_true]; rfl⟩
  | pop =>
    rw [hpc] at hcall
    cases hcall
  | steal k =>
    have hk : ¬ k < n := by
      intro hk
      rw [hpc, queueCall, if_pos hk] at hcall
      cases hcall
    exact ⟨.worker i, trivial, rfl, by simp only [step, workerStep, hpc, if_neg hk]; rfl⟩
  | loadRemaining =>
    exact ⟨.worker i, trivial, rfl, by simp only [step, workerStep, hpc, hzero, if_true]; rfl⟩
  | mustSleep u must_sleep arg published =>
    rw [hpc] at hleaving
    cases published with
    | false => exact hleaving.elim
    | true =>
      refine ⟨.answer i true, ?_, rfl, by simp only [step, hpc]; rfl⟩
      simp only [may, hpc, Scheduler.published]
  | exited => exact absurd hpc hexited
  | _ =>
    rw [hpc] at hleaving
    exact hleaving.elim

omit [NeZero n] in
theorem owner_of_inside {o : LockedQueue.Owner ℕ} (h : insideOwner o = true) :
    ownerPhase o ≠ .idle ∧ ownerAtLock o = false := by
  cases o with
  | push elt pc | pushOld elt old_buffer pc =>
    exact ⟨pushPhase_ne_idle _ pc, congrArg not h⟩
  | pop pc => exact ⟨takePhase_ne_idle _ pc, congrArg not h⟩
  | _ => cases h

omit [NeZero n] in
theorem thief_of_inside {x : LockedQueue.Thief ℕ} (h : insideThief x = true) :
    thiefPhase x ≠ .idle ∧ thiefAtLock x = false := by
  cases x with
  | idle => cases h
  | steal pc => exact ⟨takePhase_ne_idle _ pc, congrArg not h⟩

theorem canGo_of_inside (h : Refines s t) {j : Fin n} {d : Option (Fin n)}
    (hbusy : phaseAt (s.queue j) d ≠ .idle) (hgo : waitsAt (s.queue j) d = false) : CanGo s := by
  have hthread : ∃ (i : Fin n) (c : Option (Fin n)), c.getD i = j ∧ (c.map fun _ => i) = d := by
    cases d with
    | none => exact ⟨j, none, rfl, rfl⟩
    | some i => exact ⟨i, some j, rfl, rfl⟩
  obtain ⟨i, c, rfl, rfl⟩ := hthread
  have hcall : ∃ op, queueCall i (s.worker i) = some (c, op) := by
    by_contra hno
    exact hbusy (h.idle i c fun op he => hno ⟨op, he⟩)
  obtain ⟨op, hcall⟩ := hcall
  refine .inr ⟨i, fun new_array junk => ⟨?_, queueStep_isSome h (by rw [hcall]; rfl) ..⟩⟩
  simp only [waits, hcall, hgo]

theorem TlDrained.worker_canGo (h : TlDrained s) {i : Fin n} (hstarted : started s.main i = true)
    (hexited : s.worker i ≠ .exited) : CanGo s := by
  obtain ⟨t, hR, hd⟩ := h.refines
  cases hcall : queueCall i (s.worker i) with
  | none =>
    have hleaving := worker_leaving hR hd i
    rw [workerAt_of_none hcall] at hleaving
    obtain ⟨a, hm, ha, hstep⟩ := plain_enabled (s := LockedScheduler.plain s) hleaving
      ((remaining_eq hR).symm.trans hd.zero) hcall hstarted hexited
    refine .inl ⟨a, hm, ?_, hstep⟩
    cases a with
    | worker j =>
      cases ha
      rw [callsQueue, hcall]
      rfl
    | _ => rfl
  | some p =>
    obtain ⟨c, op⟩ := p
    by_cases hwaits : waitsAt (s.queue (c.getD i)) (c.map fun _ => i) = true
    · have hlocked : (s.queue (c.getD i)).queue.locked = true := by
        generalize c.map (fun _ => i) = d at hwaits
        cases d <;> exact (Bool.and_eq_true_iff.mp hwaits).1
      obtain hin | ⟨k, hin⟩ := h.held _ hlocked
      · obtain ⟨hbusy, hgo⟩ := owner_of_inside hin
        exact canGo_of_inside hR (d := none) hbusy (by rw [waitsAt, hgo, Bool.and_false])
      · obtain ⟨hbusy, hgo⟩ := thief_of_inside hin
        exact canGo_of_inside hR (d := some k) hbusy (by rw [waitsAt, hgo, Bool.and_false])
    · refine .inr ⟨i, fun new_array junk => ⟨?_, queueStep_isSome hR (by rw [hcall]; rfl) ..⟩⟩
      simp only [waits, hcall]
      exact Bool.eq_false_iff.mpr hwaits

theorem TlDrained.canGo (h : TlDrained s) : s.main = .returned ∨ CanGo s := by
  cases hmain : s.main with
  | returned => exact .inl rfl
  | create k =>
    refine .inr (.inl ⟨.main, trivial, rfl, ?_⟩)
    simp only [Scheduler.step, mainStep, LockedScheduler.plain, hmain]
    rfl
  | work =>
    refine .inr ?_
    by_cases h0 : s.worker 0 = .exited
    · refine .inl ⟨.main, trivial, rfl, ?_⟩
      simp only [Scheduler.step, mainStep, LockedScheduler.plain, hmain, h0]
      rfl
    · exact h.worker_canGo (by rw [hmain]; rfl) h0
  | join k =>
    refine .inr ?_
    by_cases hk : k < n
    · by_cases h0 : s.worker (Fin.ofNat n k) = .exited
      · refine .inl ⟨.main, trivial, rfl, ?_⟩
        simp only [Scheduler.step, mainStep, LockedScheduler.plain, hmain, if_pos hk, h0]
        rfl
      · exact h.worker_canGo (by rw [hmain]; rfl) h0
    · refine .inl ⟨.main, trivial, rfl, ?_⟩
      simp only [Scheduler.step, mainStep, LockedScheduler.plain, hmain, if_neg hk]
      rfl

theorem run_held {log_size : ℕ} {tr : List (Option (ℕ × TaskEvent V))}
    (h : Run (tlScheffSystem n V log_size) tr s) : ∀ j, Held (s.queue j) := by
  refine Run.invariant (fun _ s => ∀ j, Held (s.queue j)) ?_ ?_ h
  · intro s hinit j hlocked
    obtain ⟨t, -, -, hrested⟩ := scheduled_rested hinit
    obtain ⟨-, -, hrel, -⟩ := hrested j
    exact absurd (hrel.locked.symm.trans hlocked) Bool.false_ne_true
  · intro tr s x s' e hheld hm hs
    cases x with
    | plain a =>
      have hs : tlStep s (.plain a) = some (s', e) := hs
      rw [tlStep] at hs
      split at hs
      · cases hs
      · obtain ⟨⟨u, e'⟩, -, he⟩ := Option.map_eq_some_iff.mp hs
        cases he
        exact hheld
    | queue i new_array junk =>
      obtain ⟨u, hstep, he⟩ := Option.map_eq_some_iff.mp hs
      cases he
      exact held_queueStep hheld hstep

theorem run_drained {log_size : ℕ} {tr : List (Option (ℕ × TaskEvent V))}
    (h : Run (tlScheffSystem n V log_size) tr s) (hzero : s.remaining_tasks = 0) :
    TlDrained s := by
  obtain ⟨tr', t, hrun, hR, -⟩ := run_refines h
  obtain ⟨tr'', hrun'⟩ := Run.of_relabel hrun
  obtain ⟨ho, hc, -⟩ := run_counted hrun'
  exact ⟨⟨t, hR, ho, hc, (remaining_eq hR).trans hzero⟩, run_held h⟩

omit [NeZero n] in
theorem sum_spins (l : List Bool) :
    (l.map fun b => if b then 0 else 1).sum = l.count false := by
  induction l with
  | nil => rfl
  | cons b l ih =>
    rw [List.map_cons, List.sum_cons, ih, List.count_cons]
    cases b
    · exact Nat.add_comm 1 _
    · exact Nat.zero_add _

/-- Once `remaining_tasks` is 0, whatever the order of the steps and whoever has
which lock: at most `12 * (n * n) + 49 * n + 3` more of them do not spin, some thread
can go on without spinning as long as `scheff_run` has not returned, and when it
has, every worker has left its loop. -/
theorem tlScheff_terminates {log_size : ℕ} {tr : List (Option (ℕ × TaskEvent V))}
    (h : Run (tlScheffSystem n V log_size) tr s) (hzero : s.remaining_tasks = 0)
    {tr' : List Bool} (hp : Path ((tlScheffSystem n V log_size).relabel waits) s tr' s') :
    tr'.count false ≤ 12 * (n * n) + 49 * n + 3 ∧ (s'.main = .returned ∨ CanGo s') := by
  have hdrained := run_drained h hzero
  obtain ⟨hdrained', hle⟩ := Path.cost_le TlDrained tlStepsLeft
    (fun b => if b then 0 else 1) (fun s x s' e hd hm hs => by
      obtain ⟨⟨u, e'⟩, hstep, he⟩ := Option.map_eq_some_iff.mp hs
      cases he
      exact hd.step hm hstep) hdrained hp
  refine ⟨?_, hdrained'.canGo⟩
  have hworker : ∀ i, 12 * tlStepsToExit n (s.worker i) + callSteps s i ≤ 12 * (n + 3) + 11 := by
    intro i
    have hsteps : tlStepsToExit n (s.worker i) ≤ n + 3 := by
      cases s.worker i <;> simp only [tlStepsToExit, stepsToExit] <;> omega
    have hcall := callSteps_le s i
    omega
  have hsum : ∑ i, (12 * tlStepsToExit n (s.worker i) + callSteps s i) ≤
      n * (12 * (n + 3) + 11) := by
    simpa using Finset.sum_le_card_nsmul Finset.univ
      (fun i => 12 * tlStepsToExit n (s.worker i) + callSteps s i) _ fun i _ => hworker i
  have hmain : stepsToReturn n s.main ≤ 2 * n + 3 := by
    cases s.main <;> simp only [stepsToReturn] <;> omega
  have hmul : n * (12 * (n + 3) + 11) = 12 * (n * n) + 47 * n := by
    rw [show 12 * (n + 3) + 11 = 12 * n + 47 by omega, Nat.mul_add, Nat.mul_left_comm,
      Nat.mul_comm n 47]
  rw [sum_spins] at hle
  simp only [tlStepsLeft] at hle
  omega

/-- Two workers, and worker 0 has finalized the only task: its pop spins once, while
worker 1 has the lock of its queue in order to steal, and then both leave. -/
theorem tlScheff_terminates_spin : ∃ tr s tr' s', Run (tlScheffSystem 2 ℕ 0) tr s ∧
    s.remaining_tasks = 0 ∧ Path ((tlScheffSystem 2 ℕ 0).relabel waits) s tr' s' ∧
    (s'.main = .returned ∧ true ∈ tr') ∧
    tr'.count false ≤ 12 * (2 * 2) + 49 * 2 + 3 ∧ (s'.main = .returned ∨ CanGo s') := by
  let a : TlAction 2 ℕ := .plain (.worker 0)
  let b : TlAction 2 ℕ := .plain (.worker 1)
  let q : TlAction 2 ℕ := .queue 0 9 fun _ => none
  let r : TlAction 2 ℕ := .queue 1 9 fun _ => none
  let m : TlAction 2 ℕ := .plain .main
  obtain ⟨malloc⟩ : Nonempty (LockedQueueCalls.Malloc ℕ) := inferInstance
  obtain ⟨tr, s, tr', s', h, hzero, hp, he⟩ : ∃ tr s tr' s',
      Run ((tlScheffSystem 2 ℕ 0).relabel waits) tr s ∧
      (s.remaining_tasks, decide (true ∈ tr)) = (0, false) ∧
      Path ((tlScheffSystem 2 ℕ 0).relabel waits) s tr' s' ∧
      (s'.main, decide (true ∈ tr ++ tr')) = (.returned, true) :=
    Run.exists_path_of_exec (S := (tlScheffSystem 2 ℕ 0).relabel waits)
      (fun s x (h : decide (tlMay s x) = true) => (of_decide_eq_true h : tlMay s x))
      [m, m, a, q, q, q, q, q, q, q, a, a, a, a, .plain (.request 0 (.ret 9)), a, a, a, a]
      [b, r, r, r, r, r, r, q, q, r, r, q, r, b, b, q, q, q, q, q, q, q, a, a, m, m, m]
      (LockedScheduler.Scheduled.schedule (.init (fun _ => 0) fun _ _ => none) 1 2 malloc
        (fun _ => none) (r := none) (.run rfl (.run rfl (.run rfl (.run rfl (.done rfl))))))
      (fun p => (p.1.remaining_tasks, decide (true ∈ p.2))) rfl
      (fun p => (p.1.main, decide (true ∈ p.2))) rfl
  obtain ⟨hzero, hno⟩ := Prod.mk.inj hzero
  obtain ⟨hmain, hspin⟩ := Prod.mk.inj he
  obtain ⟨tr₀, h⟩ := Run.of_relabel h
  have hmem : true ∈ tr' :=
    (List.mem_append.mp (of_decide_eq_true hspin)).resolve_left (of_decide_eq_false hno)
  obtain ⟨hle, hgo⟩ := tlScheff_terminates h hzero hp
  exact ⟨tr₀, s, tr', s', h, hzero, hp, ⟨hmain, hmem⟩, hle, hgo⟩

end Steps

end Libseff.LockedSchedulerTermination
