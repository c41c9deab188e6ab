import Libseff.LockedSchedulerRuns
import Libseff.TaskAnswers

namespace Libseff.LockedSchedulerTasks

open TransitionRuns AtomicObjects SlotQueues Scheduler SchedulerPlaces SchedulerMoves
  SchedulerOwner SchedulerRuns SchedulerCounter SchedulerTermination TaskLives TaskHistories
  TaskAnswers LockedQueueCalls LockedScheduler LockedSchedulerSim LockedSchedulerCalls
  LockedSchedulerRuns

variable {n : ℕ} {V : Type} [NeZero n]

variable {s : TlState n V} {t : State n V}

/-- Every run of the scheduler with its locked queues answers to a run in which
the calls of the queues are single steps, and no call gets stuck. -/
theorem tlScheff_refines {log_size : ℕ} {tr : List (Option (ℕ × TaskEvent V))}
    (h : Run (tlScheffSystem n V log_size) tr s) :
    (∃ tr' t, Run (lifeSystem n V) tr' t ∧ Refines s t ∧
      tr'.flatMap visible = tr.flatMap visible) ∧
    ∀ i, (queueCall i (s.worker i)).isSome = true → ∀ new_array junk,
      (queueStep s i new_array junk).isSome = true := by
  obtain ⟨tr', t, hrun, hR, hvisible⟩ := run_refines h
  exact ⟨⟨tr', t, hrun, hR, hvisible⟩, fun i hcall => queueStep_isSome hR hcall⟩

/-- Worker 1 spins at the lock of the queue that it steals from while worker 0 pops
the only task of it. -/
theorem tlScheff_refines_spin : ∃ tr s, Run (tlScheffSystem 2 ℕ 0) tr s ∧
    (s.worker 0, s.worker 1) = (.running 0, .steal 2) ∧
    ∃ tr' t, Run (lifeSystem 2 ℕ) tr' t ∧ Refines s t ∧ tr'.flatMap visible = [(0, .resumed)] := by
  let a : TlAction 2 ℕ := .plain (.worker 0)
  let q : TlAction 2 ℕ := .queue 0 9 fun _ => none
  let r : TlAction 2 ℕ := .queue 1 9 fun _ => none
  obtain ⟨malloc⟩ : Nonempty (Malloc ℕ) := inferInstance
  obtain ⟨tr, s, h, he⟩ : ∃ tr s, Run (tlScheffSystem 2 ℕ 0) tr s ∧
      ((s.worker 0, s.worker 1), tr.flatMap visible) = ((.running 0, .steal 2), [(0, .resumed)]) :=
    Run.exists_of_exec (S := tlScheffSystem 2 ℕ 0)
      (fun s x (h : decide (tlMay s x) = true) => (of_decide_eq_true h : tlMay s x))
      [.plain .main, .plain .main, .plain (.worker 1), r, r, r, r, r, r, a, q, q, q, r, r, q, q,
        q, q, r, r, r, a, a, a, a]
      (LockedScheduler.Scheduled.schedule (.init (fun _ => 0) fun _ _ => none) 1 2 malloc
        (fun _ => none) (r := none) (.run rfl (.run rfl (.run rfl (.run rfl (.done rfl))))))
      (fun p => ((p.1.worker 0, p.1.worker 1), p.2.flatMap visible)) rfl
  obtain ⟨hpc, hvisible⟩ := Prod.mk.inj he
  obtain ⟨⟨tr', t, hrun, hR, hsame⟩, -⟩ := tlScheff_refines h
  exact ⟨tr, s, h, hpc, tr', t, hrun, hR, hsame.trans hvisible⟩

def seen : TaskEvent V → Bool
  | .woken => false
  | _ => true

omit [NeZero n] in
theorem history_seen (u : ℕ) (tr : List (Option (ℕ × TaskEvent V))) :
    (history u tr).filter seen =
      (tr.flatMap visible).filterMap fun p => if p.1 = u then some p.2 else none := by
  induction tr with
  | nil => rfl
  | cons e tr ih =>
    rw [List.flatMap_cons, List.filterMap_append, ← ih]
    cases e with
    | none => rfl
    | some p =>
      obtain ⟨v, e⟩ := p
      by_cases hv : v = u
      · subst hv
        cases e <;> simp [history, eventOf, visible, seen, List.filter_cons]
      · cases e <;> simp [history, eventOf, visible, hv]

theorem answers_seen {H l l₁ l₂ : List (TaskEvent V)} {request : Request V} {q : Phase V}
    (h : Lives H q) (hl : H.filter seen = l ++ .requested request :: (l₁ ++ .resumed :: l₂))
    (hno : .resumed ∉ l₁) : ∃ answer, Answers request answer ∧ l₁ = answer.filter seen := by
  obtain ⟨H₁, H₂, rfl, -, h₂⟩ := List.filter_eq_append_iff.mp hl
  obtain ⟨A, B, rfl, -, -, hB⟩ := List.filter_eq_cons_iff.mp h₂
  obtain ⟨B₁, B₂, rfl, hB₁, hB₂⟩ := List.filter_eq_append_iff.mp hB
  obtain ⟨C, D, rfl, hC, -, -⟩ := List.filter_eq_cons_iff.mp hB₂
  have hlives : Lives ((H₁ ++ A) ++ .requested request :: ((B₁ ++ C) ++ .resumed :: D)) q := by
    simpa only [List.append_assoc, List.cons_append] using h
  refine ⟨B₁ ++ C, answers_of_lives hlives ?_, ?_⟩
  · rw [List.mem_append, not_or]
    exact ⟨fun hmem => hno (hB₁ ▸ List.mem_filter.mpr ⟨hmem, rfl⟩), fun hmem => hC _ hmem rfl⟩
  · rw [List.filter_append, hB₁, List.filter_eq_nil_iff.mpr hC, List.append_nil]

theorem final_seen {H l l' : List (TaskEvent V)} {request : Request V} {q : Phase V}
    (h : Lives H q) (hl : H.filter seen = l ++ .requested request :: l')
    (hfinal : final request = true) : l' = [] ∨ l' = [.released] := by
  obtain ⟨H₁, H₂, rfl, -, h₂⟩ := List.filter_eq_append_iff.mp hl
  obtain ⟨A, B, rfl, -, -, rfl⟩ := List.filter_eq_cons_iff.mp h₂
  have hlives : Lives ((H₁ ++ A) ++ .requested request :: B) q := by
    simpa only [List.append_assoc] using h
  obtain rfl | rfl := leads_of_final hfinal (leads_of_request hlives)
  · exact .inl rfl
  · exact .inr rfl

theorem worker_of_workerAt {i : Fin n} {x : Worker V} (h : workerAt s i = x)
    (hx : ∀ y c op r, queueCall i y = some (c, op) → afterCall y r ≠ x) : s.worker i = x := by
  cases hcall : queueCall i (s.worker i) with
  | none => rwa [workerAt_of_none hcall] at h
  | some p =>
    obtain ⟨c, op⟩ := p
    rw [workerAt_of_some hcall] at h
    cases hp : phase s i c with
    | done r =>
      rw [hp] at h
      exact absurd h (hx _ c op r hcall)
    | idle | pending o =>
      rw [hp] at h
      exact h

theorem exited_of_workerAt {i : Fin n} (h : workerAt s i = .exited) : s.worker i = .exited := by
  refine worker_of_workerAt h fun y c op r hcall => ?_
  cases y with
  | pop | steal k => cases r <;> nofun
  | wake u wakers resume =>
    cases wakers with
    | nil => cases hcall
    | cons waker wakers => nofun
  | forkEnqueue | forkPriority | enqueue => nofun
  | _ => cases hcall

/-- What `scheff_run` promises to the tasks, over the queues that it really uses. -/
theorem tlScheff_tasks {log_size : ℕ} {tr : List (Option (ℕ × TaskEvent V))}
    (h : Run (tlScheffSystem n V log_size) tr s) :
    (∀ i, s.worker i ≠ .fatal ∧ s.worker i ≠ .fault) ∧
    (∀ i j u, s.worker i = .running u → s.worker j = .running u → i = j) ∧
    (s.main = .returned → (∀ i, s.worker i = .exited) ∧ ∀ u, u < s.created → s.tasks u = none) ∧
    ∀ u l l' request, (history u tr).filter seen = l ++ .requested request :: l' →
      (∀ l₁ l₂, l' = l₁ ++ .resumed :: l₂ → .resumed ∉ l₁ →
        ∃ answer, Answers request answer ∧ l₁ = answer.filter seen) ∧
      (final request = true → l' = [] ∨ l' = [.released]) := by
  obtain ⟨tr', t, hrun, hR, hvisible⟩ := run_refines h
  obtain ⟨tr'', hrun'⟩ := Run.of_relabel hrun
  obtain ⟨ho, hc, -⟩ := run_counted hrun'
  have hworker : t.worker = workerAt s := by rw [hR.eq]; rfl
  refine ⟨fun i => ?_, fun i j u hi hj => ?_, fun hmain => ?_, fun u l l' request hl => ?_⟩
  · have hbusy := ho.worker i
    rw [hworker] at hbusy
    refine ⟨fun hi => ?_, fun hi => ?_⟩
    · rw [workerAt_of_none (by rw [hi]; rfl), hi] at hbusy
      simp [busy] at hbusy
    · rw [workerAt_of_none (by rw [hi]; rfl), hi] at hbusy
      simp [busy] at hbusy
  · by_contra hne
    have hi' : t.worker i = .running u := by
      rw [hworker, workerAt_of_none (by rw [hi]; rfl), hi]
    have hj' : t.worker j = .running u := by
      rw [hworker, workerAt_of_none (by rw [hj]; rfl), hj]
    have hmem : u ∈ hands (t.worker i) := hi' ▸ Multiset.mem_singleton_self u
    exact (only_hands ho hmem).2.1 j (Ne.symm hne) (hj' ▸ Multiset.mem_singleton_self u)
  · have hreturned : t.main = .returned := by rw [hR.eq]; exact hmain
    have hjoined := run_joined hrun'
    simp only [SchedulerTermination.Joined, hreturned] at hjoined
    refine ⟨fun i => exited_of_workerAt (hworker ▸ hjoined i), fun u hu => ?_⟩
    have hlive := liveTasks_of_exited hc (hjoined 0)
    have htasks : t.tasks = s.tasks := by rw [hR.eq]; rfl
    have hcreated : t.created = s.created := by rw [hR.eq]; rfl
    rw [← htasks, ← Option.not_isSome_iff_eq_none]
    intro hsome
    have hmem := mem_liveTasks.mpr ⟨hcreated ▸ hu, hsome⟩
    rw [hlive] at hmem
    cases hmem
  · obtain ⟨q, hlives, -⟩ := scheffRun_lives hrun u
    have hsame : (history u tr').filter seen = (history u tr).filter seen := by
      rw [history_seen, history_seen, hvisible]
    rw [hl] at hsame
    refine ⟨fun l₁ l₂ hl' hno => ?_, final_seen hlives hsame⟩
    subst hl'
    exact answers_seen hlives hsame hno

theorem tlScheff_tasks_poll : ∃ tr s, Run (tlScheffSystem 1 ℕ 0) tr s ∧
    history 0 tr = [.resumed] ++ .requested (.poll (some 5) (some 6)) ::
      ([.tested 5 (some 6) false, .tested 5 (some 6) true] ++ .resumed :: []) ∧
    ∃ answer, Answers (.poll (some 5) (some 6) : Request ℕ) answer ∧
      [.tested 5 (some 6) false, .tested 5 (some 6) true] = answer.filter seen := by
  let a : TlAction 1 ℕ := .plain (.worker 0)
  let q : TlAction 1 ℕ := .queue 0 9 fun _ => none
  obtain ⟨malloc⟩ : Nonempty (Malloc ℕ) := inferInstance
  obtain ⟨tr, s, h, he⟩ : ∃ tr s, Run (tlScheffSystem 1 ℕ 0) tr s ∧ history 0 tr =
      [.resumed, .requested (.poll (some 5) (some 6)), .tested 5 (some 6) false,
        .tested 5 (some 6) true, .resumed] :=
    Run.exists_of_exec (S := tlScheffSystem 1 ℕ 0)
      (fun s x (h : decide (tlMay s x) = true) => (of_decide_eq_true h : tlMay s x))
      [.plain .main, a, q, q, q, q, q, q, q, a, a, a, a,
        .plain (.request 0 (.poll (some 5) (some 6))), a, a, q, q, q, q, q, q,
        q, q, q, q, q, q, q, a, a, .plain (.condition 0 false), q, q, q, q, q, q,
        q, q, q, q, q, q, q, a, a, .plain (.condition 0 true), a, a]
      (LockedScheduler.Scheduled.schedule (.init (fun _ => 0) fun _ _ => none) 1 2 malloc
        (fun _ => none) (r := none) (.run rfl (.run rfl (.run rfl (.run rfl (.done rfl))))))
      (fun p => history 0 p.2) rfl
  refine ⟨tr, s, h, he, ?_⟩
  exact ((tlScheff_tasks h).2.2.2 0 [.resumed] _ _ (congrArg _ he)).1 _ _ rfl (by simp)

end Libseff.LockedSchedulerTasks
