import Libseff.SchedulerOwner

namespace Libseff.SchedulerRuns

open SlotQueues TransitionRuns Scheduler SchedulerPlaces SchedulerMoves SchedulerOwner

variable {n : ℕ} {V : Type}

def touched : Event n → Option (Fin n × ℕ)
  | .touch i t | .release i t => some (i, t)
  | _ => none

theorem touched_of_move {s s' : State n V} {i j : Fin n} {e : Event n} {t : ℕ}
    (h : Move s i s' e) (he : touched e = some (j, t)) : j = i ∧ t ∈ hands (s.worker i) := by
  cases h with
  | walk hpc hlook | queue _ _ hpc hlook | wakers _ hpc hlook =>
    cases hlook with
    | silent => cases he
    | touch t ht =>
      cases he
      exact ⟨rfl, hpc ▸ ht⟩
  | write _ hpc _ hy =>
    cases he
    exact ⟨rfl, hpc ▸ hy ▸ Multiset.mem_singleton_self t⟩
  | release _ hpc | free hpc =>
    cases he
    exact ⟨rfl, hpc ▸ Multiset.mem_singleton_self t⟩
  | exit | forkAdd | forkMalloc | fetchSub => cases he

theorem owned_init : Owned (scheffInit n V) where
  places_eq := by
    simp [places, scheffInit, contents, hands, liveTasks]
  fresh _ _ := rfl
  queue _ _ ht := absurd ht (Multiset.notMem_zero _)
  wakers _ ht := absurd ht (Multiset.notMem_zero _)
  held _ _ ht := absurd ht (Multiset.notMem_zero _)
  worker _ := .inl rfl

variable [NeZero n]

theorem owned_schedule {s : State n V} (h : Owned s) (fn arg : V) :
    Owned (scheffSchedule s fn arg) := by
  have hnew : Holds (newTask s fn arg).tasks ready {s.created} := holds_singleton ⟨rfl, rfl⟩
  have hqueue : ∀ i, Holds (newTask s fn arg).tasks ready (contents (s.queue i)) := fun i =>
    holds_update (h.queue i) (created_not_mem_of_holds (h.queue i) h.fresh) _
  refine ⟨?_, fun u hu => ?_, fun i => ?_,
    holds_update h.wakers (created_not_mem_of_holds h.wakers h.fresh) _,
    fun i => holds_update (h.held i) (created_not_mem_of_holds (h.held i) h.fresh) _, h.worker⟩
  · have hplaces := places_setQueue { newTask s fn arg with
      remaining_tasks := s.remaining_tasks + 1 } 0 (push s.created (s.queue 0))
    have hlive : liveTasks (scheffSchedule s fn arg) = insert s.created (liveTasks s) :=
      liveTasks_newTask s fn arg
    rw [contents_push, add_comm (contents _) {s.created}, ← add_assoc] at hplaces
    rw [hlive, Finset.insert_val_of_notMem (created_not_mem s), ← h.places_eq,
      ← Multiset.singleton_add, add_comm]
    exact add_right_cancel hplaces
  · simp only [scheffSchedule, setQueue, newTask] at hu ⊢
    rw [Function.update_of_ne (by omega)]
    exact h.fresh u (by omega)
  · by_cases hi : i = 0
    · subst hi
      have hq : (scheffSchedule s fn arg).queue 0 = push s.created (s.queue 0) := by
        simp only [scheffSchedule, setQueue, newTask, Function.update_self]
      rw [hq, contents_push]
      exact holds_add.mpr ⟨hqueue 0, hnew⟩
    · have hq : (scheffSchedule s fn arg).queue i = s.queue i := by
        simp only [scheffSchedule, setQueue, newTask, Function.update_of_ne hi]
      rw [hq]
      exact hqueue i

theorem owned_step {s s' : State n V} (h : Owned s) {a : Action n V} {e : Event n}
    (hm : may s a) (hs : step s a = some (s', e)) : Owned s' := by
  obtain ⟨i, -, hmove⟩ | ⟨main, rfl, -, -⟩ := step_move h hm hs
  · exact owned_move h hmove
  · exact ⟨h.places_eq, h.fresh, h.queue, h.wakers, h.held, h.worker⟩

theorem run_owned {tr : List (Event n)} {s : State n V} (h : Run (scheffSystem n V) tr s) :
    Owned s := by
  refine Run.invariant (fun _ s => Owned s) ?_ (fun _ _ _ _ _ hi hm hs => owned_step hi hm hs) h
  rintro s ⟨tasks, rfl⟩
  exact List.foldlRecOn tasks _ owned_init fun s hs p _ => owned_schedule hs p.1 p.2

theorem scheffWorkerThread_owner {tr : List (Event n)} {s : State n V}
    (h : Run (scheffSystem n V) tr s) :
    (∀ t, (places s).count t = if t ∈ liveTasks s then 1 else 0) ∧
    (∀ i j t, s.worker i = .running t → s.worker j = .running t → i = j) ∧
    (∀ a s' e i t, may s a → step s a = some (s', e) → touched e = some (i, t) →
      t ∈ liveTasks s ∧ t ∈ hands (s.worker i) ∧ (∀ j, j ≠ i → t ∉ hands (s.worker j)) ∧
      (∀ j, t ∉ contents (s.queue j)) ∧ t ∉ s.wakers) ∧
    (∀ i, s.worker i ≠ .fatal ∧ s.worker i ≠ .fault) := by
  have ho := run_owned h
  refine ⟨fun t => ?_, fun i j t hi hj => ?_, fun a s' e i t hm hs he => ?_, fun i => ?_⟩
  · rw [ho.places_eq]
    exact Multiset.count_eq_of_nodup (liveTasks s).nodup
  · by_contra hne
    have hmem : t ∈ hands (s.worker i) := hi ▸ Multiset.mem_singleton_self t
    exact (only_hands ho hmem).2.1 j (Ne.symm hne) (hj ▸ Multiset.mem_singleton_self t)
  · obtain ⟨j, -, hmove⟩ | ⟨_, -, rfl, -⟩ := step_move ho hm hs
    · obtain ⟨rfl, ht⟩ := touched_of_move hmove he
      obtain ⟨hqueue, hother, hwakers⟩ := only_hands ho ht
      exact ⟨mem_liveTasks_of_hands ho ht, ht, hother, hqueue, hwakers⟩
    · cases he
  · refine ⟨fun hi => ?_, fun hi => ?_⟩
    · have hbusy := ho.worker i
      rw [hi] at hbusy
      simp [busy] at hbusy
    · have hbusy := ho.worker i
      rw [hi] at hbusy
      simp [busy] at hbusy

/-- Worker 1 steals the task that worker 0 enqueued in a fork and puts it to
sleep, while worker 0 still holds the new task. -/
theorem scheffWorkerThread_owner_fork : ∃ tr s, Run (scheffSystem 2 ℕ) tr s ∧
    (s.worker 0, s.worker 1, s.wakers) = (.forkPriority 1, .mustSleep 0 7 8 true, {0}) ∧
    ∀ t, (places s).count t = if t ∈ liveTasks s then 1 else 0 := by
  let a : Action 2 ℕ := .worker 0
  let b : Action 2 ℕ := .worker 1
  obtain ⟨tr, s, h, he⟩ := Run.exists_of_exec (S := scheffSystem 2 ℕ)
    (fun s o (h : decide (may s o) = true) => (of_decide_eq_true h : may s o))
    [.main, .main, a, a, a, a, a, a, .request 0 (.fork 5 6), a, a, a, a,
      b, b, b, b, b, b, b, .request 1 (.sleep 7 8), b, .publish 1]
    ⟨[(1, 2)], rfl⟩ (fun p => (p.1.worker 0, p.1.worker 1, p.1.wakers)) rfl
  exact ⟨tr, s, h, he, (scheffWorkerThread_owner h).1⟩

end Libseff.SchedulerRuns
