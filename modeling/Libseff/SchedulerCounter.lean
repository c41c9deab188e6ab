import Libseff.SchedulerRuns
import Mathlib.Algebra.Order.BigOperators.Group.Finset

namespace Libseff.SchedulerCounter

open ThreadCounts TransitionRuns Scheduler SchedulerPlaces SchedulerMoves SchedulerOwner
  SchedulerRuns

variable {n : ℕ} {V : Type}

def insideFork : Worker V → Bool
  | .forkAdd _ _ _ | .forkMalloc _ _ _ | .forkEnqueue _ _ | .forkPriority _ => true
  | _ => false

def insideFinalize : Worker V → Bool
  | .release _ | .free _ | .fetchSub => true
  | _ => false

def released (tr : List (Event n)) : List ℕ :=
  tr.filterMap fun | .release _ t => some t | _ => none

def gone (s : State n V) (t : ℕ) : Prop :=
  t < s.created ∧ ∀ task, s.tasks t = some task → task.coroutine.frame = false

structure Released (tr : List (Event n)) (s : State n V) : Prop where
  nodup : (released tr).Nodup
  mem_iff : ∀ t, t ∈ released tr ↔ gone s t

theorem released_append (tr : List (Event n)) (e : Event n) :
    released (tr ++ [e]) = released tr ++ released [e] := List.filterMap_append ..

theorem gone_newTask (s : State n V) (fn arg : V) (t : ℕ) :
    gone (newTask s fn arg) t ↔ gone s t := by
  by_cases ht : t = s.created
  · subst ht
    simp [gone, newTask, initTask]
  · have hlt : t < s.created + 1 ↔ t < s.created := by omega
    simp [gone, newTask, ht, hlt]

theorem gone_setTask {s : State n V} {t u : ℕ} {task : Option (ScheffTask V)} (h : u ≠ t) :
    gone (setTask s t task) u ↔ gone s u := by
  simp only [gone, setTask, Function.update_of_ne h]

theorem gone_iff_of_some {s : State n V} {t : ℕ} {task : ScheffTask V}
    (hfresh : ∀ t, s.created ≤ t → s.tasks t = none) (htask : s.tasks t = some task) :
    gone s t ↔ task.coroutine.frame = false := by
  have hlt : t < s.created := by
    by_contra hle
    rw [hfresh t (not_lt.mp hle)] at htask
    cases htask
  simp only [gone, hlt, htask, Option.some.injEq, forall_eq', true_and]

theorem released_silent {tr : List (Event n)} {s s' : State n V} (h : Released tr s) {e : Event n}
    (he : released [e] = []) (hgone : ∀ t, gone s' t ↔ gone s t) : Released (tr ++ [e]) s' := by
  refine ⟨?_, fun t => ?_⟩
  · rw [released_append, he, List.append_nil]
    exact h.nodup
  · rw [released_append, he, List.append_nil, h.mem_iff, hgone]

theorem released_move {tr : List (Event n)} {s s' : State n V} (h : Released tr s) (ho : Owned s)
    (ho' : Owned s') {i : Fin n} {e : Event n} (hmove : Move s i s' e) :
    Released (tr ++ [e]) s' := by
  cases hmove with
  | walk _ hlook | queue _ _ _ hlook | wakers _ _ hlook =>
    cases hlook with
    | silent => exact released_silent h rfl fun _ => Iff.rfl
    | touch t ht => exact released_silent h rfl fun _ => Iff.rfl
  | exit | forkAdd | fetchSub => exact released_silent h rfl fun _ => Iff.rfl
  | forkMalloc t fn arg => exact released_silent h rfl (gone_newTask s fn arg)
  | @write x y t task task' hpc htask hy hx hexp hold hframe =>
    refine released_silent h rfl fun u => ?_
    by_cases hu : u = t
    · subst hu
      rw [gone_iff_of_some ho'.fresh (Function.update_self ..), gone_iff_of_some ho.fresh htask,
        hold, hframe]
    · exact gone_setTask (s := s) hu
  | @free t task hpc htask hold =>
    refine released_silent h rfl fun u => ?_
    by_cases hu : u = t
    · subst hu
      have hg := (gone_iff_of_some ho.fresh htask).mpr hold
      refine iff_of_true ⟨hg.1, fun task' htask' => ?_⟩ hg
      simp [setWorker, setTask] at htask'
    · exact gone_setTask (s := s) hu
  | @release t task task' hpc htask hold hframe =>
    have hg : gone (setWorker (setTask s t (some task')) i (.free t)) t :=
      (gone_iff_of_some ho'.fresh (Function.update_self ..)).mpr hframe
    have hnot : ¬ gone s t := by
      rw [gone_iff_of_some ho.fresh htask, hold]
      exact Bool.noConfusion
    refine ⟨?_, fun u => ?_⟩
    · rw [released_append]
      exact List.nodup_append.mpr ⟨h.nodup, List.nodup_singleton t, by
        rintro a ha b hb rfl
        rw [List.mem_singleton.mp hb, h.mem_iff] at ha
        exact hnot ha⟩
    · rw [released_append, List.mem_append, h.mem_iff]
      by_cases hu : u = t
      · subst hu
        exact iff_of_true (.inr (List.mem_singleton_self u)) hg
      · have hset : gone (setTask s t (some task')) u ↔ gone s u := gone_setTask hu
        rw [← hset]
        exact or_iff_left fun hmem => hu (List.mem_singleton.mp hmem)

section Counts

variable [NeZero n]

structure Counted (s : State n V) : Prop where
  remaining_eq : s.remaining_tasks = ((liveTasks s).card + ∑ i, ahead (s.worker i) : ℕ)
  exited : ∀ i, s.worker i = .exited → s.remaining_tasks = 0
  after : afterWork s.main = true → s.worker 0 = .exited

theorem counted_setWorker {s u : State n V} (h : Counted s) {i : Fin n} {x : Worker V}
    (hi : s.worker i ≠ .exited) (hworker : u.worker = s.worker) (hmain : u.main = s.main)
    (hcount : u.remaining_tasks + (liveTasks s).card + ahead (s.worker i) =
      s.remaining_tasks + (liveTasks u).card + ahead x)
    (hzero : (x = .exited ∨ ∃ j, s.worker j = .exited) → u.remaining_tasks = 0) :
    Counted (setWorker u i x) where
  remaining_eq := by
    have hsum := sum_comp_update ahead s.worker i x
    have heq := h.remaining_eq
    have hlive : liveTasks (setWorker u i x) = liveTasks u := rfl
    rw [hlive]
    simp only [setWorker, hworker]
    omega
  exited j hj := by
    apply hzero
    by_cases hji : j = i
    · subst hji
      simp only [setWorker, Function.update_self] at hj
      exact .inl hj
    · simp only [setWorker, Function.update_of_ne hji, hworker] at hj
      exact .inr ⟨j, hj⟩
  after hafter := by
    have h0 := h.after (hmain ▸ hafter)
    have hne : (0 : Fin n) ≠ i := by
      rintro rfl
      exact hi h0
    simp only [setWorker, hworker, Function.update_of_ne hne]
    exact h0

theorem counted_move {s s' : State n V} (h : Counted s) (ho : Owned s) {i : Fin n} {e : Event n}
    (hi : s.worker i ≠ .exited) (hmove : Move s i s' e) : Counted s' := by
  have hzero : ∀ {x : Worker V}, busy x = true → (x = .exited ∨ ∃ j, s.worker j = .exited) →
      s.remaining_tasks = 0 := by
    rintro x hbusy (rfl | ⟨j, hj⟩)
    · cases hbusy
    · exact h.exited j hj
  cases hmove with
  | walk hpc _ _ _ hahead hbusy =>
    refine counted_setWorker h hi rfl rfl ?_ (hzero hbusy)
    rw [hpc, hahead]
  | queue _ _ hpc _ _ _ _ hahead hbusy | wakers _ hpc _ _ _ _ hahead hbusy =>
    refine counted_setWorker h hi rfl rfl ?_ (hzero hbusy)
    rw [hpc, hahead]
    rfl
  | exit hpc hnone =>
    refine counted_setWorker h hi rfl rfl ?_ fun _ => hnone
    rw [hpc]
    rfl
  | @write x y t task task' hpc htask _ _ _ _ _ hahead hbusy =>
    have hsome : (s.tasks t).isSome := by rw [htask]; rfl
    refine counted_setWorker h hi rfl rfl ?_ (hzero hbusy)
    rw [liveTasks_setTask hsome, hpc, hahead]
    rfl
  | @release t task task' hpc htask =>
    have hsome : (s.tasks t).isSome := by rw [htask]; rfl
    refine counted_setWorker h hi rfl rfl ?_ (hzero (x := .free t) rfl)
    rw [liveTasks_setTask hsome, hpc]
    rfl
  | forkAdd t fn arg hpc =>
    refine counted_setWorker h hi rfl rfl ?_ fun hex => ?_
    · rw [hpc]
      simp only [ahead, liveTasks]
      omega
    · have hz := hzero (x := .forkMalloc t fn arg) rfl (hex.imp_left (fun h => by cases h))
      have hmem : t ∈ hands (s.worker i) := hpc ▸ Multiset.mem_singleton_self t
      have hpos := Finset.card_pos.mpr ⟨t, mem_liveTasks_of_hands ho hmem⟩
      have heq := h.remaining_eq
      omega
  | forkMalloc t fn arg hpc =>
    refine counted_setWorker h hi rfl rfl ?_ (hzero (x := .forkEnqueue t s.created) rfl)
    rw [liveTasks_newTask, Finset.card_insert_of_notMem (created_not_mem s), hpc]
    simp only [ahead, newTask]
    omega
  | @free t task hpc htask =>
    have hmem : t ∈ hands (s.worker i) := hpc ▸ Multiset.mem_singleton_self t
    have hlive := mem_liveTasks_of_hands ho hmem
    have hcard := Finset.card_erase_add_one hlive
    refine counted_setWorker h hi rfl rfl ?_ (hzero (x := .fetchSub) rfl)
    rw [liveTasks_free, hpc]
    simp only [ahead, setTask]
    omega
  | fetchSub hpc =>
    refine counted_setWorker h hi rfl rfl ?_ fun hex => ?_
    · rw [hpc]
      simp only [ahead, liveTasks]
      omega
    · have hz := hzero (x := .fetchSub) rfl (hex.imp_left (fun h => by cases h))
      have hle : ahead (s.worker i) ≤ ∑ j, ahead (s.worker j) :=
        Finset.single_le_sum (f := fun j => ahead (s.worker j)) (fun _ _ => Nat.zero_le _)
          (Finset.mem_univ i)
      have heq := h.remaining_eq
      rw [hpc, ahead] at hle
      omega

theorem counted_schedule {s : State n V} (h : Counted s) (hno : ∀ i, s.worker i ≠ .exited)
    (fn arg : V) : Counted (scheffSchedule s fn arg) where
  remaining_eq := by
    have hlive : liveTasks (scheffSchedule s fn arg) = insert s.created (liveTasks s) :=
      liveTasks_newTask s fn arg
    have heq := h.remaining_eq
    rw [hlive, Finset.card_insert_of_notMem (created_not_mem s)]
    simp only [scheffSchedule, setQueue, newTask]
    omega
  exited i hi := absurd hi (hno i)
  after := h.after

theorem counted_main {s : State n V} (h : Counted s) {main : Main}
    (hmain : afterWork main = true → afterWork s.main = true ∨ s.worker 0 = .exited) :
    Counted { s with main := main } :=
  ⟨h.remaining_eq, h.exited, fun hafter => (hmain hafter).elim h.after id⟩

structure Scheduled (s : State n V) : Prop where
  owned : Owned s
  counted : Counted s
  worker : ∀ i, s.worker i = .unstarted
  gone : ∀ t, ¬ gone s t

theorem scheduled_init : Scheduled (scheffInit n V) where
  owned := owned_init
  counted := ⟨by simp [scheffInit, liveTasks, ahead], fun _ h => (by cases h),
    fun h => (by cases h)⟩
  worker _ := rfl
  gone _ h := absurd h.1 (Nat.not_lt_zero _)

theorem scheduled_schedule {s : State n V} (h : Scheduled s) (fn arg : V) :
    Scheduled (scheffSchedule s fn arg) where
  owned := owned_schedule h.owned fn arg
  counted := counted_schedule h.counted (fun i => by simp [h.worker i]) fn arg
  worker := h.worker
  gone t := (gone_newTask s fn arg t).not.mpr (h.gone t)

theorem run_counted {tr : List (Event n)} {s : State n V} (h : Run (scheffSystem n V) tr s) :
    Owned s ∧ Counted s ∧ Released tr s := by
  refine Run.invariant (fun tr s => Owned s ∧ Counted s ∧ Released tr s) ?_ ?_ h
  · rintro s ⟨tasks, rfl⟩
    have hs := List.foldlRecOn (motive := Scheduled) tasks (fun s p => scheffSchedule s p.1 p.2)
      (b := scheffInit n V) scheduled_init fun s hs p _ => scheduled_schedule hs p.1 p.2
    exact ⟨hs.owned, hs.counted, List.nodup_nil, fun t => iff_of_false List.not_mem_nil (hs.gone t)⟩
  · rintro tr s a s' e ⟨ho, hc, hr⟩ hm hs
    have ho' := owned_step ho hm hs
    obtain ⟨i, hi, hmove⟩ | ⟨main, rfl, rfl, hmain⟩ := step_move ho hm hs
    · exact ⟨ho', counted_move hc ho hi hmove, released_move hr ho ho' hmove⟩
    · exact ⟨ho', counted_main hc hmain, released_silent hr rfl fun _ => Iff.rfl⟩

theorem liveTasks_of_exited {s : State n V} (h : Counted s) {i : Fin n}
    (hi : s.worker i = .exited) : liveTasks s = ∅ := by
  have hzero := h.exited i hi
  have heq := h.remaining_eq
  exact Finset.card_eq_zero.mp (by omega)

theorem scheffRun_counter {tr : List (Event n)} {s : State n V}
    (h : Run (scheffSystem n V) tr s) :
    (liveTasks s).val = places s ∧ ((liveTasks s).card : ℤ) ≤ s.remaining_tasks ∧
    0 ≤ s.remaining_tasks ∧
    ((∀ i, insideFork (s.worker i) = false ∧ insideFinalize (s.worker i) = false) →
      s.remaining_tasks = (liveTasks s).card) ∧
    (∀ i, s.worker i = .exited → liveTasks s = ∅) ∧ (s.main = .returned → liveTasks s = ∅) ∧
    (released tr).Nodup ∧ (∀ t, t ∈ released tr → t < s.created) ∧
    (∀ t, t < s.created → t ∉ liveTasks s → t ∈ released tr) := by
  obtain ⟨ho, hc, hr⟩ := run_counted h
  have heq := hc.remaining_eq
  refine ⟨ho.places_eq.symm, by omega, by omega, fun hout => ?_, fun i => liveTasks_of_exited hc,
    fun hmain => ?_, hr.nodup, fun t ht => ((hr.mem_iff t).mp ht).1, fun t hlt hnot => ?_⟩
  · have hzero : ∑ i, ahead (s.worker i) = 0 := by
      apply Finset.sum_eq_zero
      intro i _
      obtain ⟨hfork, hfinal⟩ := hout i
      cases hpc : s.worker i with
      | forkMalloc t fn arg =>
        rw [hpc] at hfork
        cases hfork
      | fetchSub =>
        rw [hpc] at hfinal
        cases hfinal
      | _ => rfl
    omega
  · exact liveTasks_of_exited hc (hc.after (by rw [hmain]; rfl))
  · refine (hr.mem_iff t).mpr ⟨hlt, fun task htask => ?_⟩
    exact absurd (mem_liveTasks.mpr ⟨hlt, by rw [htask]; rfl⟩) hnot

/-- A task puts itself to sleep on worker 1, the task it forked wakes it and is
finalized by that request, and the worker of the first task is still in its
wakeup manager when worker 0 has finalized both. -/
theorem scheffRun_counter_wake : ∃ tr s, Run (scheffSystem 2 ℕ) tr s ∧
    (s.created, s.remaining_tasks, released tr) = (2, 0, [1, 0]) ∧ s.main = .returned ∧
    liveTasks s = ∅ := by
  let a : Action 2 ℕ := .worker 0
  let b : Action 2 ℕ := .worker 1
  obtain ⟨tr, s, h, he⟩ := Run.exists_of_exec (S := scheffSystem 2 ℕ)
    (fun s o (h : decide (may s o) = true) => (of_decide_eq_true h : may s o))
    [.main, .main, a, a, a, a, a, a, .request 0 (.fork 5 6), a, a, a, a,
      b, b, b, b, b, b, b, .request 1 (.sleep 7 8), b, .publish 1,
      a, a, a, a, a, a, .request 0 (.wake [0] false), a, a, a, a, a, a,
      a, a, a, a, a, .request 0 (.ret 9), a, a, a, a,
      .answer 1 true, a, a, a, a, b, b, b, b, .main, .main, .main]
    ⟨[(1, 2)], rfl⟩ (fun p => ((p.1.created, p.1.remaining_tasks, released p.2), p.1.main))
    (b := ((2, 0, [1, 0]), .returned)) (by decide +kernel)
  simp only [Prod.mk.injEq] at he
  obtain ⟨⟨h1, h2, h3⟩, hmain⟩ := he
  exact ⟨tr, s, h, by rw [h1, h2, h3], hmain, (scheffRun_counter h).2.2.2.2.2.1 hmain⟩

end Counts

end Libseff.SchedulerCounter
