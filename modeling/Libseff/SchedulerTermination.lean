import Libseff.SchedulerCounter

namespace Libseff.SchedulerTermination

open ThreadCounts SlotQueues TransitionRuns Scheduler SchedulerPlaces SchedulerMoves
  SchedulerOwner SchedulerRuns SchedulerCounter

variable {n : ℕ} {V : Type}

def stepsToExit (n : ℕ) : Worker V → ℕ
  | .unstarted | .mustSleep _ _ _ _ => n + 3
  | .pop => n + 2
  | .steal k => n - k + 2
  | .loadRemaining => 1
  | _ => 0

def stepsToReturn (n : ℕ) : Main → ℕ
  | .create k => n - k + (n + 3)
  | .work => n + 2
  | .join k => n - k + 1
  | .returned => 0

def stepsLeft (s : State n V) : ℕ :=
  ∑ i, stepsToExit n (s.worker i) + stepsToReturn n s.main

def Leaving : Worker V → Prop
  | .unstarted | .pop | .steal _ | .loadRemaining | .mustSleep _ _ _ true | .exited => True
  | _ => False

section Drained

variable [NeZero n]

structure Drained (s : State n V) : Prop where
  owned : Owned s
  counted : Counted s
  zero : s.remaining_tasks = 0

omit [NeZero n] in
theorem leaving_of_free {x : Worker V} (hhands : hands x = 0) (hahead : ahead x = 0)
    (hbusy : busy x = true ∨ x = .exited) : Leaving x := by
  cases x with
  | mustSleep t must_sleep arg published =>
    cases published with
    | true => trivial
    | false => cases Multiset.singleton_ne_zero t hhands
  | caseSwitch t request => cases request <;> simp [hands] at hhands
  | unstarted | pop | steal | loadRemaining | exited => trivial
  | fetchSub => cases hahead
  | fatal | fault => simp [busy] at hbusy
  | _ => simp [hands] at hhands

theorem Drained.liveTasks_eq {s : State n V} (h : Drained s) : liveTasks s = ∅ := by
  have heq := h.counted.remaining_eq
  rw [h.zero] at heq
  exact Finset.card_eq_zero.mp (by omega)

theorem Drained.leaving {s : State n V} (h : Drained s) (i : Fin n) : Leaving (s.worker i) := by
  have heq := h.counted.remaining_eq
  rw [h.zero] at heq
  have hle : ahead (s.worker i) ≤ ∑ j, ahead (s.worker j) :=
    Finset.single_le_sum (f := fun j => ahead (s.worker j)) (fun _ _ => Nat.zero_le _)
      (Finset.mem_univ i)
  refine leaving_of_free (Multiset.eq_zero_of_forall_notMem fun t ht => ?_) (by omega)
    (h.owned.worker i)
  have hlive := mem_liveTasks_of_hands h.owned ht
  rw [h.liveTasks_eq] at hlive
  exact Finset.notMem_empty t hlive

theorem Drained.queue_eq {s : State n V} (h : Drained s) (i : Fin n) :
    contents (s.queue i) = 0 := by
  refine Multiset.eq_zero_of_forall_notMem fun t ht => ?_
  have hmem : t ∈ ∑ j, contents (s.queue j) := Multiset.mem_sum.mpr ⟨i, Finset.mem_univ i, ht⟩
  have hlive : t ∈ (liveTasks s).val := by
    rw [← h.owned.places_eq, places, Multiset.mem_add, Multiset.mem_add]
    exact .inl (.inl hmem)
  rw [h.liveTasks_eq] at hlive
  exact Finset.notMem_empty t hlive

omit [NeZero n] in
theorem eq_none_of_contents {q : SlotQueue ℕ} {r : SlotQueue ℕ × Option ℕ}
    (hr : contents r.1 + r.2.toList = contents q) (hq : contents q = 0) : r.2 = none := by
  rw [hq] at hr
  cases h : r.2 with
  | none => rfl
  | some t =>
    rw [h] at hr
    simp at hr

theorem Drained.tryTask_eq {s : State n V} (h : Drained s) {i j : Fin n}
    {r : SlotQueue ℕ × Option ℕ} (hr : contents r.1 + r.2.toList = contents (s.queue j))
    (x : Worker V) :
    tryTask s i j r x = some (setWorker (setQueue s j r.1) i x, .silent) := by
  simp only [tryTask, eq_none_of_contents hr (h.queue_eq j)]

omit [NeZero n] in
theorem stepsLeft_setWorker (s u : State n V) {i : Fin n} {x : Worker V}
    (hworker : u.worker = s.worker) (hmain : u.main = s.main)
    (hlt : stepsToExit n x < stepsToExit n (s.worker i)) :
    stepsLeft (setWorker u i x) < stepsLeft s := by
  have hsum := sum_comp_update (stepsToExit n) s.worker i x
  simp only [stepsLeft, setWorker, hworker, hmain]
  omega

theorem stepsLeft_main {s s' : State n V} {e : Event n} (hs : mainStep s = some (s', e)) :
    stepsLeft s' < stepsLeft s ∧ s'.remaining_tasks = s.remaining_tasks := by
  have hn := NeZero.pos n
  cases hmain : s.main with
  | create k =>
    simp only [mainStep, hmain] at hs
    cases hs
    refine ⟨?_, rfl⟩
    simp only [stepsLeft, hmain]
    split <;> simp only [stepsToReturn] <;> omega
  | work =>
    simp only [mainStep, hmain] at hs
    split at hs
    · cases hs
      refine ⟨?_, rfl⟩
      simp only [stepsLeft, hmain, stepsToReturn]
      omega
    · cases hs
  | join k =>
    simp only [mainStep, hmain] at hs
    split at hs
    · split at hs
      · cases hs
        refine ⟨?_, rfl⟩
        simp only [stepsLeft, hmain, stepsToReturn]
        omega
      · cases hs
    · cases hs
      refine ⟨?_, rfl⟩
      simp only [stepsLeft, hmain, stepsToReturn]
      omega
  | returned => simp [mainStep, hmain] at hs

theorem Drained.worker_step {s s' : State n V} (h : Drained s) {i : Fin n} {e : Event n}
    (hs : workerStep s i = some (s', e)) :
    stepsLeft s' < stepsLeft s ∧ s'.remaining_tasks = s.remaining_tasks := by
  have hn := NeZero.pos n
  have hleaving := h.leaving i
  cases hpc : s.worker i with
  | unstarted =>
    simp only [workerStep, hpc] at hs
    split at hs
    · cases hs
      exact ⟨stepsLeft_setWorker s s rfl rfl (by rw [hpc]; simp [stepsToExit]), rfl⟩
    · cases hs
  | pop =>
    simp only [workerStep, hpc, h.tryTask_eq (contents_pop _)] at hs
    cases hs
    refine ⟨stepsLeft_setWorker s _ rfl rfl ?_, rfl⟩
    rw [hpc]
    simp only [stepsToExit]
    omega
  | steal k =>
    simp only [workerStep, hpc] at hs
    split at hs
    · rw [h.tryTask_eq (contents_steal _)] at hs
      cases hs
      refine ⟨stepsLeft_setWorker s _ rfl rfl ?_, rfl⟩
      rw [hpc]
      simp only [stepsToExit]
      omega
    · cases hs
      refine ⟨stepsLeft_setWorker s s rfl rfl ?_, rfl⟩
      rw [hpc]
      simp only [stepsToExit]
      omega
  | loadRemaining =>
    simp only [workerStep, hpc, h.zero, if_true] at hs
    cases hs
    exact ⟨stepsLeft_setWorker s s rfl rfl (by rw [hpc]; exact Nat.zero_lt_one), rfl⟩
  | mustSleep t must_sleep arg published | exited => simp [workerStep, hpc] at hs
  | _ =>
    rw [hpc] at hleaving
    cases hleaving

theorem Drained.step {s s' : State n V} (h : Drained s) {a : Action n V} {e : Event n}
    (hm : may s a) (hs : Scheduler.step s a = some (s', e)) :
    Drained s' ∧ stepsLeft s' < stepsLeft s := by
  have howned := owned_step h.owned hm hs
  have hcounted : Counted s' := by
    obtain ⟨i, hi, hmove⟩ | ⟨main, rfl, -, hmain⟩ := step_move h.owned hm hs
    · exact counted_move h.counted h.owned hi hmove
    · exact counted_main h.counted hmain
  have hboth : stepsLeft s' < stepsLeft s ∧ s'.remaining_tasks = s.remaining_tasks := by
    cases a with
    | main => exact stepsLeft_main hs
    | worker i => exact h.worker_step hs
    | request i request =>
      have hleaving := h.leaving i
      simp only [Scheduler.step] at hs
      split at hs
      · rename_i t hpc
        rw [hpc] at hleaving
        cases hleaving
      · cases hs
    | condition i result =>
      have hleaving := h.leaving i
      simp only [Scheduler.step] at hs
      split at hs
      · rename_i t c arg hpc
        rw [hpc] at hleaving
        cases hleaving
      · cases hs
    | publish i =>
      have hleaving := h.leaving i
      simp only [Scheduler.step] at hs
      split at hs
      · rename_i t must_sleep arg published hpc
        obtain rfl : published = false := by simpa only [may, hpc, Scheduler.published] using hm
        rw [hpc] at hleaving
        cases hleaving
      · cases hs
    | answer i result =>
      have hleaving := h.leaving i
      simp only [Scheduler.step] at hs
      split at hs
      · rename_i t must_sleep arg published hpc
        obtain rfl : result = published := by simpa only [may, hpc, Scheduler.published] using hm
        rw [hpc] at hleaving
        cases result with
        | false => cases hleaving
        | true =>
          cases hs
          exact ⟨stepsLeft_setWorker s s rfl rfl (by rw [hpc]; simp [stepsToExit]), rfl⟩
      · cases hs
  exact ⟨⟨howned, hcounted, hboth.2.trans h.zero⟩, hboth.1⟩

theorem Drained.worker_enabled {s : State n V} (h : Drained s) {i : Fin n}
    (hstarted : started s.main i = true) (hi : s.worker i ≠ .exited) :
    ∃ a s' e, may s a ∧ Scheduler.step s a = some (s', e) := by
  have hleaving := h.leaving i
  cases hpc : s.worker i with
  | unstarted =>
    exact ⟨.worker i, _, _, trivial, by
      simp only [Scheduler.step, workerStep, hpc, hstarted, if_true]; rfl⟩
  | pop =>
    exact ⟨.worker i, _, _, trivial, by
      simp only [Scheduler.step, workerStep, hpc, h.tryTask_eq (contents_pop _)]; rfl⟩
  | steal k =>
    by_cases hk : k < n
    · exact ⟨.worker i, _, _, trivial, by
        simp only [Scheduler.step, workerStep, hpc, if_pos hk, h.tryTask_eq (contents_steal _)]; rfl⟩
    · exact ⟨.worker i, _, _, trivial, by
        simp only [Scheduler.step, workerStep, hpc, if_neg hk]; rfl⟩
  | loadRemaining =>
    exact ⟨.worker i, _, _, trivial, by
      simp only [Scheduler.step, workerStep, hpc, h.zero, if_true]; rfl⟩
  | mustSleep t must_sleep arg published =>
    rw [hpc] at hleaving
    cases published with
    | false => cases hleaving
    | true =>
      refine ⟨.answer i true, _, _, ?_, by simp only [Scheduler.step, hpc]; rfl⟩
      simp only [may, hpc, Scheduler.published]
  | exited => exact absurd hpc hi
  | _ =>
    rw [hpc] at hleaving
    cases hleaving

theorem Drained.enabled {s : State n V} (h : Drained s) :
    s.main = .returned ∨ ∃ a s' e, may s a ∧ Scheduler.step s a = some (s', e) := by
  cases hmain : s.main with
  | returned => exact .inl rfl
  | create k =>
    exact .inr ⟨.main, _, _, trivial, by simp only [Scheduler.step, mainStep, hmain]; rfl⟩
  | work =>
    refine .inr ?_
    by_cases h0 : s.worker 0 = .exited
    · exact ⟨.main, _, _, trivial, by simp only [Scheduler.step, mainStep, hmain, h0]; rfl⟩
    · exact h.worker_enabled (by rw [hmain]; rfl) h0
  | join k =>
    refine .inr ?_
    by_cases hk : k < n
    · by_cases h0 : s.worker (Fin.ofNat n k) = .exited
      · exact ⟨.main, _, _, trivial, by
          simp only [Scheduler.step, mainStep, hmain, if_pos hk, h0]; rfl⟩
      · exact h.worker_enabled (by rw [hmain]; rfl) h0
    · exact ⟨.main, _, _, trivial, by
        simp only [Scheduler.step, mainStep, hmain, if_neg hk]; rfl⟩

end Drained

def Joined (s : State n V) : Prop :=
  match s.main with
  | .join k => ∀ j : Fin n, j.val < k → s.worker j = .exited
  | .returned => ∀ j, s.worker j = .exited
  | _ => True

theorem move_others {s s' : State n V} {i : Fin n} {e : Event n} (h : Move s i s' e) :
    s'.main = s.main ∧ ∀ j, j ≠ i → s'.worker j = s.worker j := by
  cases h with
  | _ => exact ⟨rfl, fun j hj => Function.update_of_ne hj _ _⟩

theorem joined_of_exited {s s' : State n V} (h : Joined s) (hmain : s'.main = s.main)
    (hworker : ∀ j, s.worker j = .exited → s'.worker j = .exited) : Joined s' := by
  simp only [Joined, hmain] at h ⊢
  split
  · rename_i k hk
    rw [hk] at h
    exact fun j hj => hworker j (h j hj)
  · rename_i hk
    rw [hk] at h
    exact fun j => hworker j (h j)
  · trivial

section Runs

variable [NeZero n]

theorem step_others {s s' : State n V} (h : Owned s) {a : Action n V} {e : Event n}
    (hm : may s a) (hs : step s a = some (s', e)) (ha : a ≠ .main) :
    ∃ i, s.worker i ≠ .exited ∧ s'.main = s.main ∧ ∀ j, j ≠ i → s'.worker j = s.worker j := by
  cases a with
  | main => exact absurd rfl ha
  | worker i =>
    refine ⟨i, fun hpc => ?_, move_others (workerStep_move h hs)⟩
    simp [step, workerStep, hpc] at hs
  | request i request =>
    simp only [step] at hs
    split at hs
    · rename_i t hpc
      exact ⟨i, by simp [hpc], move_others (requestStep_move h hpc hm hs)⟩
    · cases hs
  | condition i _ | publish i | answer i _ =>
    simp only [step] at hs
    split at hs
    · rename_i hpc
      cases hs
      exact ⟨i, by simp [hpc], rfl, fun j hj => Function.update_of_ne hj _ _⟩
    · cases hs

theorem joined_main {s s' : State n V} (h : Joined s) {e : Event n}
    (hs : mainStep s = some (s', e)) : Joined s' := by
  cases hmain : s.main with
  | create k =>
    simp only [mainStep, hmain] at hs
    cases hs
    simp only [Joined]
    split
    · rename_i hk
      split at hk <;> cases hk
    · rename_i hk
      split at hk <;> cases hk
    · trivial
  | work =>
    simp only [mainStep, hmain] at hs
    split at hs
    · rename_i h0
      cases hs
      intro j hj
      obtain rfl : j = 0 := Fin.ext (Nat.lt_one_iff.mp hj)
      exact h0
    · cases hs
  | join k =>
    simp only [Joined, hmain] at h
    simp only [mainStep, hmain] at hs
    split at hs
    · rename_i hk
      split at hs
      · rename_i hexit
        cases hs
        intro j hj
        obtain hlt | heq := Nat.lt_succ_iff_lt_or_eq.mp hj
        · exact h j hlt
        · obtain rfl : j = Fin.ofNat n k := Fin.ext (by simp [heq, Nat.mod_eq_of_lt hk])
          exact hexit
      · cases hs
    · rename_i hk
      cases hs
      exact fun j => h j (by omega)
  | returned => simp [mainStep, hmain] at hs

theorem run_joined {tr : List (Event n)} {s : State n V} (h : Run (scheffSystem n V) tr s) :
    Joined s := by
  have hinv : Owned s ∧ Joined s := by
    refine Run.invariant (fun _ s => Owned s ∧ Joined s) ?_ ?_ h
    · intro s hinit
      refine ⟨run_owned (Run.start hinit), ?_⟩
      obtain ⟨tasks, rfl⟩ := hinit
      have hmain : (tasks.foldl (fun s p => scheffSchedule s p.1 p.2) (scheffInit n V)).main =
          .create 1 :=
        List.foldlRecOn (motive := fun s : State n V => s.main = .create 1) tasks
          (fun s p => scheffSchedule s p.1 p.2) rfl fun s hs _ _ => hs
      simp only [Joined, hmain]
    · rintro _ s a s' e ⟨ho, hj⟩ hm hs
      refine ⟨owned_step ho hm hs, ?_⟩
      by_cases ha : a = .main
      · subst ha
        exact joined_main hj hs
      · obtain ⟨i, hi, hmain, hothers⟩ := step_others ho hm hs ha
        refine joined_of_exited hj hmain fun j hexit => ?_
        rw [hothers j (fun he => hi (he ▸ hexit)), hexit]
  exact hinv.2

/-- Once `remaining_tasks` is 0, whatever the order of the steps: at most
`n * n + 5 * n + 3` more of them take place, some thread can go on as long as
`scheff_run` has not returned, and when it has, every worker has left its loop. -/
theorem scheffRun_terminates {tr : List (Event n)} {s : State n V}
    (h : Run (scheffSystem n V) tr s) (hzero : s.remaining_tasks = 0) {tr' : List (Event n)}
    {s' : State n V} (hp : Path (scheffSystem n V) s tr' s') :
    tr'.length ≤ n * n + 5 * n + 3 ∧
    (s'.main = .returned ∨ ∃ a s'' e, may s' a ∧ step s' a = some (s'', e)) ∧
    (s'.main = .returned → ∀ i, s'.worker i = .exited) := by
  obtain ⟨ho, hc, -⟩ := run_counted h
  have hdrained : Drained s := ⟨ho, hc, hzero⟩
  obtain ⟨hdrained', hle⟩ := Path.length_le Drained stepsLeft
    (fun s a s' e hd hm hs => hd.step hm hs) hdrained hp
  have hjoined := run_joined (h.append_path hp)
  refine ⟨?_, hdrained'.enabled, fun hmain => ?_⟩
  · have hsum : ∑ i, stepsToExit n (s.worker i) ≤ n * (n + 3) := by
      have hcard := Finset.sum_le_card_nsmul Finset.univ (fun i => stepsToExit n (s.worker i))
        (n + 3) fun i _ => ?_
      · simpa using hcard
      · simp only [stepsToExit]
        split <;> omega
    have hmain : stepsToReturn n s.main ≤ 2 * n + 3 := by
      cases s.main <;> simp only [stepsToReturn] <;> omega
    have hmul : n * (n + 3) = n * n + 3 * n := by rw [Nat.mul_add, Nat.mul_comm n 3]
    simp only [stepsLeft] at hle
    omega
  · simpa only [Joined, hmain] using hjoined

theorem scheffRun_terminates_one : ∃ tr s tr' s', Run (scheffSystem 2 ℕ) tr s ∧
    (s.created, s.remaining_tasks) = (1, 0) ∧ Path (scheffSystem 2 ℕ) s tr' s' ∧
    s'.main = .returned ∧ tr'.length ≤ 2 * 2 + 5 * 2 + 3 ∧ ∀ i, s'.worker i = .exited := by
  let a : Action 2 ℕ := .worker 0
  let b : Action 2 ℕ := .worker 1
  obtain ⟨tr, s, tr', s', h, he, hp, he'⟩ : ∃ tr s tr' s', Run (scheffSystem 2 ℕ) tr s ∧
      (s.created, s.remaining_tasks) = (1, 0) ∧ Path (scheffSystem 2 ℕ) s tr' s' ∧
      s'.main = .returned :=
    Run.exists_path_of_exec (S := scheffSystem 2 ℕ)
      (fun s o (h : decide (may s o) = true) => (of_decide_eq_true h : may s o))
      [.main, .main, a, a, a, a, a, a, .request 0 (.ret 9), a, a, a, a]
      [b, b, a, a, b, b, a, a, .main, b, .main, .main] ⟨[(1, 2)], rfl⟩
      (fun p => (p.1.created, p.1.remaining_tasks)) (by decide +kernel) (fun p => p.1.main)
      (by decide +kernel)
  obtain ⟨hle, -, hexit⟩ := scheffRun_terminates h (congrArg Prod.snd he) hp
  exact ⟨tr, s, tr', s', h, he, hp, he', hle, hexit he'⟩

end Runs

end Libseff.SchedulerTermination
