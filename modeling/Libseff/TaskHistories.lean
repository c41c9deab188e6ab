import Libseff.TaskLives

namespace Libseff.TaskHistories

open SlotQueues TransitionRuns Scheduler SchedulerPlaces SchedulerMoves SchedulerOwner
  SchedulerRuns SchedulerCounter TaskLives

variable {n : ℕ} {V : Type}

/-- Every task goes on with its life in the step that shows `e`. -/
def Follows (s s' : State n V) (e : Option (ℕ × TaskEvent V)) : Prop :=
  ∀ t p, Fits s t p → ∃ q, Fits s' t q ∧ Goes e t p q

theorem goes_of_eventOf {t : ℕ} {e : Option (ℕ × TaskEvent V)} (h : eventOf t e = none)
    (p : Phase V) : Goes e t p p := by
  simp only [Goes, h]

theorem eventOf_ne {t u : ℕ} (h : u ≠ t) (e : TaskEvent V) : eventOf t (some (u, e)) = none :=
  if_neg h

theorem follows_hands {s s' : State n V} (ho : Owned s) {i : Fin n} {x y : Worker V}
    {e : Option (ℕ × TaskEvent V)} (hpc : s.worker i = y)
    (hworker : s'.worker = Function.update s.worker i x) (hqueue : s'.queue = s.queue)
    (hwakers : s'.wakers = s.wakers) (hcreated : s'.created = s.created)
    (htasks : ∀ u, u ∉ hands y → s'.tasks u = s.tasks u) (hhands : hands x = hands y)
    (hgoes : ∀ t task, t ∈ hands y → s.tasks t = some task → Polls task y →
      ∃ task', s'.tasks t = some task' ∧ Polls task' x ∧
        Goes e t (heldPhase t task y) (heldPhase t task' x))
    (hout : ∀ t, t ∉ hands y → eventOf t e = none) : Follows s s' e := by
  intro t p h
  by_cases ht : t ∈ hands y
  · obtain ⟨task, htask, hpolls, rfl⟩ := fits_hands ho h (hpc ▸ ht)
    rw [hpc] at hpolls ⊢
    obtain ⟨task', htask', hpolls', hg⟩ := hgoes t task ht htask hpolls
    have hx : s'.worker i = x := by rw [hworker, Function.update_self]
    have hfits := Fits.held (s := s') i (t := t) (by rw [hx, hhands]; exact ht) htask'
      (by rw [hx]; exact hpolls')
    rw [hx] at hfits
    exact ⟨_, hfits, hg⟩
  · refine ⟨p, fits_frame h (i := i) (hpc ▸ ht) (fun j hj => ?_) (htasks t ht) (fun j hj => ?_)
      (fun hw => ?_) (by rw [hcreated]), goes_of_eventOf (hout t ht) p⟩
    · rw [hworker, Function.update_of_ne hj]
    · rwa [hqueue]
    · rwa [hwakers]

theorem follows_walk {s : State n V} (ho : Owned s) {i : Fin n} {x y : Worker V}
    {e : Option (ℕ × TaskEvent V)} (hpc : s.worker i = y) (hhands : hands x = hands y)
    (hgoes : ∀ t task, t ∈ hands y → s.tasks t = some task → Polls task y →
      Polls task x ∧ Goes e t (heldPhase t task y) (heldPhase t task x))
    (hout : ∀ t, t ∉ hands y → eventOf t e = none) : Follows s (setWorker s i x) e :=
  follows_hands ho hpc rfl rfl rfl rfl (fun _ _ => rfl) hhands
    (fun t task ht htask hpolls => ⟨task, htask, hgoes t task ht htask hpolls⟩) hout

theorem follows_free {s s' : State n V} {i : Fin n} {x y : Worker V}
    (hpc : s.worker i = y) (hworker : s'.worker = Function.update s.worker i x)
    (hqueue : ∀ j, contents (s'.queue j) = contents (s.queue j)) (hwakers : s'.wakers = s.wakers)
    (hcreated : s'.created = s.created) (htasks : s'.tasks = s.tasks) (hy : hands y = 0) :
    Follows s s' none := by
  intro t p h
  refine ⟨p, fits_frame h (i := i) (by rw [hpc, hy]; exact Multiset.notMem_zero t)
    (fun j hj => ?_) (congrFun htasks t) (fun j hj => ?_) (fun hw => ?_) (by rw [hcreated]),
    goes_none t p⟩
  · rw [hworker, Function.update_of_ne hj]
  · rwa [hqueue]
  · rwa [hwakers]

theorem follows_push {s : State n V} (ho : Owned s) {i : Fin n} {x y : Worker V} {u : ℕ}
    {q : SlotQueue ℕ} {e : Option (ℕ × TaskEvent V)} (hpc : s.worker i = y)
    (hq : contents q = contents (s.queue i) + {u}) (hy : hands y = u ::ₘ hands x)
    (hu : ∀ task, s.tasks u = some task → Polls task y →
      Goes e u (heldPhase u task y) (queuedPhase task))
    (hx : ∀ t task, t ∈ hands x → t ≠ u → s.tasks t = some task → Polls task y →
      Polls task x ∧ Goes e t (heldPhase t task y) (heldPhase t task x))
    (hout : ∀ t, t ∉ hands y → eventOf t e = none) :
    Follows s (setWorker (setQueue s i q) i x) e := by
  intro t p h
  have hi : (setWorker (setQueue s i q) i x).worker i = x := Function.update_self ..
  by_cases ht : t ∈ hands y
  · obtain ⟨task, htask, hpolls, rfl⟩ := fits_hands ho h (hpc ▸ ht)
    rw [hpc] at hpolls ⊢
    by_cases htu : t = u
    · subst htu
      refine ⟨_, .queued i ?_ htask, hu task htask hpolls⟩
      simp only [setWorker, setQueue, Function.update_self, hq]
      exact Multiset.mem_add.mpr (.inr (Multiset.mem_singleton_self t))
    · have hmem : t ∈ hands x := by
        rw [hy] at ht
        exact (Multiset.mem_cons.mp ht).resolve_left htu
      obtain ⟨hpolls', hg⟩ := hx t task hmem htu htask hpolls
      have hfits := Fits.held (s := setWorker (setQueue s i q) i x) i (t := t)
        (by rw [hi]; exact hmem) htask (by rw [hi]; exact hpolls')
      rw [hi] at hfits
      exact ⟨_, hfits, hg⟩
  · refine ⟨p, fits_frame h (i := i) (hpc ▸ ht) (fun j hj => Function.update_of_ne hj _ _) rfl
      (fun j hj => ?_) id Iff.rfl, goes_of_eventOf (hout t ht) p⟩
    by_cases hji : j = i
    · subst hji
      simp only [setWorker, setQueue, Function.update_self, hq]
      exact Multiset.mem_add.mpr (.inl hj)
    · simpa only [setWorker, setQueue, Function.update_of_ne hji] using hj

theorem follows_take {s s' : State n V} (ho : Owned s) {i j : Fin n}
    {r : SlotQueue ℕ × Option ℕ} {x y : Worker V} {e : Event n} (hpc : s.worker i = y)
    (hy : hands y = 0) (hr : contents r.1 + r.2.toList = contents (s.queue j))
    (hs : tryTask s i j r x = some (s', e)) : Follows s s' none := by
  cases hres : r.2 with
  | none =>
    simp only [tryTask, hres] at hs
    cases hs
    rw [hres, Option.toList_none, Multiset.coe_nil, add_zero] at hr
    refine follows_free (i := i) (x := x) hpc rfl (fun k => ?_) rfl rfl rfl hy
    by_cases hk : k = j
    · subst hk
      simpa only [setWorker, setQueue, Function.update_self] using hr
    · simp only [setWorker, setQueue, Function.update_of_ne hk]
  | some u =>
    simp only [tryTask, hres] at hs
    cases hs
    rw [hres, Option.toList_some, Multiset.coe_singleton] at hr
    have hi : (setWorker (setQueue s j r.1) i (.checkState u)).worker i = .checkState u :=
      Function.update_self ..
    intro t p h
    by_cases htu : t = u
    · subst htu
      obtain ⟨task, htask, rfl⟩ := fits_queue ho h (j := j)
        (hr ▸ Multiset.mem_add.mpr (.inr (Multiset.mem_singleton_self t)))
      have hfits := Fits.held (s := setWorker (setQueue s j r.1) i (.checkState t)) i (t := t)
        (by rw [hi]; exact Multiset.mem_singleton_self t) htask (by rw [hi]; trivial)
      rw [hi] at hfits
      exact ⟨_, hfits, goes_none t _⟩
    · refine ⟨p, fits_frame h (i := i) (by rw [hpc, hy]; exact Multiset.notMem_zero t)
        (fun k hk => Function.update_of_ne hk _ _) rfl (fun k hk => ?_) id Iff.rfl,
        goes_none t p⟩
      by_cases hkj : k = j
      · subst hkj
        rw [← hr] at hk
        have hmem := (Multiset.mem_add.mp hk).resolve_right fun hmem =>
          htu (Multiset.mem_singleton.mp hmem)
        simpa only [setWorker, setQueue, Function.update_self] using hmem
      · simpa only [setWorker, setQueue, Function.update_of_ne hkj] using hk

theorem follows_remove {s : State n V} (ho : Owned s) {i : Fin n} {t : ℕ}
    (hpc : s.worker i = .free t) :
    Follows s (setWorker (setTask s t none) i .fetchSub) none := by
  intro u p h
  by_cases hu : u = t
  · subst hu
    have hu : u ∈ hands (s.worker i) := hpc ▸ Multiset.mem_singleton_self u
    obtain ⟨task, -, -, rfl⟩ := fits_hands ho h hu
    rw [hpc]
    exact ⟨.gone, .gone (task_of_place ho (place_of_hands hu)).1 (Function.update_self ..),
      goes_none u _⟩
  · refine ⟨p, fits_frame h (i := i) ?_ (fun j hj => Function.update_of_ne hj _ _)
      (Function.update_of_ne hu _ _) (fun _ hj => hj) id Iff.rfl, goes_none u p⟩
    rw [hpc]
    exact fun hmem => hu (Multiset.mem_singleton.mp hmem)

theorem follows_create {s : State n V} (ho : Owned s) {i : Fin n} {t : ℕ} {fn arg : V}
    (hpc : s.worker i = .forkMalloc t fn arg) :
    Follows s (setWorker (newTask s fn arg) i (.forkEnqueue t s.created))
      (some (s.created, .created)) := by
  have hi : (setWorker (newTask s fn arg) i (.forkEnqueue t s.created)).worker i =
    .forkEnqueue t s.created := Function.update_self ..
  intro u p h
  by_cases hcreated : u = s.created
  · subst hcreated
    cases h with
    | unborn _ =>
      have htask : (newTask s fn arg).tasks s.created = some (initTask fn arg) :=
        Function.update_self ..
      have hfits := Fits.held (s := setWorker (newTask s fn arg) i (.forkEnqueue t s.created)) i
        (t := s.created)
        (by rw [hi, hands]; exact Multiset.mem_cons_of_mem (Multiset.mem_singleton_self _))
        htask (by rw [hi]; rfl)
      rw [hi] at hfits
      exact ⟨_, hfits, goes_self .created⟩
    | queued j hj => exact absurd (task_of_place ho (place_of_queue hj)).1 (lt_irrefl _)
    | held j hj => exact absurd (task_of_place ho (place_of_hands hj)).1 (lt_irrefl _)
    | asleep hw htask =>
      rw [ho.fresh _ le_rfl] at htask
      cases htask
    | gone hlt => exact absurd hlt (lt_irrefl _)
  · have htask : (newTask s fn arg).tasks u = s.tasks u := Function.update_of_ne hcreated _ _
    by_cases ht : u = t
    · subst ht
      have hmem : u ∈ hands (s.worker i) := hpc ▸ Multiset.mem_singleton_self u
      obtain ⟨task, hold, hpolls, rfl⟩ := fits_hands ho h hmem
      rw [hpc] at hpolls ⊢
      have hfits := Fits.held (s := setWorker (newTask s fn arg) i (.forkEnqueue u s.created)) i
        (t := u) (by rw [hi, hands]; exact Multiset.mem_cons_self u _) (htask.trans hold)
        (by rw [hi]; exact hpolls)
      rw [hi] at hfits
      exact ⟨_, hfits, goes_of_ne (Ne.symm hcreated) _ _⟩
    · refine ⟨p, fits_frame h (i := i) ?_ (fun j hj => Function.update_of_ne hj _ _) htask
        (fun _ hj => hj) id ?_, goes_of_ne (Ne.symm hcreated) _ p⟩
      · rw [hpc]
        exact fun hmem => ht (Multiset.mem_singleton.mp hmem)
      · change s.created + 1 ≤ u ↔ s.created ≤ u
        omega

theorem follows_publish {s : State n V} (ho : Owned s) {i : Fin n} {t : ℕ} {must_sleep arg : V}
    (hpc : s.worker i = .mustSleep t must_sleep arg false) :
    Follows s (setWorker { s with wakers := t ::ₘ s.wakers } i (.mustSleep t must_sleep arg true))
      (some (t, .published)) := by
  intro u p h
  by_cases hu : u = t
  · subst hu
    have hmem : u ∈ hands (s.worker i) := hpc ▸ Multiset.mem_singleton_self u
    obtain ⟨task, htask, hpolls, rfl⟩ := fits_hands ho h hmem
    rw [hpc] at hpolls ⊢
    exact ⟨_, .asleep (Multiset.mem_cons_self u _) htask hpolls, goes_self .published⟩
  · refine ⟨p, fits_frame h (i := i) ?_ (fun j hj => Function.update_of_ne hj _ _) rfl
      (fun _ hj => hj) (Multiset.mem_cons_of_mem ·) Iff.rfl, goes_of_ne (Ne.symm hu) _ p⟩
    rw [hpc]
    exact fun hmem => hu (Multiset.mem_singleton.mp hmem)

theorem follows_request_wake {s : State n V} (ho : Owned s) {i : Fin n} {t : ℕ}
    {wakers : List ℕ} {resume : Bool} (hpc : s.worker i = .running t)
    (hle : (wakers : Multiset ℕ) ≤ s.wakers) :
    Follows s (setWorker { s with wakers := s.wakers - wakers } i
      (.caseSwitch t (.wake wakers resume))) (some (t, .requested (.wake wakers resume))) := by
  have ht : t ∈ hands (s.worker i) := hpc ▸ Multiset.mem_singleton_self t
  have hi : (setWorker { s with wakers := s.wakers - wakers } i
    (.caseSwitch t (.wake wakers resume))).worker i = .caseSwitch t (.wake wakers resume) :=
    Function.update_self ..
  intro u p h
  by_cases hu : u = t
  · subst hu
    obtain ⟨task, htask, hpolls, rfl⟩ := fits_hands ho h ht
    rw [hpc] at hpolls ⊢
    have hfits := Fits.held (s := setWorker { s with wakers := s.wakers - wakers } i
      (.caseSwitch u (.wake wakers resume))) i (t := u)
      (by rw [hi, hands]; exact Multiset.mem_cons_self u _) htask (by rw [hi]; exact hpolls)
    rw [hi, heldPhase, if_pos rfl] at hfits
    exact ⟨_, hfits, goes_self (.requested _)⟩
  · by_cases hw : u ∈ wakers
    · obtain ⟨task, htask, hpolls, rfl⟩ :=
        fits_wakers ho h (Multiset.mem_of_le hle (Multiset.mem_coe.mpr hw))
      have hfits := Fits.held (s := setWorker { s with wakers := s.wakers - wakers } i
        (.caseSwitch t (.wake wakers resume))) i (t := u)
        (by rw [hi, hands]; exact Multiset.mem_cons_of_mem (Multiset.mem_coe.mpr hw)) htask
        (by rw [hi]; exact hpolls)
      rw [hi, heldPhase, if_neg hu] at hfits
      exact ⟨_, hfits, goes_of_ne (Ne.symm hu) _ _⟩
    · refine ⟨p, fits_frame h (i := i) ?_ (fun j hj => Function.update_of_ne hj _ _) rfl
        (fun _ hj => hj) (fun hmem => ?_) Iff.rfl, goes_of_ne (Ne.symm hu) _ p⟩
      · rw [hpc]
        exact fun hmem => hu (Multiset.mem_singleton.mp hmem)
      · change u ∈ s.wakers - (wakers : Multiset ℕ)
        rw [← Multiset.count_pos, Multiset.count_sub,
          Multiset.count_eq_zero_of_notMem (mt Multiset.mem_coe.mp hw), Nat.sub_zero]
        exact Multiset.count_pos.mpr hmem

theorem waker_ne {s : State n V} (ho : Owned s) {i : Fin n} {t waker : ℕ} {wakers : List ℕ}
    {resume : Bool} (hpc : s.worker i = .wake t (waker :: wakers) resume) :
    waker ≠ t := by
  have hnodup : (places s).Nodup := ho.places_eq ▸ (liveTasks s).nodup
  rw [places, Multiset.nodup_add, Multiset.nodup_add] at hnodup
  have hhands := hnodup.1.2.1
  rw [← Finset.add_sum_erase _ _ (Finset.mem_univ i), Multiset.nodup_add, hpc, hands,
    Multiset.cons_coe, Multiset.coe_nodup, List.nodup_cons, List.nodup_cons] at hhands
  obtain ⟨⟨ht, -⟩, -⟩ := hhands
  exact (List.ne_of_not_mem_cons ht).symm

theorem condition_follows {s : State n V} (ho : Owned s) {i : Fin n} {t : ℕ} {c : V}
    {arg : Option V} (hpc : s.worker i = .pollCondition t c arg) (result : Bool) :
    Follows s (setWorker s i (if result then .clearPoll t else .enqueue t))
      (some (t, .tested c arg result)) := by
  have ht : t ∈ hands (.pollCondition t c arg : Worker V) := Multiset.mem_singleton_self t
  cases result with
  | false =>
    refine follows_walk ho hpc rfl (fun u task hu _ hpolls => ⟨trivial, ?_⟩)
      fun u hu => eventOf_ne (ne_of_mem_of_not_mem ht hu) _
    obtain rfl := Multiset.mem_singleton.mp hu
    simp only [heldPhase, queuedPhase, hpolls.1, hpolls.2, afterPoll]
    exact goes_self (.testedFalse c arg)
  | true =>
    refine follows_walk ho hpc rfl (fun u task hu _ _ => ⟨trivial, ?_⟩)
      fun u hu => eventOf_ne (ne_of_mem_of_not_mem ht hu) _
    obtain rfl := Multiset.mem_singleton.mp hu
    exact goes_self (.testedTrue c arg)

theorem follows_main {s : State n V} (main : Main) : Follows s { s with main := main } none := by
  intro t p h
  refine ⟨p, ?_, goes_none t p⟩
  cases h with
  | unborn hle => exact .unborn hle
  | queued j hj htask => exact .queued j hj htask
  | held i hi htask hpolls => exact .held (s := { s with main := main }) i hi htask hpolls
  | asleep hw htask hpolls => exact .asleep hw htask hpolls
  | gone hlt htask => exact .gone hlt htask

section Steps

variable [NeZero n]

theorem workerStep_follows {s s' : State n V} (ho : Owned s) {i : Fin n} {e : Event n}
    (hs : workerStep s i = some (s', e)) : Follows s s' (label s (.worker i)) := by
  cases hpc : s.worker i with
  | unstarted =>
    simp only [workerStep, hpc] at hs
    simp only [label, hpc]
    split at hs
    · cases hs
      exact follows_free hpc rfl (fun _ => rfl) rfl rfl rfl rfl
    · cases hs
  | pop =>
    simp only [workerStep, hpc] at hs
    simp only [label, hpc]
    exact follows_take ho hpc rfl (contents_pop _) hs
  | steal k =>
    simp only [workerStep, hpc] at hs
    simp only [label, hpc]
    split at hs
    · exact follows_take ho hpc rfl (contents_steal _) hs
    · cases hs
      exact follows_free hpc rfl (fun _ => rfl) rfl rfl rfl rfl
  | loadRemaining =>
    simp only [workerStep, hpc] at hs
    simp only [label, hpc]
    split at hs
    · cases hs
      exact follows_free hpc rfl (fun _ => rfl) rfl rfl rfl rfl
    · cases hs
      exact follows_free hpc rfl (fun _ => rfl) rfl rfl rfl rfl
  | checkState t =>
    have ht : t ∈ hands (.checkState t : Worker V) := Multiset.mem_singleton_self t
    simp only [workerStep, hpc] at hs
    simp only [label, hpc]
    obtain ⟨task, -, hready, rfl, -⟩ := ho.of_access hpc ht hs
    rw [if_neg (not_not_intro hready.1)]
    exact follows_walk ho hpc rfl (fun u _ _ _ _ => ⟨trivial, goes_none u _⟩) fun _ _ => rfl
  | checkPoll t =>
    have ht : t ∈ hands (.checkPoll t : Worker V) := Multiset.mem_singleton_self t
    simp only [workerStep, hpc] at hs
    simp only [label, hpc]
    obtain ⟨task, htask, -, rfl, -⟩ := ho.of_access hpc ht hs
    cases hcond : task.poll_condition with
    | some c =>
      refine follows_walk ho hpc rfl (fun u task' hu htask' _ => ?_) fun _ _ => rfl
      obtain rfl := Multiset.mem_singleton.mp hu
      obtain rfl := Option.some.inj (htask.symm.trans htask')
      refine ⟨⟨hcond, rfl⟩, ?_⟩
      simp only [heldPhase, queuedPhase, hcond, afterPoll]
      exact goes_none u _
    | none =>
      refine follows_walk ho hpc rfl (fun u task' hu htask' _ => ⟨trivial, ?_⟩) fun _ _ => rfl
      obtain rfl := Multiset.mem_singleton.mp hu
      obtain rfl := Option.some.inj (htask.symm.trans htask')
      simp only [heldPhase, queuedPhase, hcond, afterPoll]
      exact goes_none u _
  | clearPoll t =>
    have ht : t ∈ hands (.clearPoll t : Worker V) := Multiset.mem_singleton_self t
    simp only [workerStep, hpc] at hs
    simp only [label, hpc]
    obtain ⟨task, htask, -, rfl, -⟩ := ho.of_access hpc ht hs
    refine follows_hands ho hpc rfl rfl rfl rfl
      (fun u hu => Function.update_of_ne (ne_of_mem_of_not_mem ht hu).symm _ _) rfl
      (fun u task' hu htask' _ => ?_) fun _ _ => rfl
    obtain rfl := Multiset.mem_singleton.mp hu
    exact ⟨_, Function.update_self .., rfl, goes_none u _⟩
  | resume t =>
    have ht : t ∈ hands (.resume t : Worker V) := Multiset.mem_singleton_self t
    simp only [workerStep, hpc] at hs
    simp only [label, hpc]
    obtain ⟨task, -, -, rfl, -⟩ := ho.of_accessFrame hpc ht (fun _ h => h) hs
    refine follows_walk ho hpc rfl (fun u task' hu _ hpolls => ⟨hpolls, ?_⟩)
      fun u hu => eventOf_ne (ne_of_mem_of_not_mem ht hu) _
    obtain rfl := Multiset.mem_singleton.mp hu
    exact goes_self .resumed
  | caseSwitch t request =>
    simp only [label, hpc]
    cases request with
    | ret result =>
      simp only [workerStep, hpc] at hs
      cases hs
      refine follows_walk ho hpc rfl (fun u task' hu _ _ => ⟨trivial, ?_⟩) fun _ _ => rfl
      obtain rfl := Multiset.mem_singleton.mp hu
      simp only [heldPhase, afterRequest, if_true]
      exact goes_none u _
    | fork fn arg | poll poll_condition poll_arg | sleep must_sleep arg =>
      have ht : t ∈ hands (s.worker i) := hpc ▸ Multiset.mem_singleton_self t
      simp only [workerStep, hpc] at hs
      obtain ⟨task, -, -, rfl, -⟩ := ho.of_accessFrame hpc (hpc ▸ ht) (fun _ h => h) hs
      refine follows_walk ho hpc rfl (fun u task' hu _ hpolls => ⟨hpolls, ?_⟩) fun _ _ => rfl
      obtain rfl := Multiset.mem_singleton.mp hu
      simp only [heldPhase, afterRequest, if_true]
      exact goes_none u _
    | wake wakers resume =>
      have ht : t ∈ hands (.caseSwitch t (.wake wakers resume) : Worker V) :=
        Multiset.mem_cons_self t wakers
      simp only [workerStep, hpc] at hs
      obtain ⟨task, -, -, rfl, -⟩ := ho.of_accessFrame hpc ht (fun _ h => h) hs
      exact follows_walk ho hpc rfl (fun u task' _ _ hpolls => ⟨hpolls, goes_none u _⟩)
        fun _ _ => rfl
  | forkAdd t fn arg =>
    simp only [workerStep, hpc] at hs
    simp only [label, hpc]
    cases hs
    exact follows_hands ho hpc rfl rfl rfl rfl (fun _ _ => rfl) rfl
      (fun u task _ htask hpolls => ⟨task, htask, hpolls, goes_none u _⟩) fun _ _ => rfl
  | forkMalloc t fn arg =>
    simp only [workerStep, hpc] at hs
    simp only [label, hpc]
    cases hs
    exact follows_create ho hpc
  | forkEnqueue t new_task =>
    simp only [workerStep, hpc, pushTask] at hs
    simp only [label, hpc]
    cases hs
    refine follows_push ho hpc (contents_push _ _) rfl (fun task _ hpolls => ?_)
      (fun u task _ _ _ hpolls => ⟨hpolls, goes_none u _⟩) fun _ _ => rfl
    simp only [Polls] at hpolls
    simp only [heldPhase, queuedPhase, hpolls, afterPoll]
    exact goes_none t _
  | forkPriority new_task =>
    simp only [workerStep, hpc, pushPriority] at hs
    simp only [label, hpc]
    cases hs
    refine follows_push ho hpc (contents_priorityPush _ _) rfl (fun task _ hpolls => ?_)
      (fun u task hu _ _ _ => absurd hu (Multiset.notMem_zero u)) fun _ _ => rfl
    simp only [Polls] at hpolls
    simp only [heldPhase, queuedPhase, hpolls, afterPoll]
    exact goes_none new_task _
  | setPoll t poll_condition poll_arg =>
    have ht : t ∈ hands (.setPoll t poll_condition poll_arg : Worker V) :=
      Multiset.mem_singleton_self t
    simp only [workerStep, hpc] at hs
    simp only [label, hpc]
    obtain ⟨task, -, -, rfl, -⟩ := ho.of_access hpc ht hs
    refine follows_hands ho hpc rfl rfl rfl rfl
      (fun u hu => Function.update_of_ne (ne_of_mem_of_not_mem ht hu).symm _ _) rfl
      (fun u task' hu htask' _ => ?_) fun _ _ => rfl
    obtain rfl := Multiset.mem_singleton.mp hu
    exact ⟨_, Function.update_self .., trivial, goes_none u _⟩
  | wake t wakers resume =>
    cases wakers with
    | nil =>
      simp only [workerStep, hpc] at hs
      simp only [label, hpc]
      cases hs
      refine follows_walk ho hpc (by cases resume <;> rfl) (fun u task hu _ hpolls => ?_)
        fun _ _ => rfl
      obtain rfl := Multiset.mem_singleton.mp hu
      simp only [Polls] at hpolls
      cases resume with
      | true =>
        refine ⟨trivial, ?_⟩
        simp only [heldPhase, queuedPhase, hpolls, afterPoll, afterWake, if_true]
        exact goes_none u _
      | false =>
        refine ⟨trivial, ?_⟩
        simp only [heldPhase, afterWake, if_true]
        exact goes_none u _
    | cons waker wakers =>
      have ht : t ∈ hands (.wake t (waker :: wakers) resume : Worker V) :=
        Multiset.mem_cons_self t (waker :: wakers : List ℕ)
      have hw : waker ∈ hands (.wake t (waker :: wakers) resume : Worker V) :=
        Multiset.mem_cons_of_mem (Multiset.mem_cons_self waker (wakers : Multiset ℕ))
      have hne := waker_ne ho hpc
      simp only [workerStep, hpc] at hs
      simp only [label, hpc]
      obtain ⟨task, -, -, rfl, -⟩ := ho.of_accessFrame hpc ht (fun _ h => h) hs
      refine follows_push ho hpc (contents_priorityPush _ _) ?_ (fun task _ hpolls => ?_)
        (fun u task _ hu _ hpolls => ⟨hpolls, goes_of_ne (Ne.symm hu) _ _⟩)
        fun u hu => eventOf_ne (ne_of_mem_of_not_mem hw hu) _
      · rw [hands, hands, ← Multiset.cons_coe, Multiset.cons_swap]
      · simp only [Polls] at hpolls
        simp only [heldPhase, if_neg hne, queuedPhase, hpolls, afterPoll]
        exact goes_self .woken
  | enqueue t =>
    simp only [workerStep, hpc, pushTask] at hs
    simp only [label, hpc]
    cases hs
    exact follows_push ho hpc (contents_push _ _) rfl (fun task _ _ => goes_none t _)
      (fun u task hu _ _ _ => absurd hu (Multiset.notMem_zero u)) fun _ _ => rfl
  | release t =>
    have ht : t ∈ hands (.release t : Worker V) := Multiset.mem_singleton_self t
    obtain ⟨task, htask, hframe⟩ := ho.task_of_hands hpc ht
    simp only [workerStep, hpc, htask, show task.coroutine.frame = true from hframe, if_true] at hs
    simp only [label, hpc]
    cases hs
    refine follows_hands ho hpc rfl rfl rfl rfl
      (fun u hu => Function.update_of_ne (ne_of_mem_of_not_mem ht hu).symm _ _) rfl
      (fun u task' hu htask' _ => ?_) fun u hu => eventOf_ne (ne_of_mem_of_not_mem ht hu) _
    obtain rfl := Multiset.mem_singleton.mp hu
    exact ⟨_, Function.update_self .., trivial, goes_self .released⟩
  | free t =>
    simp only [workerStep, hpc] at hs
    simp only [label, hpc]
    obtain ⟨task, -, -, rfl, -⟩ := ho.of_access hpc (Multiset.mem_singleton_self t) hs
    exact follows_remove ho hpc
  | fetchSub =>
    simp only [workerStep, hpc] at hs
    simp only [label, hpc]
    cases hs
    exact follows_free hpc rfl (fun _ => rfl) rfl rfl rfl rfl
  | pollCondition t poll_condition poll_arg | running t | mustSleep t must_sleep arg published
  | exited | fatal | fault => simp [workerStep, hpc] at hs

omit [NeZero n] in
theorem requestStep_follows {s s' : State n V} (ho : Owned s) {i : Fin n} {t : ℕ}
    {request : Request V} {e : Event n} (hpc : s.worker i = .running t)
    (hm : may s (.request i request)) (hs : requestStep s i t request = some (s', e)) :
    Follows s s' (some (t, .requested request)) := by
  have ht : t ∈ hands (.running t : Worker V) := Multiset.mem_singleton_self t
  cases request with
  | ret result =>
    obtain ⟨task, htask, -, rfl, -⟩ := ho.of_accessFrame hpc ht (fun _ h => h) hs
    refine follows_hands ho hpc rfl rfl rfl rfl
      (fun u hu => Function.update_of_ne (ne_of_mem_of_not_mem ht hu).symm _ _) rfl
      (fun u task' hu htask' hpolls => ?_) fun u hu => eventOf_ne (ne_of_mem_of_not_mem ht hu) _
    obtain rfl := Multiset.mem_singleton.mp hu
    obtain rfl := Option.some.inj (htask.symm.trans htask')
    refine ⟨_, Function.update_self .., hpolls, ?_⟩
    simp only [heldPhase, if_true]
    exact goes_self (.requested _)
  | wake wakers resume =>
    obtain ⟨task, -, -, rfl, -⟩ := ho.of_accessFrame hpc ht (fun _ h => h) hs
    exact follows_request_wake ho hpc hm
  | fork fn arg | poll poll_condition poll_arg | sleep must_sleep arg =>
    obtain ⟨task, -, -, rfl, -⟩ := ho.of_accessFrame hpc ht (fun _ h => h) hs
    refine follows_walk ho hpc rfl (fun u task' hu _ hpolls => ⟨hpolls, ?_⟩)
      fun u hu => eventOf_ne (ne_of_mem_of_not_mem ht hu) _
    obtain rfl := Multiset.mem_singleton.mp hu
    simp only [heldPhase, if_true]
    exact goes_self (.requested _)

theorem step_follows {s s' : State n V} (ho : Owned s) {a : Action n V} {e : Event n}
    (hm : may s a) (hs : step s a = some (s', e)) : Follows s s' (label s a) := by
  cases a with
  | main =>
    obtain ⟨main, rfl, -⟩ := mainStep_cases hs
    exact follows_main main
  | worker i => exact workerStep_follows ho hs
  | request i request =>
    simp only [step] at hs
    split at hs
    · rename_i t hpc
      simp only [label, hpc]
      exact requestStep_follows ho hpc hm hs
    · cases hs
  | condition i result =>
    simp only [step] at hs
    split at hs
    · rename_i t c arg hpc
      cases hs
      simp only [label, hpc]
      exact condition_follows ho hpc result
    · cases hs
  | publish i =>
    simp only [step] at hs
    split at hs
    · rename_i t must_sleep arg published hpc
      obtain rfl : published = false := by simpa only [may, hpc, Scheduler.published] using hm
      cases hs
      simp only [label, hpc]
      exact follows_publish ho hpc
    · cases hs
  | answer i result =>
    simp only [step] at hs
    split at hs
    · rename_i t must_sleep arg published hpc
      obtain rfl : result = published := by simpa only [may, hpc, Scheduler.published] using hm
      cases hs
      simp only [label, hpc]
      cases result with
      | false =>
        have ht : t ∈ hands (.mustSleep t must_sleep arg false : Worker V) :=
          Multiset.mem_singleton_self t
        refine follows_walk ho hpc rfl (fun u task hu _ hpolls => ⟨trivial, ?_⟩)
          fun u hu => eventOf_ne (ne_of_mem_of_not_mem ht hu) _
        obtain rfl := Multiset.mem_singleton.mp hu
        simp only [Polls] at hpolls
        simp only [heldPhase, queuedPhase, hpolls, afterPoll]
        exact goes_self .declined
      | true => exact follows_free hpc rfl (fun _ => rfl) rfl rfl rfl rfl
    · cases hs

def Scheduled (s : State n V) : Prop :=
  ∀ t, s.created ≤ t ∨ t ∈ contents (s.queue 0) ∧ ∃ task, s.tasks t = some task ∧
    task.poll_condition = none

theorem scheduled_schedule {s : State n V} (h : Scheduled s) (fn arg : V) :
    Scheduled (scheffSchedule s fn arg) := by
  intro t
  simp only [scheffSchedule, setQueue, newTask, Function.update_self, contents_push]
  by_cases ht : t = s.created
  · subst ht
    exact .inr ⟨Multiset.mem_add.mpr (.inr (Multiset.mem_singleton_self _)), _,
      Function.update_self .., rfl⟩
  · rw [Function.update_of_ne ht]
    obtain hle | ⟨hmem, htask⟩ := h t
    · exact .inl (by omega)
    · exact .inr ⟨Multiset.mem_add.mpr (.inl hmem), htask⟩

theorem lives_init {s : State n V} (h : (lifeSystem n V).init s) (t : ℕ) :
    ∃ p, Lives (history t []) p ∧ Fits s t p := by
  obtain ⟨tasks, rfl⟩ := h
  have hs : Scheduled (tasks.foldl (fun s p => scheffSchedule s p.1 p.2) (scheffInit n V)) :=
    List.foldlRecOn tasks _ (fun t => .inl (Nat.zero_le t)) fun s hs p _ =>
      scheduled_schedule hs p.1 p.2
  obtain hle | ⟨hmem, task, htask, hpoll⟩ := hs t
  · exact ⟨_, .unborn, .unborn hle⟩
  · refine ⟨_, .scheduled, ?_⟩
    have hfits := Fits.queued 0 hmem htask
    rwa [queuedPhase, hpoll, afterPoll] at hfits

/-- Whatever the interleaving, every task lives its life, and is where its phase
says. -/
theorem scheffRun_lives {tr : List (Option (ℕ × TaskEvent V))} {s : State n V}
    (h : Run (lifeSystem n V) tr s) (t : ℕ) : ∃ p, Lives (history t tr) p ∧ Fits s t p := by
  refine (Run.invariant (fun tr s => Owned s ∧ ∀ t, ∃ p, Lives (history t tr) p ∧ Fits s t p)
    ?_ ?_ h).2 t
  · intro s hs
    exact ⟨run_owned (Run.start hs), lives_init hs⟩
  · intro tr s a s' e ⟨ho, hlives⟩ hm hs
    obtain ⟨p, hp, he⟩ := Option.map_eq_some_iff.mp hs
    cases he
    refine ⟨owned_step ho hm hp, fun t => ?_⟩
    obtain ⟨q, hlife, hfits⟩ := hlives t
    obtain ⟨q', hfits', hgoes⟩ := step_follows ho hm hp t q hfits
    exact ⟨q', lives_goes hlife hgoes, hfits'⟩

end Steps

end Libseff.TaskHistories
