import Libseff.SchedulerCounter

namespace Libseff.TaskLives

open SlotQueues TransitionRuns Scheduler SchedulerPlaces SchedulerMoves SchedulerOwner
  SchedulerRuns SchedulerCounter

variable {n : ℕ} {V : Type}

/-- What a task waits for, as the client of the scheduler sees it. -/
inductive Phase (V : Type) where
  | unborn
  | ready
  | running
  | polling (poll_condition : V) (poll_arg : Option V)
  | asking
  | asleep
  | done
  | gone

inductive TaskEvent (V : Type) where
  | created
  | resumed
  | requested (request : Request V)
  | tested (poll_condition : V) (poll_arg : Option V) (result : Bool)
  | published
  | declined
  | woken
  | released

def afterPoll (poll_condition poll_arg : Option V) : Phase V :=
  match poll_condition with
  | some c => .polling c poll_arg
  | none => .ready

def afterWake (resume : Bool) : Phase V := if resume then .ready else .done

def afterRequest : Request V → Phase V
  | .ret _ => .done
  | .fork _ _ => .ready
  | .poll poll_condition poll_arg => afterPoll poll_condition poll_arg
  | .sleep _ _ => .asking
  | .wake _ resume => afterWake resume

inductive Life : Phase V → TaskEvent V → Phase V → Prop
  | created : Life .unborn .created .ready
  | resumed : Life .ready .resumed .running
  | requested (request : Request V) : Life .running (.requested request) (afterRequest request)
  | testedFalse (c : V) (arg : Option V) :
      Life (.polling c arg) (.tested c arg false) (.polling c arg)
  | testedTrue (c : V) (arg : Option V) : Life (.polling c arg) (.tested c arg true) .ready
  | published : Life .asking .published .asleep
  | declined : Life .asking .declined .ready
  | woken : Life .asleep .woken .ready
  | released : Life .done .released .gone

/-- The events of a task that leads this life, from its creation by a fork or by
`scheff_schedule`. -/
inductive Lives : List (TaskEvent V) → Phase V → Prop
  | unborn : Lives [] .unborn
  | scheduled : Lives [] .ready
  | next {l : List (TaskEvent V)} {p q : Phase V} {e : TaskEvent V} (h : Lives l p)
      (hl : Life p e q) : Lives (l ++ [e]) q

section Label

variable [NeZero n]

def label (s : State n V) : Action n V → Option (ℕ × TaskEvent V)
  | .main => none
  | .worker i =>
    match s.worker i with
    | .resume t => some (t, .resumed)
    | .forkMalloc _ _ _ => some (s.created, .created)
    | .wake _ (waker :: _) _ => some (waker, .woken)
    | .release t => some (t, .released)
    | _ => none
  | .request i request =>
    match s.worker i with
    | .running t => some (t, .requested request)
    | _ => none
  | .condition i result =>
    match s.worker i with
    | .pollCondition t c arg => some (t, .tested c arg result)
    | _ => none
  | .publish i =>
    match s.worker i with
    | .mustSleep t _ _ _ => some (t, .published)
    | _ => none
  | .answer i result =>
    match s.worker i with
    | .mustSleep t _ _ _ => if result then none else some (t, .declined)
    | _ => none

def lifeSystem (n : ℕ) (V : Type) [NeZero n] :
    System (State n V) (Action n V) (Option (ℕ × TaskEvent V)) :=
  (scheffSystem n V).relabel label

end Label

def eventOf (t : ℕ) : Option (ℕ × TaskEvent V) → Option (TaskEvent V)
  | some (u, e) => if u = t then some e else none
  | none => none

def history (t : ℕ) (tr : List (Option (ℕ × TaskEvent V))) : List (TaskEvent V) :=
  tr.filterMap (eventOf t)

def queuedPhase (task : ScheffTask V) : Phase V := afterPoll task.poll_condition task.poll_arg

def heldPhase (t : ℕ) (task : ScheffTask V) : Worker V → Phase V
  | .checkState _ | .checkPoll _ | .enqueue _ => queuedPhase task
  | .pollCondition _ c arg => .polling c arg
  | .running _ => .running
  | .caseSwitch u request => if t = u then afterRequest request else .asleep
  | .setPoll _ c arg => afterPoll c arg
  | .mustSleep _ _ _ _ => .asking
  | .wake u _ resume => if t = u then afterWake resume else .asleep
  | .release _ => .done
  | .free _ => .gone
  | _ => .ready

def Polls (task : ScheffTask V) : Worker V → Prop
  | .checkState _ | .checkPoll _ | .clearPoll _ | .enqueue _ | .release _ | .free _ => True
  | .pollCondition _ c arg => task.poll_condition = some c ∧ task.poll_arg = arg
  | _ => task.poll_condition = none

inductive Fits (s : State n V) (t : ℕ) : Phase V → Prop
  | unborn (h : s.created ≤ t) : Fits s t .unborn
  | queued (j : Fin n) {task : ScheffTask V} (h : t ∈ contents (s.queue j))
      (htask : s.tasks t = some task) : Fits s t (queuedPhase task)
  | held (i : Fin n) {task : ScheffTask V} (h : t ∈ hands (s.worker i))
      (htask : s.tasks t = some task) (hpolls : Polls task (s.worker i)) :
      Fits s t (heldPhase t task (s.worker i))
  | asleep {task : ScheffTask V} (h : t ∈ s.wakers) (htask : s.tasks t = some task)
      (hpolls : task.poll_condition = none) : Fits s t .asleep
  | gone (h : t < s.created) (htask : s.tasks t = none) : Fits s t .gone

def Goes (e : Option (ℕ × TaskEvent V)) (t : ℕ) (p q : Phase V) : Prop :=
  match eventOf t e with
  | some e => Life p e q
  | none => q = p

theorem goes_none (t : ℕ) (p : Phase V) : Goes none t p p := rfl

theorem goes_of_ne {u t : ℕ} (h : u ≠ t) (e : TaskEvent V) (p : Phase V) :
    Goes (some (u, e)) t p p := by
  simp only [Goes, eventOf, if_neg h]

theorem goes_self {t : ℕ} {e : TaskEvent V} {p q : Phase V} (h : Life p e q) :
    Goes (some (t, e)) t p q := by
  simpa only [Goes, eventOf, if_true] using h

theorem lives_goes {t : ℕ} {tr : List (Option (ℕ × TaskEvent V))} {e : Option (ℕ × TaskEvent V)}
    {p q : Phase V} (h : Lives (history t tr) p) (hg : Goes e t p q) :
    Lives (history t (tr ++ [e])) q := by
  rw [history, List.filterMap_append, ← history]
  simp only [Goes] at hg
  cases he : eventOf t e with
  | none =>
    rw [he] at hg
    subst hg
    simpa [he] using h
  | some ev =>
    rw [he] at hg
    simpa [he] using Lives.next h hg

theorem task_of_place {s : State n V} (h : Owned s) {t : ℕ} (ht : t ∈ places s) :
    t < s.created ∧ ∃ task, s.tasks t = some task := by
  rw [h.places_eq, Finset.mem_val, mem_liveTasks] at ht
  exact ⟨ht.1, Option.isSome_iff_exists.mp ht.2⟩

theorem place_of_hands {s : State n V} {i : Fin n} {t : ℕ} (ht : t ∈ hands (s.worker i)) :
    t ∈ places s := by
  rw [places, Multiset.mem_add, Multiset.mem_add]
  exact .inl (.inr (Multiset.mem_sum.mpr ⟨i, Finset.mem_univ i, ht⟩))

theorem place_of_queue {s : State n V} {j : Fin n} {t : ℕ} (ht : t ∈ contents (s.queue j)) :
    t ∈ places s := by
  rw [places, Multiset.mem_add, Multiset.mem_add]
  exact .inl (.inl (Multiset.mem_sum.mpr ⟨j, Finset.mem_univ j, ht⟩))

theorem fits_hands {s : State n V} (ho : Owned s) {t : ℕ} {p : Phase V} (h : Fits s t p)
    {i : Fin n} (ht : t ∈ hands (s.worker i)) : ∃ task, s.tasks t = some task ∧
      Polls task (s.worker i) ∧ p = heldPhase t task (s.worker i) := by
  obtain ⟨hqueue, hothers, hwakers⟩ := only_hands ho ht
  obtain ⟨hlt, task, htask⟩ := task_of_place ho (place_of_hands ht)
  cases h with
  | unborn hle => exact absurd hlt (Nat.not_lt.mpr hle)
  | queued j hj => exact absurd hj (hqueue j)
  | held j hj htask' hpolls =>
    by_cases hji : j = i
    · subst hji
      exact ⟨_, htask', hpolls, rfl⟩
    · exact absurd hj (hothers j hji)
  | asleep hw => exact absurd hw hwakers
  | gone _ hnone =>
    rw [hnone] at htask
    cases htask

theorem fits_queue {s : State n V} (ho : Owned s) {t : ℕ} {p : Phase V} (h : Fits s t p)
    {j : Fin n} (ht : t ∈ contents (s.queue j)) :
    ∃ task, s.tasks t = some task ∧ p = queuedPhase task := by
  have hnodup : (places s).Nodup := ho.places_eq ▸ (liveTasks s).nodup
  rw [places, Multiset.nodup_add] at hnodup
  have hmem : t ∈ ∑ j, contents (s.queue j) + ∑ i, hands (s.worker i) :=
    Multiset.mem_add.mpr (.inl (Multiset.mem_sum.mpr ⟨j, Finset.mem_univ j, ht⟩))
  obtain ⟨hlt, task, htask⟩ := task_of_place ho (place_of_queue ht)
  cases h with
  | unborn hle => exact absurd hlt (Nat.not_lt.mpr hle)
  | queued _ _ htask' => exact ⟨_, htask', rfl⟩
  | held i hi => exact absurd ht ((only_hands ho hi).1 j)
  | asleep hw => exact absurd hw (Multiset.disjoint_left.mp hnodup.2.2 hmem)
  | gone _ hnone =>
    rw [hnone] at htask
    cases htask

theorem fits_wakers {s : State n V} (ho : Owned s) {t : ℕ} {p : Phase V} (h : Fits s t p)
    (ht : t ∈ s.wakers) : ∃ task, s.tasks t = some task ∧ task.poll_condition = none ∧
      p = .asleep := by
  cases h with
  | unborn hle =>
    obtain ⟨task, htask, -⟩ := ho.wakers t ht
    rw [ho.fresh t hle] at htask
    cases htask
  | queued j hj htask =>
    have hnodup : (places s).Nodup := ho.places_eq ▸ (liveTasks s).nodup
    rw [places, Multiset.nodup_add] at hnodup
    have hmem : t ∈ ∑ j, contents (s.queue j) + ∑ i, hands (s.worker i) :=
      Multiset.mem_add.mpr (.inl (Multiset.mem_sum.mpr ⟨j, Finset.mem_univ j, hj⟩))
    exact absurd ht (Multiset.disjoint_left.mp hnodup.2.2 hmem)
  | held i hi => exact absurd ht (only_hands ho hi).2.2
  | asleep _ htask hpolls => exact ⟨_, htask, hpolls, rfl⟩
  | gone _ hnone =>
    obtain ⟨task, htask, -⟩ := ho.wakers t ht
    rw [hnone] at htask
    cases htask

theorem fits_frame {s s' : State n V} {t : ℕ} {p : Phase V} (h : Fits s t p) {i : Fin n}
    (ht : t ∉ hands (s.worker i)) (hworker : ∀ j, j ≠ i → s'.worker j = s.worker j)
    (htask : s'.tasks t = s.tasks t)
    (hqueue : ∀ j, t ∈ contents (s.queue j) → t ∈ contents (s'.queue j))
    (hwakers : t ∈ s.wakers → t ∈ s'.wakers) (hcreated : s'.created ≤ t ↔ s.created ≤ t) :
    Fits s' t p := by
  cases h with
  | unborn hle => exact .unborn (hcreated.mpr hle)
  | queued j hj htask' => exact .queued j (hqueue j hj) (htask.trans htask')
  | held j hj htask' hpolls =>
    have hji : j ≠ i := fun he => ht (he ▸ hj)
    have hsame := hworker j hji
    rw [← hsame] at hj hpolls ⊢
    exact .held j hj (htask.trans htask') hpolls
  | asleep hw htask' hpolls => exact .asleep (hwakers hw) (htask.trans htask') hpolls
  | gone hlt hnone =>
    exact .gone (Nat.lt_of_not_le fun hle => Nat.not_lt.mpr (hcreated.mp hle) hlt)
      (htask.trans hnone)

end Libseff.TaskLives
