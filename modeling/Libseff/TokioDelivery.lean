import Libseff.TokioSafety

namespace Libseff.TokioDelivery

open CircularArrays TransitionRuns TokioSteps TokioInvariant TokioPush TokioQueue TokioSafety

variable {ι α : Type}

theorem inv_subperm {tr : List (Event ι α)} {s : State ι α} (h : Inv tr s) :
    (returned tr).Subperm (pushed tr) :=
  ((List.sublist_append_left _ _).subperm.trans h.account.symm.subperm).trans
    List.filter_sublist.subperm

theorem push_head {junk : ℤ → QueueElt α} {elt : QueueElt α} {q q' : TkQueue α} {pc : Push α}
    {o : Outcome (Push α) Unit} (hq : tkQueuePush junk elt q pc = (q', o)) : q'.head = q.head := by
  cases pc <;> simp only [tkQueuePush] at hq <;> (try split at hq) <;> cases hq <;> rfl

theorem priorityPush_head (elt : QueueElt α) (q : TkQueue α) :
    (tkQueuePriorityPush elt q).1.head = q.head := by
  rw [tkQueuePriorityPush]
  split <;> rfl

theorem pop_head {q q' : TkQueue α} {o : Outcome (Take α) (QueueElt α)}
    (hq : tkQueuePop q = (q', o)) : q'.head = q.head := by
  rw [tkQueuePop] at hq
  split at hq <;> cases hq <;> rfl

theorem take_run {q q' : TkQueue α} {pc pc' : Take α} (hq : takeLoop q pc = (q', .run pc')) :
    q' = q := by
  cases pc <;> simp only [takeLoop] at hq <;> (try split at hq) <;> cases hq <;> rfl

theorem take_head {q q' : TkQueue α} {pc : Take α} {r : QueueElt α}
    (hq : takeLoop q pc = (q', .done r)) (hh : q'.head ≠ q.head) :
    q'.head = q.head + 1 ∧ ∃ arr, pc = .cas arr q.head r := by
  obtain ⟨rfl, -⟩ | ⟨arr, rfl, rfl⟩ := take_done hq
  · exact absurd rfl hh
  · exact ⟨rfl, arr, rfl⟩

theorem ownerStep_event {junk : ℤ → QueueElt α} {q q' : TkQueue α} {o o' : Owner α}
    {e : Event ι α} (hs : ownerStep ι junk q o = some (q', o', e)) :
    e.called = none ∧ (q'.head ≠ q.head → q'.head = q.head + 1 ∧
      ∃ arr r, e.result = some r ∧ o = .popLoop (.cas arr q.head r)) := by
  cases o with
  | idle => cases hs
  | push elt pc =>
    simp only [ownerStep] at hs
    rcases hq : tkQueuePush junk elt q pc with ⟨q1, pc' | ⟨⟩⟩ <;> cases hq ▸ hs <;>
      exact ⟨rfl, fun hh => absurd (push_head hq) hh⟩
  | priorityPush elt =>
    cases hs
    exact ⟨rfl, fun hh => absurd (priorityPush_head elt q) hh⟩
  | pop =>
    simp only [ownerStep] at hs
    rcases hq : tkQueuePop q with ⟨q1, pc' | r⟩ <;> cases hq ▸ hs <;>
      exact ⟨rfl, fun hh => absurd (pop_head hq) hh⟩
  | popLoop pc =>
    simp only [ownerStep] at hs
    rcases hq : takeLoop q pc with ⟨q1, pc' | r⟩ <;> cases hq ▸ hs
    · exact ⟨rfl, fun hh => absurd (congrArg TkQueue.head (take_run hq)) hh⟩
    · refine ⟨rfl, fun hh => ?_⟩
      obtain ⟨hn, arr, rfl⟩ := take_head hq hh
      exact ⟨hn, arr, r, rfl, rfl⟩

theorem thiefStep_event {i : ι} {q q' : TkQueue α} {t t' : Thief α} {e : Event ι α}
    (hs : thiefStep i q t = some (q', t', e)) :
    e.called = none ∧ (q'.head ≠ q.head → q'.head = q.head + 1 ∧
      ∃ arr r, e.result = some r ∧ t = .steal (.cas arr q.head r)) := by
  cases t with
  | idle => cases hs
  | steal pc =>
    simp only [thiefStep, tkQueueSteal] at hs
    rcases hq : takeLoop q pc with ⟨q1, pc' | r⟩ <;> cases hq ▸ hs
    · exact ⟨rfl, fun hh => absurd (congrArg TkQueue.head (take_run hq)) hh⟩
    · refine ⟨rfl, fun hh => ?_⟩
      obtain ⟨hn, arr, rfl⟩ := take_head hq hh
      exact ⟨hn, arr, r, rfl, rfl⟩

variable [DecidableEq ι]

theorem step_event {s s' : State ι α} {a : Action ι α} {e : Event ι α}
    (hs : step s a = some (s', e)) :
    (∀ r, e.result = some r → e.called = none) ∧
    (s'.queue.head ≠ s.queue.head → s'.queue.head = s.queue.head + 1 ∧
      ∃ arr r, e.result = some r ∧ (s.owner = .popLoop (.cas arr s.queue.head r) ∨
        ∃ i, a = .thief i ∧ s.thief i = .steal (.cas arr s.queue.head r))) := by
  cases a with
  | owner junk =>
    simp only [step, Option.map_eq_some_iff] at hs
    obtain ⟨⟨q, o, e⟩, ho, he⟩ := hs
    cases he
    obtain ⟨hc, hhead⟩ := ownerStep_event ho
    refine ⟨fun r _ => hc, fun hh => ?_⟩
    obtain ⟨hn, arr, r, hr, hpc⟩ := hhead hh
    exact ⟨hn, arr, r, hr, .inl hpc⟩
  | thief i =>
    simp only [step, Option.map_eq_some_iff] at hs
    obtain ⟨⟨q, t, e⟩, ht, he⟩ := hs
    cases he
    obtain ⟨hc, hhead⟩ := thiefStep_event ht
    refine ⟨fun r _ => hc, fun hh => ?_⟩
    obtain ⟨hn, arr, r, hr, hpc⟩ := hhead hh
    exact ⟨hn, arr, r, hr, .inr ⟨i, rfl, hpc⟩⟩
  | _ =>
    simp only [step] at hs
    split at hs <;> cases hs
    exact ⟨fun r hr => (by cases hr), fun hh => absurd rfl hh⟩

/-- Every element is returned at most once, every result was pushed and not yet
returned, and no element is skipped, as long as no steal takes an element that
the array it loaded never held. -/
theorem tkQueue_exactlyOnce (log_size : ℕ) :
    ExactlyOnce ((tkSystem ι α log_size).restrict holdsElement) := by
  intro tr s h
  have hi := run_inv h
  refine ⟨inv_subperm hi, fun a s' e (hm : True ∧ holdsElement s a) hs =>
    ⟨fun r hr hne => ?_, fun hh => ?_⟩⟩
  · have hsub := inv_subperm (inv_step hi hm.2 hs)
    rw [returned_append, pushed_append, hr, (step_event hs).1 r hr] at hsub
    simp only [Option.toList_some, Option.toList_none, List.append_nil, occupied,
      List.filter_cons, hne, if_true, List.filter_nil] at hsub
    exact (List.perm_append_singleton r _).symm.subperm.trans hsub
  · obtain ⟨hn, arr, r, hr, ho | ⟨i, rfl, ht⟩⟩ := (step_event hs).2 hh
    · have hown := hi.owner
      rw [ho] at hown
      obtain ⟨⟨-, -, hlt, hget⟩, harr⟩ := hown
      obtain rfl := harr arr rfl
      have hget' := hget rfl (hlt.trans_eq (bound_current hi.queue).symm)
      exact ⟨hn, hi.queue.head_nonneg, r, hget', hr⟩
    · have hth := hi.thief i
      rw [ht] at hth
      obtain ⟨-, -, hlt, hget⟩ := hth
      exact ⟨hn, hi.queue.head_nonneg, r, hget rfl (lt_bound hlt (hm.2 _ _ _ ht rfl)), hr⟩

/-- A steal loads the array, a push replaces it, the owner pops the element at
index zero, and the steal takes index one from the array it loaded. -/
theorem not_exactlyOnce : ¬ ExactlyOnce (tkSystem Unit ℕ 0) := by
  intro h
  let o : TokioSteps.Action Unit ℕ := .owner fun _ => .EMPTY
  let t : TokioSteps.Action Unit ℕ := .thief ()
  obtain ⟨tr, s, hrun, he⟩ := Run.exists_of_exec (S := tkSystem Unit ℕ 0)
    (fun _ _ (_ : true = true) => trivial)
    [.callPush (.task 1), o, o, o, o, o, .callSteal (), t, .callPush (.task 2),
      o, o, o, o, o, o, o, o, .callPop, o, o, o, o, o, o, t, t, t, t]
    ⟨fun _ => .EMPTY, rfl⟩ (fun p => (pushed p.2, returned p.2)) rfl
  simp only [Prod.mk.injEq] at he
  obtain ⟨hp, hr⟩ := he
  have hsub := (h tr s hrun).1.count_le (.task 1)
  rw [hp, hr] at hsub
  exact absurd hsub (by decide)

end Libseff.TokioDelivery
