import Libseff.LockedQueueOwner

namespace Libseff.LockedQueueLinear

open CircularArrays TransitionRuns AtomicObjects SlotQueues LockedQueue LockedQueueSections
  LockedQueueSim LockedQueueOwner

variable {ι α : Type} [DecidableEq ι]

variable {s : State ι α} {a : SlotQueue α} {p : Option ι → Phase (Op α) (Option α)}
  {hist : List (HistoryEvent (Option ι) (Op α) (Option α))}

theorem sim_thief (h : Sim s a p) {a' : SlotQueue α} {i : ι} {q : TlQueue α} {t : Thief α}
    (hq : Holds a'.items q (ownerArray q s.owner)) (hslot : a'.slot = a.slot)
    (hbuf : q.buffer = s.queue.buffer) (ho : OwnerInv a'.items q s.owner)
    (hothers : ∀ j, j ≠ i → ThiefInv a'.items q (s.thief j)) (ht : ThiefInv a'.items q t)
    (hlock : insideThief t = true → q.locked = true ∧ insideOwner s.owner = false ∧
      ∀ j, j ≠ i → insideThief (s.thief j) = false)
    (hlock' : (insideOwner s.owner = true ∨ ∃ j, j ≠ i ∧ insideThief (s.thief j) = true) →
      q.locked = true) :
    Sim { s with queue := q, thief := Function.update s.thief i t } a'
      (Function.update p (some i) (thiefPhase t)) := by
  refine ⟨hq, ?_, ho, ?_, ?_, ?_, ?_, ?_⟩
  · rw [hslot, h.slot, hbuf]
  · intro j
    by_cases hj : j = i
    · subst hj
      simpa using ht
    · simpa [hj] using hothers j hj
  · exact (Function.update_of_ne (Option.some_ne_none i).symm _ _).trans h.phase_owner
  · intro j
    by_cases hj : j = i
    · subst hj
      simp
    · have hji : (some j : Option ι) ≠ some i := fun he => hj (Option.some.inj he)
      rw [Function.update_of_ne hji, h.phase_thief j]
      simp [hj]
  · intro hin
    refine ⟨hlock' (.inl hin), fun j => ?_⟩
    by_cases hj : j = i
    · subst hj
      cases ht' : insideThief t with
      | false => simpa using ht'
      | true =>
        have := (hlock ht').2.1
        rw [hin] at this
        cases this
    · simpa [hj] using (h.owner_locked hin).2 j
  · intro j hin
    by_cases hj : j = i
    · subst hj
      simp only [Function.update_self] at hin
      obtain ⟨h1, -, h3⟩ := hlock hin
      refine ⟨h1, fun k hk => ?_⟩
      by_contra hkj
      simp only [Function.update_of_ne hkj] at hk
      rw [h3 k hkj] at hk
      cases hk
    · simp only [Function.update_of_ne hj] at hin
      refine ⟨hlock' (.inr ⟨j, hj, hin⟩), fun k hk => ?_⟩
      by_cases hki : k = i
      · subst hki
        simp only [Function.update_self] at hk
        rw [(hlock hk).2.2 j hj] at hin
        cases hin
      · simp only [Function.update_of_ne hki] at hk
        exact (h.thief_locked j hin).2 k hk

theorem thief_local (h : Sim s a p) {i : ι} {t : Thief α} (hout : insideThief t = false) :
    Sim { s with thief := Function.update s.thief i t } a
      (Function.update p (some i) (thiefPhase t)) := by
  refine sim_thief h h.holds rfl rfl h.owner (fun j _ => h.thief j) (thiefInv_outside hout) ?_ ?_
  · intro ht
    rw [hout] at ht
    cases ht
  · rintro (hin | ⟨j, -, hin⟩)
    · exact (h.owner_locked hin).1
    · exact (h.thief_locked j hin).1

omit [DecidableEq ι] in
theorem outside_of_unlocked (h : Sim s a p) (hfree : s.queue.locked = false) :
    insideOwner s.owner = false ∧ ∀ j, insideThief (s.thief j) = false := by
  refine ⟨?_, fun j => ?_⟩
  · cases hin : insideOwner s.owner with
    | false => rfl
    | true =>
      have := (h.owner_locked hin).1
      rw [hfree] at this
      cases this
  · cases hin : insideThief (s.thief j) with
    | false => rfl
    | true =>
      have := (h.thief_locked j hin).1
      rw [hfree] at this
      cases this

theorem thief_acquire (h : Sim s a p) (i : ι) (hfree : s.queue.locked = false) :
    Sim { s with queue := { s.queue with locked := true },
                 thief := Function.update s.thief i (.steal .load) } a
      (Function.update p (some i) (.pending .steal)) := by
  obtain ⟨hout, hthief⟩ := outside_of_unlocked h hfree
  have hq := h.holds
  rw [ownerArray_outside hout] at hq
  refine sim_thief h (t := .steal .load) ?_ rfl rfl (ownerInv_locked h.owner true)
    (fun j _ => thiefInv_outside (hthief j)) trivial ?_ (fun _ => rfl)
  · rw [ownerArray_outside hout]
    exact hq
  · exact fun _ => ⟨rfl, hout, fun j _ => hthief j⟩

omit [DecidableEq ι] in
theorem thief_alone (h : Sim s a p) {i : ι} (hin : insideThief (s.thief i) = true) :
    insideOwner s.owner = false ∧ ∀ j, j ≠ i → insideThief (s.thief j) = false := by
  refine ⟨?_, fun j hj => ?_⟩
  · cases ho : insideOwner s.owner with
    | false => rfl
    | true =>
      have := (h.owner_locked ho).2 i
      rw [hin] at this
      cases this
  · cases hj' : insideThief (s.thief j) with
    | false => rfl
    | true => exact absurd ((h.thief_locked i hin).2 j hj') hj

theorem thief_inside (h : Sim s a p) (a' : SlotQueue α) {i : ι} {q : TlQueue α} {t : Thief α}
    (hin : insideThief (s.thief i) = true) (hlock : insideThief t = true → q.locked = true)
    (hq : Holds a'.items q q.array) (hslot : a'.slot = a.slot)
    (hbuf : q.buffer = s.queue.buffer) (ht : ThiefInv a'.items q t) :
    Sim { s with queue := q, thief := Function.update s.thief i t } a'
      (Function.update p (some i) (thiefPhase t)) := by
  obtain ⟨hout, hothers⟩ := thief_alone h hin
  refine sim_thief h ?_ hslot hbuf (ownerInv_outside h.owner hout hbuf)
    (fun j hj => thiefInv_outside (hothers j hj)) ht ?_ ?_
  · rw [ownerArray_outside hout]
    exact hq
  · exact fun hi => ⟨hlock hi, hout, hothers⟩
  · rintro (ho | ⟨j, hj, hj'⟩)
    · rw [hout] at ho
      cases ho
    · rw [hothers j hj] at hj'
      cases hj'

theorem steal_answered (h : Sim s a p) (hl : Linearized (slotQueue α) hist a p) {i : ι}
    {pc : Take α} (hpc : s.thief i = .steal pc) {q : TlQueue α}
    {o : Outcome (Take α) (Option α)} (hq : takeLocked s.queue pc = some (q, o)) :
    o.Meets
      (fun pc' => Answered hist
        { s with queue := q, thief := Function.update s.thief i (.steal pc') } none)
      (fun r => Answered hist
        { s with queue := q, thief := Function.update s.thief i .idle }
        (some (.ret (some i) r))) := by
  have hphase : p (some i) = takePhase .steal pc := by rw [h.phase_thief, hpc]; rfl
  have hinv : TakeInv a.items s.queue pc := by
    have ht := h.thief i
    rwa [hpc] at ht
  cases hin : insideTake pc with
  | false =>
    cases pc with
    | acquire =>
      simp only [takeLocked] at hq
      split at hq
      · cases hq
        have hsim := thief_local h (i := i) (t := .steal .acquire) rfl
        rw [thiefPhase, update_phase hphase] at hsim
        exact answered_silent hl hsim
      · rename_i hlock
        cases hq
        have hsim := thief_acquire h i (Bool.eq_false_iff.mpr hlock)
        have hpending : p (some i) = .pending .steal := hphase
        rw [update_phase hpending] at hsim
        exact answered_silent hl hsim
    | _ => cases hin
  | true =>
    have hint : insideThief (s.thief i) = true := by rw [hpc]; exact hin
    obtain ⟨hout, -⟩ := thief_alone h hint
    have hholds := h.holds
    rw [ownerArray_outside hout] at hholds
    have hlocked := (h.thief_locked i hint).1
    obtain ⟨hbuf, ⟨pc', rfl, hr', hr, -, rfl, hi'⟩ | ⟨rfl, hr, hlock, hq'⟩ | ⟨r, rfl, rfl, rfl⟩⟩ :=
      take_step hholds hinv hin hq
    · have hsim := thief_inside h a (t := .steal pc') hint (fun _ => hlocked) hholds rfl rfl hi'
      rw [takePhase_pending hr] at hphase
      rw [thiefPhase, takePhase_pending hr', update_phase hphase] at hsim
      exact answered_silent hl hsim
    · rw [takePhase_pending hr] at hphase
      have hsim := thief_inside h ⟨a.slot, a.items.tail⟩
        (t := .steal (.release a.items.head?)) hint (fun _ => hlock.trans hlocked) hq' rfl hbuf
        trivial
      exact answered_silent (Linearized.point hl hphase) hsim
    · have hsim := thief_inside h a (t := .idle) (q := { s.queue with locked := false }) hint
        (fun he => by cases he) hholds rfl rfl trivial
      exact ⟨a, _, hsim, Linearized.ret hl hphase⟩

theorem sim_call (h : Sim s a p) (hl : Linearized (slotQueue α) hist a p) {op : Op α}
    {o : Owner α} (ho : s.owner = .idle) (hphase : ownerPhase o = .pending op)
    (hout : insideOwner o = false) (hslot : ownerSlot s.queue.buffer o = s.queue.buffer)
    (hinv : OwnerInv a.items s.queue o) :
    Answered hist { s with owner := o } (some (.call none op)) := by
  have hidle : p none = .idle := by rw [h.phase_owner, ho]; rfl
  have hslot' : a.slot = s.queue.buffer := by rw [h.slot, ho]; rfl
  have hsim := owner_local h (o := o) (by rw [ho]; rfl) hout (hslot'.trans hslot.symm) hinv
  rw [hphase] at hsim
  exact ⟨a, _, hsim, Linearized.call op hl hidle⟩

theorem step_answered (h : Sim s a p) (hl : Linearized (slotQueue α) hist a p)
    {x : Action ι α} (hm : mayRun s x) {s' : State ι α} {e : Event ι α}
    (hs : step s x = some (s', e)) : Answered hist s' e := by
  cases x with
  | callPush elt | callPriorityPush elt | callPop =>
    simp only [step] at hs
    split at hs
    · rename_i ho
      cases hs
      exact sim_call h hl ho rfl rfl rfl trivial
    · cases hs
  | owner new_array junk =>
    simp only [step, Option.bind_eq_bind, Option.bind_eq_some_iff] at hs
    obtain ⟨⟨q, o, e'⟩, ho, hs⟩ := hs
    cases hs
    exact owner_answered h hl hm ho
  | callSteal i =>
    simp only [step] at hs
    split at hs
    · rename_i ht
      cases hs
      have hidle : p (some i) = .idle := by rw [h.phase_thief, ht]; rfl
      have hsim := thief_local h (i := i) (t := .steal .acquire) rfl
      exact ⟨a, _, hsim, Linearized.call Op.steal hl hidle⟩
    · cases hs
  | thief i =>
    simp only [step, Option.bind_eq_bind, Option.bind_eq_some_iff] at hs
    obtain ⟨⟨q, t, e'⟩, ht, hs⟩ := hs
    cases hs
    cases hpc : s.thief i with
    | idle => simp [thiefStep, hpc] at ht
    | steal pc =>
      simp only [thiefStep, hpc, Option.bind_eq_bind, Option.bind_eq_some_iff] at ht
      obtain ⟨⟨q', out⟩, hq, ht⟩ := ht
      have hnext := steal_answered h hl hpc hq
      cases out with
      | run pc' | done r =>
        cases ht
        exact hnext

omit [DecidableEq ι] in
theorem sim_init (log_size array : ℕ) (junk : ℤ → Option α) :
    Sim (⟨tlQueueInit log_size array junk, .idle, fun _ => .idle⟩ : State ι α)
      (slotQueue α).init (fun _ => .idle) := by
  have hwf := circularArrayNew_wellFormed log_size junk
  have harr : (tlQueueInit log_size array junk).arrays array =
      some (circularArrayNew log_size junk) := by simp [tlQueueInit]
  refine ⟨⟨le_rfl, _, harr, hwf, hwf.size_pos.le, ?_⟩, rfl, trivial, fun _ => trivial, rfl,
    fun _ => rfl, ?_, ?_⟩
  · exact caWindow_self _ _
  · intro he
    cases he
  · intro _ he
    cases he

theorem owner_progress (h : Sim s a p) (ho : s.owner ≠ .idle) (new_array : ℕ)
    (junk : ℤ → Option α) : ∃ r, step s (.owner new_array junk) = some r := by
  have hholds := h.holds
  have hinv := h.owner
  have hstep : ∃ r, ownerStep ι new_array junk s.queue s.owner = some r := by
    cases hpc : s.owner with
    | idle => exact absurd hpc ho
    | push elt pc =>
      rw [hpc] at hholds hinv
      obtain ⟨⟨q, out⟩, hr⟩ := push_progress hholds hinv new_array junk
      cases out <;> exact ⟨_, by
        simp only [ownerStep, hr, Option.bind_eq_bind, Option.bind_some]; rfl⟩
    | pushOld elt old_buffer pc =>
      rw [hpc] at hholds hinv
      obtain ⟨⟨q, out⟩, hr⟩ := push_progress hholds hinv.2 new_array junk
      cases out <;> exact ⟨_, by
        simp only [ownerStep, hr, Option.bind_eq_bind, Option.bind_some]; rfl⟩
    | pop pc =>
      rw [hpc] at hholds hinv
      obtain ⟨⟨q, out⟩, hr⟩ := take_progress hholds hinv.2
      cases out <;> exact ⟨_, by
        simp only [ownerStep, hr, Option.bind_eq_bind, Option.bind_some]; rfl⟩
    | storeBuffer elt old_buffer => cases old_buffer <;> exact ⟨_, rfl⟩
    | _ => exact ⟨_, rfl⟩
  obtain ⟨⟨q, o, e⟩, hr⟩ := hstep
  exact ⟨_, by simp only [step, hr, Option.bind_eq_bind, Option.bind_some]; rfl⟩

theorem thief_progress (h : Sim s a p) {i : ι} (ht : s.thief i ≠ .idle) :
    ∃ r, step s (.thief i) = some r := by
  cases hpc : s.thief i with
  | idle => exact absurd hpc ht
  | steal pc =>
    have hinv := h.thief i
    rw [hpc] at hinv
    have hr : ∃ r, takeLocked s.queue pc = some r := by
      cases hin : insideTake pc with
      | true =>
        obtain ⟨hout, -⟩ := thief_alone h (i := i) (by rw [hpc]; exact hin)
        have hholds := h.holds
        rw [ownerArray_outside hout] at hholds
        exact take_progress hholds hinv
      | false =>
        cases pc with
        | acquire =>
          simp only [takeLocked]
          split <;> exact ⟨_, rfl⟩
        | _ => cases hin
    obtain ⟨⟨q, out⟩, hr⟩ := hr
    cases out <;> exact ⟨_, by
      simp only [step, thiefStep, hpc, hr, Option.bind_eq_bind, Option.bind_some]; rfl⟩

/-- Every history of the queue is one of a priority slot in front of a queue,
and a call that has begun can always take its next step: no step uses an array
that is not allocated. -/
theorem tlQueue_linearizable {log_size : ℕ} {tr : List (Event ι α)} {s : State ι α}
    (h : Run (tlSystem ι α log_size) tr s) :
    (∃ a p, Linearized (slotQueue α) (tr.flatMap Option.toList) a p) ∧
    (s.owner ≠ .idle → ∀ new_array junk, ∃ r, step s (.owner new_array junk) = some r) ∧
    ∀ i, s.thief i ≠ .idle → ∃ r, step s (.thief i) = some r := by
  obtain ⟨a, p, hsim, hl⟩ := Linearized.of_run (O := slotQueue α) Option.toList Sim
    (by
      rintro s ⟨array, junk, rfl⟩
      exact sim_init log_size array junk)
    (fun s x s' e hist a p hsim hl hm hs => step_answered hsim hl hm hs) h
  exact ⟨⟨a, p, hl⟩, fun ho => owner_progress hsim ho, fun i ht => thief_progress hsim ht⟩

/-- The owner fills its slot twice while a thief waits for the lock, and the
thief steals the displaced element. -/
theorem tlQueue_linearizable_displaced :
    ∃ a p, Linearized (ι := Option Unit) (slotQueue ℕ)
      [.call none (.priorityPush 1), .ret none none, .call none (.priorityPush 2),
        .call (some ()) .steal, .ret none none, .ret (some ()) (some 1)] a p := by
  let o : LockedQueue.Action Unit ℕ := .owner 9 fun _ => none
  let t : LockedQueue.Action Unit ℕ := .thief ()
  obtain ⟨tr, s, hrun, he⟩ := Run.exists_of_exec (S := tlSystem Unit ℕ 0)
    (fun s x (h : decide (mayRun s x) = true) => (of_decide_eq_true h : mayRun s x))
    [.callPriorityPush 1, o, o, .callPriorityPush 2, o, o, o, .callSteal (), t, o, o, o, o,
      t, t, t, t, t]
    ⟨7, fun _ => none, rfl⟩ (fun p => p.2.flatMap Option.toList) (b :=
      [.call none (.priorityPush 1), .ret none none, .call none (.priorityPush 2),
        .call (some ()) .steal, .ret none none, .ret (some ()) (some 1)]) rfl
  obtain ⟨⟨a, p, hl⟩, -⟩ := tlQueue_linearizable hrun
  exact ⟨a, p, he ▸ hl⟩

end Libseff.LockedQueueLinear
