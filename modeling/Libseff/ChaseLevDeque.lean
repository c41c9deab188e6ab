import Libseff.ChaseLevSafety

namespace Libseff.ChaseLevDeque

open CircularArrays TransitionRuns ChaseLevSteps ChaseLevInvariant ChaseLevPush ChaseLevSafety

variable {ι α : Type}

theorem inv_init (log_size : ℕ) (junk : ℤ → QueueElt α) :
    Inv [] (⟨clQueueInit log_size junk, .idle, fun _ => .idle⟩ : State ι α) := by
  have hwf := circularArrayNew_wellFormed log_size junk
  refine ⟨fun _ => hwf, Nat.zero_lt_one, le_rfl, le_rfl, ?_, trivial, fun _ => trivial, ?_, ?_,
    ?_, ?_, ?_⟩
  · exact hwf.size_pos.le
  · simp [window, clQueueInit, logicalBottom, pushed, returned, inHand]
  · simp [window, clQueueInit, logicalBottom]
  · intro t h0 hlt
    exact absurd h0 hlt.not_ge
  · intro e he
    cases he
  · intro i u hu
    cases hu

theorem call_silent {tr : List (Event ι α)} {s : State ι α} (h : Inv tr s)
    (ho : s.owner = .idle) {o : Owner α} (hb : logicalBottom s.queue o = s.queue.bottom)
    (hs : stealBound s.queue o = s.queue.bottom) (hh : inHand o = [])
    (hi : OwnerInv s.queue o) : Silent s { s with owner := o } where
  thief := rfl
  top := rfl
  array_le := le_rfl
  bottom := by rw [ho]; exact hb
  hand := by rw [ho]; exact hh
  bound := by rw [ho]; exact fun h => h.trans_eq hs.symm
  get := fun _ _ _ => rfl
  stale := fun _ _ _ => rfl
  grows := le_rfl
  wf := h.wf
  allocated := h.allocated
  owner := hi

theorem owner_step {tr : List (Event ι α)} {s : State ι α} (h : Inv tr s)
    {junk : ℤ → QueueElt α} {q : ClQueue α} {o : Owner α} {r : Option (Result α)}
    (hs : ownerStep junk s.queue s.owner = some (q, o, r)) :
    Inv (tr ++ [⟨none, tookIndex s.queue q, r⟩]) { s with queue := q, owner := o } := by
  cases ho : s.owner with
  | idle => simp [ownerStep, ho] at hs
  | push elt pc =>
    simp only [ownerStep, ho, Option.some.injEq] at hs
    rcases hq : clQueuePush junk elt s.queue pc with ⟨q', pc' | ⟨⟩⟩
    · cases hq ▸ hs
      exact inv_quiet h (push_silent h ho junk hq) none
    · cases hq ▸ hs
      obtain ⟨bottom, top, rfl, rfl⟩ := clQueuePush_done hq
      rw [tookIndex_bottom]
      exact push_done h ho
  | pop pc =>
    simp only [ownerStep, ho, Option.some.injEq] at hs
    rcases hq : clQueuePop s.queue pc with ⟨q', pc' | r⟩
    · cases hq ▸ hs
      obtain htop | ⟨bottom, elt, rfl, rfl, rfl⟩ := clQueuePop_run hq
      · exact inv_quiet h (pop_silent h ho hq htop) none
      · rw [tookIndex_top]
        exact pop_cas h ho
    · cases hq ▸ hs
      obtain ⟨bottom, top, arr, rfl, hne, rfl, rfl⟩ | ⟨bottom, rfl, rfl⟩ := clQueuePop_done hq
      · rw [tookIndex, if_pos rfl]
        exact pop_get_done h ho hne
      · rw [tookIndex_bottom]
        exact pop_restore h ho

theorem bottom_le_stealBound (q : ClQueue α) (o : Owner α) : q.bottom ≤ stealBound q o := by
  obtain _ | ⟨elt, pc⟩ | pc := o
  · exact le_rfl
  · exact le_rfl
  · cases pc <;> simp only [stealBound] <;> (try split) <;> omega

variable [DecidableEq ι]

theorem thief_step {tr : List (Event ι α)} {s : State ι α} (h : Inv tr s) {i : ι}
    {q : ClQueue α} {t : Thief α} {r : Option (Result α)}
    (hs : thiefStep s.queue (s.thief i) = some (q, t, r)) :
    Inv (tr ++ [⟨some i, tookIndex s.queue q, r⟩])
      { s with queue := q, thief := Function.update s.thief i t } := by
  have hi := h.thief i
  have hb := bottom_le_stealBound s.queue s.owner
  have hself : tookIndex s.queue s.queue = none := if_pos rfl
  cases ht : s.thief i with
  | idle => simp [thiefStep, ht] at hs
  | steal pc =>
    simp only [thiefStep, ht, Option.some.injEq] at hs
    rw [ht] at hi
    cases pc with
    | loadTop =>
      cases hs
      rw [hself]
      exact steal_quiet h rfl rfl (le_rfl : s.queue.top ≤ s.queue.top)
        (fun u hu => .inr (Option.some.inj hu).symm)
    | loadBottom top =>
      simp only [clQueueSteal] at hs
      split at hs
      · cases hs
        rw [hself]
        exact steal_quiet h rfl rfl ⟨hi, fun _ => lt_of_lt_of_le (by assumption) hb⟩
          (fun u hu => .inl (by rw [ht]; exact hu))
      · cases hs
        rw [hself]
        exact steal_quiet h rfl rfl trivial (fun u hu => by cases hu)
    | loadArray top =>
      cases hs
      rw [hself]
      exact steal_quiet h rfl rfl ⟨hi.1, le_rfl, fun he => ⟨hi.2 he, rfl⟩⟩
        (fun u hu => .inl (by rw [ht]; exact hu))
    | get top arr =>
      cases hs
      rw [hself]
      exact steal_quiet h rfl rfl ⟨hi.1, hi.2.2⟩ (fun u hu => .inl (by rw [ht]; exact hu))
    | cas top elt =>
      simp only [clQueueSteal] at hs
      split at hs
      · rename_i he
        subst he
        cases hs
        rw [tookIndex_top]
        exact steal_cas h ht
      · cases hs
        rw [hself]
        exact steal_quiet h rfl rfl trivial (fun u hu => by cases hu)

theorem inv_step {tr : List (Event ι α)} {s s' : State ι α} (h : Inv tr s) {a : Action ι α}
    {e : Event ι α} (hs : step s a = some (s', e)) : Inv (tr ++ [e]) s' := by
  cases a with
  | callPush elt =>
    simp only [step] at hs
    split at hs
    · rename_i ho
      cases hs
      have hsilent := call_silent h ho (o := .push elt .loadBottom) rfl rfl rfl trivial
      exact (h.silent hsilent).append rfl rfl rfl
    · cases hs
  | callPop =>
    simp only [step] at hs
    split at hs
    · rename_i ho
      cases hs
      have hsilent := call_silent h ho (o := .pop .loadBottom) rfl rfl rfl trivial
      exact (h.silent hsilent).append rfl rfl rfl
    · cases hs
  | owner junk =>
    simp only [step, Option.map_eq_some_iff] at hs
    obtain ⟨⟨q, o, r⟩, ho, he⟩ := hs
    cases he
    exact owner_step h ho
  | callSteal i =>
    simp only [step] at hs
    split at hs
    · cases hs
      exact steal_quiet h rfl rfl trivial (fun u hu => by cases hu)
    · cases hs
  | thief i =>
    simp only [step, Option.map_eq_some_iff] at hs
    obtain ⟨⟨q, t, r⟩, ht, he⟩ := hs
    cases he
    exact thief_step h ht

theorem run_inv {log_size : ℕ} {tr : List (Event ι α)} {s : State ι α}
    (h : Run (clSystem ι α log_size) tr s) : Inv tr s := by
  refine Run.invariant Inv ?_ (fun tr s a s' e hi _ hs => inv_step hi hs) h
  rintro s ⟨junk, rfl⟩
  exact inv_init log_size junk

theorem popped_empty {tr : List (Event ι α)} {s s' : State ι α} (h : Inv tr s) {a : Action ι α}
    {e : Event ι α} (hs : step s a = some (s', e)) (he : e.result = some (.popped .EMPTY)) :
    (pushed tr).Perm (returned tr) := by
  obtain ⟨pc, ho, hq⟩ := step_popped hs he
  have hi := h.owner
  have hperm := h.perm
  rw [window, ho] at hperm
  rw [ho] at hi
  obtain ⟨bottom, top, arr, rfl, hne, hr, -⟩ | ⟨bottom, rfl, -⟩ := clQueuePop_done hq
  · obtain ⟨rfl, rfl, hle, -, hsafe⟩ := hi
    have hmem : caGet (current s.queue) s.queue.bottom ∈ window s := by
      rw [window, ho, logicalBottom, caWindow_snoc _ (hsafe (by omega))]
      exact List.mem_append_right _ (List.mem_singleton_self _)
    obtain ⟨t, ht⟩ := h.task_of_window hmem
    exact absurd (hr.trans ht) (by simp)
  · obtain ⟨rfl, htop⟩ := hi
    simpa [logicalBottom, htop, inHand] using hperm

theorem steal_aborted {tr : List (Event ι α)} {s s' : State ι α} (h : Inv tr s) {a : Action ι α}
    {e : Event ι α} (hs : step s a = some (s', e)) (he : e.result = some (.stolen .ABORT)) :
    ∃ i t, e.thread = some i ∧ target (s.thief i) = some t ∧
      ∃ e' ∈ tr, e'.took = some t ∧ e'.thread ≠ some i := by
  obtain ⟨i, pc, hthread, ht, hq⟩ := step_stolen hs he
  obtain ⟨top, elt, rfl, helt⟩ := clQueueSteal_abort hq
  have hi := h.thief i
  have hb := stealBound_le s.queue s.owner
  rw [ht] at hi
  have htarget : target (s.thief i) = some top := by rw [ht]; rfl
  have hlt : top < s.queue.top := by
    obtain hlt | rfl := hi.1.lt_or_eq
    · exact hlt
    · obtain ⟨h1, h2⟩ := hi.2 rfl
      have hmem : caGet (current s.queue) s.queue.top ∈ window s := by
        rw [window, caWindow_cons _ (by omega)]
        exact List.mem_cons_self
      obtain ⟨t, h3⟩ := h.task_of_window hmem
      rw [h2, h3] at helt
      cases helt rfl
  obtain ⟨e', he', htook⟩ := h.taken top (h.target_nonneg i top htarget) hlt
  refine ⟨i, top, hthread, htarget, e', he', htook, fun hsame => ?_⟩
  exact absurd ((h.took_lt e' he' top htook).2 i hsame top htarget) (lt_irrefl top)

/-- No loss and no duplication, for one owner and any number of thieves: what
calls have returned was pushed, and as often; between calls the rest is in the
array in push order; a pop that returns nothing had nothing left to return, and
a steal that aborts lost its index to another call. -/
theorem clQueue_run {log_size : ℕ} {tr : List (Event ι α)} {s : State ι α}
    (h : Run (clSystem ι α log_size) tr s) :
    (returned tr).Subperm (pushed tr) ∧
    (quiescent s → (contents s.queue).Sublist (pushed tr) ∧
      (pushed tr).Perm (returned tr ++ contents s.queue)) ∧
    ∀ a s' e, step s a = some (s', e) →
      (e.result = some (.popped .EMPTY) → (pushed tr).Perm (returned tr)) ∧
      (e.result = some (.stolen .ABORT) → ∃ i t, e.thread = some i ∧
        target (s.thief i) = some t ∧ ∃ e' ∈ tr, e'.took = some t ∧ e'.thread ≠ some i) := by
  have hi := run_inv h
  refine ⟨?_, ?_, fun a s' e hs => ⟨popped_empty hi hs, steal_aborted hi hs⟩⟩
  · have hsub : (returned tr).Sublist (returned tr ++ inHand s.owner ++ window s) := by
      rw [List.append_assoc]
      exact List.sublist_append_left _ _
    exact hsub.subperm.trans hi.perm.symm.subperm
  · rintro ⟨ho, -⟩
    have hw : window s = contents s.queue := by rw [window, ho]; rfl
    have hperm := hi.perm
    rw [hw, ho] at hperm
    exact ⟨hw ▸ hi.order, by simpa [inHand] using hperm⟩

/-- A steal that starts before the array grows and takes the first element after. -/
theorem clQueue_run_stolen : ∃ tr s, Run (clSystem Unit ℕ 0) tr s ∧
    (pushed tr, returned tr) = ([.task 1, .task 2], [.task 1]) ∧
    (returned tr).Subperm (pushed tr) := by
  let o : ChaseLevSteps.Action Unit ℕ := .owner fun _ => .EMPTY
  obtain ⟨tr, s, h, he⟩ := Run.exists_of_exec (S := clSystem Unit ℕ 0)
    (fun _ _ (_ : true = true) => trivial)
    [.callPush 1, o, o, o, o, o, .callSteal (), .thief (), .callPush 2, o, o, o,
      .thief (), .thief (), o, o, o, o, o, .thief (), .thief ()]
    ⟨fun _ => .EMPTY, rfl⟩ (fun p => (pushed p.2, returned p.2)) rfl
  exact ⟨tr, s, h, he, (clQueue_run h).1⟩

end Libseff.ChaseLevDeque
