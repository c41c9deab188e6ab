import Libseff.ChaseLevOwner

namespace Libseff.ChaseLevLinear

open CircularArrays TransitionRuns AtomicObjects SpecObjects ChaseLevSteps ChaseLevInvariant
  ChaseLevPush ChaseLevSafety ChaseLevDeque ChaseLevHistories ChaseLevOwner

variable {ι α : Type} [DecidableEq ι]

variable {tr : List (Event ι α)} {hist : List (CallEvent ι α)} {s : State ι α}

omit [DecidableEq ι] in
theorem ownerPhase_top (q : ClQueue α) (top : ℤ) (o : Owner α) :
    ownerPhase { q with top := top } o = ownerPhase q o := by
  obtain _ | ⟨elt, pc⟩ | pc := o
  · rfl
  · rfl
  · cases pc <;> rfl

omit [DecidableEq ι] in
theorem stealBound_top (q : ClQueue α) (top : ℤ) (o : Owner α) :
    stealBound { q with top := top } o = stealBound q o := by
  obtain _ | ⟨elt, pc⟩ | pc := o
  · rfl
  · rfl
  · cases pc <;> rfl

theorem phases_thief (s : State ι α) (top : ℤ) (i : ι) (t : Thief α) :
    phases { s with queue := { s.queue with top := top }, thief := Function.update s.thief i t } =
      Function.update (phases s) (some i) (thiefPhase t) := by
  funext c
  cases c with
  | none =>
    rw [Function.update_of_ne (Option.some_ne_none i).symm]
    exact ownerPhase_top s.queue top s.owner
  | some j =>
    by_cases hj : j = i
    · subst hj
      simp only [phases, Function.update_self]
    · rw [Function.update_of_ne fun he => hj (Option.some.inj he)]
      simp only [phases, Function.update_of_ne hj]

omit [DecidableEq ι] in
theorem bound_of_racing {q : ClQueue α} {o : Owner α} (h : Racing q o) :
    q.top = q.bottom ∧ stealBound q o = q.bottom + 1 ∧ ownerPhase q o = .pending .pop := by
  obtain _ | ⟨elt, pc⟩ | pc := o
  · exact h.elim
  · exact h.elim
  · cases pc with
    | get bottom top arr =>
      obtain ⟨rfl, heq⟩ := h
      exact ⟨heq, by simp [stealBound], by simp [ownerPhase]⟩
    | loadTop bottom arr | cas bottom top elt => exact ⟨h, rfl, rfl⟩
    | _ => exact h.elim

omit [DecidableEq ι] in
theorem racing_of_bound {q : ClQueue α} {o : Owner α} (hi : OwnerInv q o) (hle : q.bottom ≤ q.top)
    (hlt : q.top < stealBound q o) : Racing q o := by
  obtain _ | ⟨elt, pc⟩ | pc := o
  · exact absurd (hle.trans_lt hlt) (lt_irrefl _)
  · exact absurd (hle.trans_lt hlt) (lt_irrefl _)
  · cases pc with
    | get bottom top arr =>
      obtain ⟨rfl, -, htop, -⟩ := hi
      simp only [stealBound] at hlt
      split at hlt
      · omega
      · exact ⟨by omega, by omega⟩
    | restore bottom elt =>
      obtain ⟨rfl, htop⟩ := hi
      simp only [stealBound] at hlt
      omega
    | loadTop bottom arr | cas bottom top elt =>
      have heq : q.top = q.bottom := by
        simp only [stealBound] at hlt
        omega
      exact heq
    | _ => exact absurd (hle.trans_lt hlt) (lt_irrefl _)

theorem quiet_follows (h : Follows hist s) {i : ι} {t : Thief α}
    (hphase : thiefPhase t = thiefPhase (s.thief i))
    (haims : Racing s.queue s.owner → Aims s.queue.top t → Aims s.queue.top (s.thief i)) :
    Follows hist { s with thief := Function.update s.thief i t } := by
  have hphases : phases { s with thief := Function.update s.thief i t } = phases s := by
    have hp := phases_thief s s.queue.top i t
    rw [hphase] at hp
    exact hp.trans (Function.update_eq_self (some i) (phases s))
  obtain ⟨l, hl, hrest⟩ | ⟨hrace, x, hx, hw⟩ := h
  · exact .inl ⟨l, hphases ▸ hl, hrest⟩
  · refine .inr ⟨hrace, x, hx, fun w hcandidate => ?_⟩
    rw [hphases]
    refine hw w ?_
    cases w with
    | none => trivial
    | some j =>
      by_cases hj : j = i
      · subst hj
        simp only [Candidate, Function.update_self] at hcandidate
        exact haims hrace hcandidate
      · simp only [Candidate, Function.update_of_ne hj] at hcandidate
        exact hcandidate

theorem candidate_of_update {i : ι} {t : Thief α} (ht : ¬ Aims s.queue.top t) {w : Option ι}
    (h : Candidate { s with thief := Function.update s.thief i t } w) :
    w ≠ some i ∧ Candidate s w := by
  cases w with
  | none => exact ⟨(Option.some_ne_none i).symm, trivial⟩
  | some j =>
    by_cases hj : j = i
    · subst hj
      simp only [Candidate, Function.update_self] at h
      exact absurd h ht
    · simp only [Candidate, Function.update_of_ne hj] at h
      exact ⟨fun he => hj (Option.some.inj he), h⟩

theorem fail_settled (h : Settled hist s) {i : ι} {pc : Steal α} (ht : s.thief i = .steal pc)
    {r : Option (QueueElt α)} (hallows : ∀ l, l.map .task = remaining s → Allows .steal l l r) :
    Settled (hist ++ [.ret (some i) r]) { s with thief := Function.update s.thief i .idle } := by
  have hpending : phases s (some i) = .pending .steal := by rw [phases, ht, thiefPhase]
  have hphases : phases { s with thief := Function.update s.thief i .idle } =
      Function.update (phases s) (some i) .idle := phases_thief s s.queue.top i .idle
  obtain ⟨l, hl, hrest⟩ := h
  refine ⟨l, ?_, hrest⟩
  rw [hphases]
  exact hl.point_ret (O := deque α) hpending (hallows l hrest)

theorem fail_undecided (h : Undecided hist s) {i : ι} {pc : Steal α} (ht : s.thief i = .steal pc)
    {r : Option (QueueElt α)} (hallows : Allows .steal [] ([] : List α) r) :
    Undecided (hist ++ [.ret (some i) r]) { s with thief := Function.update s.thief i .idle } := by
  have hpending : phases s (some i) = .pending .steal := by rw [phases, ht, thiefPhase]
  have hphases : phases { s with thief := Function.update s.thief i .idle } =
      Function.update (phases s) (some i) .idle := phases_thief s s.queue.top i .idle
  obtain ⟨hrace, x, hx, hw⟩ := h
  refine ⟨hrace, x, hx, fun w hcandidate => ?_⟩
  obtain ⟨hne, hcandidate⟩ := candidate_of_update (t := .idle) (fun h => h) hcandidate
  rw [hphases, Function.update_comm hne.symm]
  refine (hw w hcandidate).point_ret (O := deque α) ?_ hallows
  rw [Function.update_of_ne hne.symm, hpending]

theorem win_last {x : α} (hl : Linearizes (deque α) hist [x] (phases s))
    (hrace : Racing s.queue s.owner) {w : Option ι} (hw : Candidate s w) :
    Linearizes (deque α) hist [] (Function.update (phases s) w (.done (some (.task x)))) := by
  cases w with
  | none => exact hl.point (O := deque α) (bound_of_racing hrace).2.2 (.pop [] x)
  | some i =>
    refine hl.point (O := deque α) (o := .steal) ?_ (.steal [] x)
    rw [phases]
    cases ht : s.thief i with
    | idle =>
      rw [Candidate, ht] at hw
      exact hw.elim
    | steal pc => rfl

/-- While a pop races for the last element, whoever wins it may be taken to have
it already. -/
theorem undecided_of_racing (h : Follows hist s) (hrace : Racing s.queue s.owner) :
    Undecided hist s := by
  obtain ⟨heq, hbound, -⟩ := bound_of_racing hrace
  have hremaining : remaining s = [caGet (current s.queue) s.queue.top] := by
    rw [remaining, hbound, heq, caWindow_snoc _ le_rfl, caWindow_self, List.nil_append]
  obtain ⟨l, hl, hrest⟩ | hundecided := h
  · rw [hremaining] at hrest
    obtain ⟨x, rfl, hx⟩ := List.map_eq_singleton_iff.mp hrest
    exact ⟨hrace, x, hx.symm, fun w hw => win_last hl hrace hw⟩
  · exact hundecided

theorem empty_follows (hi : Inv tr s) (h : Follows hist s) {i : ι} {top : ℤ}
    (ht : s.thief i = .steal (.loadBottom top)) (hle : ¬ top < s.queue.bottom) :
    Follows (hist ++ [.ret (some i) (some .EMPTY)])
      { s with thief := Function.update s.thief i .idle } := by
  have htop : top ≤ s.queue.top := by
    have hthief := hi.thief i
    rw [ht] at hthief
    exact hthief
  by_cases hlt : s.queue.top < stealBound s.queue s.owner
  · have hrace := racing_of_bound hi.owner (by omega) hlt
    exact .inr (fail_undecided (undecided_of_racing h hrace) ht .stealEmpty)
  · have hempty : remaining s = [] := by
      rw [remaining, caWindow, Int.toNat_of_nonpos (by omega)]
      rfl
    obtain h | ⟨hrace, -⟩ := h
    · refine .inl (fail_settled h ht fun l hl => ?_)
      rw [hempty, List.map_eq_nil_iff] at hl
      subst hl
      exact .stealEmpty
    · obtain ⟨heq, hbound, -⟩ := bound_of_racing hrace
      omega

theorem abort_follows (h : Follows hist s) {i : ι} {pc : Steal α} (ht : s.thief i = .steal pc) :
    Follows (hist ++ [.ret (some i) (some .ABORT)])
      { s with thief := Function.update s.thief i .idle } := by
  obtain h | h := h
  · exact .inl (fail_settled h ht fun l _ => .stealAbort l)
  · exact .inr (fail_undecided h ht (.stealAbort []))

theorem win_follows (hi : Inv tr s) (h : Follows hist s) {i : ι} {elt : QueueElt α}
    (ht : s.thief i = .steal (.cas s.queue.top elt)) :
    Follows (hist ++ [.ret (some i) (some elt)])
      { s with
        queue := { s.queue with top := s.queue.top + 1 }
        thief := Function.update s.thief i .idle } := by
  have hthief := hi.thief i
  rw [ht] at hthief
  obtain ⟨-, hthief⟩ := hthief
  obtain ⟨hlt, rfl⟩ := hthief rfl
  have hrest : caWindow (current s.queue) s.queue.top (stealBound s.queue s.owner) =
      caGet (current s.queue) s.queue.top ::
        caWindow (current s.queue) (s.queue.top + 1) (stealBound s.queue s.owner) :=
    caWindow_cons _ hlt
  refine .inl ?_
  rw [Settled, phases_thief, remaining]
  change ∃ l, _ ∧ _ = caWindow (current s.queue) (s.queue.top + 1)
    (stealBound { s.queue with top := s.queue.top + 1 } s.owner)
  rw [stealBound_top]
  obtain ⟨l, hl, hmap⟩ | ⟨hrace, x, hx, hw⟩ := h
  · rw [remaining, hrest] at hmap
    obtain ⟨x, l', rfl, hx, hl'⟩ := List.map_eq_cons_iff.mp hmap
    refine ⟨l', ?_, hl'⟩
    rw [← hx]
    refine hl.point_ret (O := deque α) (o := .steal) ?_ (.steal l' x)
    rw [phases, ht, thiefPhase]
  · obtain ⟨heq, hbound, -⟩ := bound_of_racing hrace
    refine ⟨[], ?_, ?_⟩
    · rw [hx]
      refine (hw (some i) ?_).ret_of_done
      rw [Candidate, ht]
      rfl
    · rw [hbound, heq, caWindow_self]
      rfl

theorem steal_follows (hi : Inv tr s) (h : Follows hist s) {i : ι} {pc : Steal α}
    (ht : s.thief i = .steal pc) {q : ClQueue α} {out : Outcome (Steal α) (QueueElt α)}
    (hq : clQueueSteal s.queue pc = (q, out)) :
    out.Meets
      (fun pc' => Follows hist
        { s with queue := q, thief := Function.update s.thief i (.steal pc') })
      (fun r => Follows (hist ++ [.ret (some i) (some r)])
        { s with queue := q, thief := Function.update s.thief i .idle }) := by
  cases pc with
  | loadTop =>
    obtain ⟨rfl, rfl⟩ := Prod.mk.inj hq
    exact quiet_follows h (by rw [ht]; rfl) fun _ haims => haims.elim
  | loadBottom top =>
    simp only [clQueueSteal] at hq
    split at hq
    · rename_i hlt
      obtain ⟨rfl, rfl⟩ := Prod.mk.inj hq
      refine quiet_follows h (by rw [ht]; rfl) fun hrace (haims : top = s.queue.top) => ?_
      have heq := (bound_of_racing hrace).1
      omega
    · rename_i hle
      obtain ⟨rfl, rfl⟩ := Prod.mk.inj hq
      exact empty_follows hi h ht hle
  | loadArray top =>
    obtain ⟨rfl, rfl⟩ := Prod.mk.inj hq
    exact quiet_follows h (by rw [ht]; rfl) fun _ haims => by rw [ht]; exact haims
  | get top arr =>
    obtain ⟨rfl, rfl⟩ := Prod.mk.inj hq
    exact quiet_follows h (by rw [ht]; rfl) fun _ haims => by rw [ht]; exact haims
  | cas top elt =>
    simp only [clQueueSteal] at hq
    split at hq
    · rename_i heq
      obtain ⟨rfl, rfl⟩ := Prod.mk.inj hq
      subst heq
      exact win_follows hi h ht
    · obtain ⟨rfl, rfl⟩ := Prod.mk.inj hq
      exact abort_follows h ht

theorem thief_follows (hi : Inv tr s) (h : Follows hist s) {i : ι} {q : ClQueue α} {t : Thief α}
    {r : Option (Result α)} (hs : thiefStep s.queue (s.thief i) = some (q, t, r)) :
    Follows (hist ++ (r.map fun r => .ret (some i) (valueOf r)).toList)
      { s with queue := q, thief := Function.update s.thief i t } := by
  cases ht : s.thief i with
  | idle => simp [thiefStep, ht] at hs
  | steal pc =>
    simp only [thiefStep, ht, Option.some.injEq] at hs
    rcases hq : clQueueSteal s.queue pc with ⟨q', out⟩
    have hnext := steal_follows hi h ht hq
    rw [hq] at hs
    cases out with
    | run pc' =>
      cases hs
      rw [Option.map_none, Option.toList_none, List.append_nil]
      exact hnext
    | done r =>
      cases hs
      exact hnext

theorem callSteal_follows (h : Follows hist s) {i : ι} (ht : s.thief i = .idle) :
    Follows (hist ++ [.call (some i) .steal])
      { s with thief := Function.update s.thief i (.steal .loadTop) } := by
  have hidle : phases s (some i) = .idle := by rw [phases, ht, thiefPhase]
  have hphases : phases { s with thief := Function.update s.thief i (.steal .loadTop) } =
      Function.update (phases s) (some i) (.pending .steal) :=
    phases_thief s s.queue.top i (.steal .loadTop)
  obtain ⟨l, hl, hrest⟩ | ⟨hrace, x, hx, hw⟩ := h
  · refine .inl ⟨l, ?_, hrest⟩
    rw [hphases]
    exact hl.call .steal hidle
  · refine .inr ⟨hrace, x, hx, fun w hcandidate => ?_⟩
    obtain ⟨hne, hcandidate⟩ := candidate_of_update (t := .steal .loadTop) (fun h => h) hcandidate
    rw [hphases, Function.update_comm hne.symm]
    refine (hw w hcandidate).call .steal ?_
    rw [Function.update_of_ne hne.symm, hidle]

theorem step_follows (hi : Inv tr s) (h : Follows hist s) {a : Action ι α} {s' : State ι α}
    {e : Event ι α} (hs : step s a = some (s', e)) :
    Follows (hist ++ (callEvent s a).toList) s' := by
  cases a with
  | callPush elt =>
    simp only [step] at hs
    split at hs
    · rename_i ho
      cases hs
      exact call_follows h ho rfl rfl
    · cases hs
  | callPop =>
    simp only [step] at hs
    split at hs
    · rename_i ho
      cases hs
      exact call_follows h ho rfl rfl
    · cases hs
  | owner junk =>
    simp only [step, Option.map_eq_some_iff] at hs
    obtain ⟨⟨q, o, r⟩, ho, he⟩ := hs
    cases he
    rw [callEvent, ho]
    exact owner_follows hi h ho
  | callSteal i =>
    simp only [step] at hs
    split at hs
    · rename_i ht
      cases hs
      exact callSteal_follows h ht
    · cases hs
  | thief i =>
    simp only [step, Option.map_eq_some_iff] at hs
    obtain ⟨⟨q, t, r⟩, ht, he⟩ := hs
    cases he
    rw [callEvent, ht]
    exact thief_follows hi h ht

theorem run_follows {log_size : ℕ} {trh : List (Option (CallEvent ι α))}
    (h : Run (clHistories ι α log_size) trh s) :
    Follows (trh.flatMap Option.toList) s ∧ ∃ tr, Run (clSystem ι α log_size) tr s := by
  refine ⟨?_, Run.of_relabel h⟩
  induction h with
  | start h =>
    obtain ⟨junk, rfl⟩ := h
    refine .inl ⟨[], ?_, ?_⟩
    · have hphases : phases (⟨clQueueInit log_size junk, .idle, fun _ => .idle⟩ : State ι α) =
          fun _ => .idle := by
        funext c
        cases c <;> rfl
      rw [hphases]
      exact Linearizes.start
    · exact (caWindow_self _ _).symm
  | next hrun hm hs ih =>
    obtain ⟨tr, hrun⟩ := Run.of_relabel hrun
    obtain ⟨⟨s', e⟩, hp, he⟩ := Option.map_eq_some_iff.mp hs
    cases he
    rw [List.flatMap_append, List.flatMap_singleton]
    exact step_follows (run_inv hrun) ih hp

/-- The calls of the owner and of any number of thieves take effect one at a
time, each between its call and its return: a push at the back, a pop from the
back, a steal from the front, and each returns nothing only when nothing is
there, but that a steal may give up. -/
theorem clQueue_linearizable {log_size : ℕ} {trh : List (Option (CallEvent ι α))}
    (h : Run (clHistories ι α log_size) trh s) :
    ∃ l p, Linearizes (deque α) (trh.flatMap Option.toList) l p ∧
      (quiescent s → l.map .task = contents s.queue ∧ ∀ c, p c = .idle) := by
  obtain ⟨⟨l, hl, hrest⟩ | ⟨hrace, x, hx, hw⟩, -⟩ := run_follows h
  · refine ⟨l, phases s, hl, fun hq => ⟨?_, fun c => ?_⟩⟩
    · rw [hrest, remaining, hq.1]
      rfl
    · cases c with
      | none => rw [phases, hq.1, ownerPhase]
      | some i => rw [phases, hq.2 i, thiefPhase]
  · refine ⟨[], _, hw none trivial, fun hq => ?_⟩
    rw [hq.1] at hrace
    exact hrace.elim

/-- A steal finds nothing while a pop and an earlier steal race for the last
element, which the steal wins. -/
theorem clQueue_linearizable_raced : ∃ tr s, Run (clHistories Bool ℕ 0) tr s ∧
    tr.flatMap Option.toList =
      [.call none (.push 1), .ret none none, .call (some true) .steal, .call none .pop,
        .call (some false) .steal, .ret (some false) (some .EMPTY),
        .ret (some true) (some (.task 1)), .ret none (some .EMPTY)] ∧
    ∃ l p, Linearizes (deque ℕ) (tr.flatMap Option.toList) l p := by
  let o : ChaseLevSteps.Action Bool ℕ := .owner fun _ => .EMPTY
  obtain ⟨tr, s, h, he⟩ : ∃ tr s, Run (clHistories Bool ℕ 0) tr s ∧
      tr.flatMap Option.toList =
        [.call none (.push 1), .ret none none, .call (some true) .steal, .call none .pop,
          .call (some false) .steal, .ret (some false) (some .EMPTY),
          .ret (some true) (some (.task 1)), .ret none (some .EMPTY)] :=
    Run.exists_of_exec (S := clHistories Bool ℕ 0) (fun _ _ (_ : true = true) => trivial)
      [.callPush 1, o, o, o, o, o, .callSteal true, .thief true, .thief true, .callPop, o, o, o,
        .callSteal false, .thief false, .thief false, .thief true, .thief true, o, .thief true,
        o, o, o]
      ⟨fun _ => .EMPTY, rfl⟩ (fun p => p.2.flatMap Option.toList) rfl
  obtain ⟨l, p, hl, -⟩ := clQueue_linearizable h
  exact ⟨tr, s, h, he, l, p, hl⟩

end Libseff.ChaseLevLinear
