import Libseff.ChaseLevHistories

namespace Libseff.ChaseLevOwner

open CircularArrays TransitionRuns AtomicObjects SpecObjects ChaseLevSteps ChaseLevInvariant
  ChaseLevPush ChaseLevSafety ChaseLevDeque ChaseLevHistories

variable {ι α : Type} [DecidableEq ι]

variable {tr : List (Event ι α)} {hist : List (CallEvent ι α)} {s : State ι α}

theorem phases_owner (s : State ι α) (q : ClQueue α) (o : Owner α) :
    phases { s with queue := q, owner := o } =
      Function.update (phases s) none (ownerPhase q o) := by
  funext c
  cases c with
  | none => rw [Function.update_self, phases]
  | some i => rw [Function.update_of_ne (Option.some_ne_none i), phases, phases]

theorem settled_owner (h : Settled hist s) {q : ClQueue α} {o : Owner α}
    (hphase : ownerPhase q o = ownerPhase s.queue s.owner)
    (hw : caWindow (current q) q.top (stealBound q o) = remaining s) :
    Settled hist { s with queue := q, owner := o } := by
  obtain ⟨l, hl, hrest⟩ := h
  refine ⟨l, ?_, hrest.trans hw.symm⟩
  rw [phases_owner, hphase]
  change Linearizes (deque α) hist l (Function.update (phases s) none (phases s none))
  rwa [Function.update_eq_self]

theorem settled_point (h : Settled hist s) {q : ClQueue α} {o : Owner α} {op : Op α}
    {r : Option (QueueElt α)} (hpending : ownerPhase s.queue s.owner = .pending op)
    (hphase : ownerPhase q o = .done r)
    (hallows : ∀ l, l.map .task = remaining s → ∃ l', Allows op l l' r ∧
      l'.map .task = caWindow (current q) q.top (stealBound q o)) :
    Settled hist { s with queue := q, owner := o } := by
  obtain ⟨l, hl, hrest⟩ := h
  obtain ⟨l', hpoint, hw⟩ := hallows l hrest
  refine ⟨l', ?_, hw⟩
  rw [phases_owner, hphase]
  exact hl.point (O := deque α) hpending hpoint

theorem settled_ret (h : Settled hist s) {q : ClQueue α} {r : Option (QueueElt α)}
    (hdone : ownerPhase s.queue s.owner = .done r)
    (hw : caWindow (current q) q.top (stealBound q .idle) = remaining s) :
    Settled (hist ++ [.ret none r]) { s with queue := q, owner := .idle } := by
  obtain ⟨l, hl, hrest⟩ := h
  refine ⟨l, ?_, hrest.trans hw.symm⟩
  rw [phases_owner]
  exact hl.ret hdone

omit [DecidableEq ι] in
theorem map_task_snoc {l : List α} {w : List (QueueElt α)} {e : QueueElt α}
    (h : l.map .task = w ++ [e]) : ∃ l' x, l = l' ++ [x] ∧ l'.map .task = w ∧ e = .task x := by
  obtain ⟨l', l'', rfl, hw, he⟩ := List.map_eq_append_iff.mp h
  obtain ⟨x, rfl, hx⟩ := List.map_eq_singleton_iff.mp he
  exact ⟨l', x, rfl, hw, hx.symm⟩

theorem push_follows (hi : Inv tr s) (h : Settled hist s) {elt : α} {pc : Push α}
    (ho : s.owner = .push elt pc) {junk : ℤ → QueueElt α} {q : ClQueue α}
    {out : Outcome (Push α) Unit} (hq : clQueuePush junk elt s.queue pc = (q, out)) :
    out.Meets (fun pc' => Settled hist { s with queue := q, owner := .push elt pc' })
      (fun _ => Settled (hist ++ [.ret none none]) { s with queue := q, owner := .idle }) := by
  have hphase : ownerPhase s.queue s.owner = .pending (.push elt) := by rw [ho, ownerPhase]
  have hremaining : remaining s = caWindow (current s.queue) s.queue.top s.queue.bottom := by
    rw [remaining, ho]
    rfl
  cases out with
  | run pc' =>
    have hsilent := push_silent hi ho junk hq
    have htop : q.top = s.queue.top := hsilent.top
    have hbottom : q.bottom = s.queue.bottom := by
      have hb := hsilent.bottom
      rwa [ho] at hb
    have hget := hsilent.get
    rw [ho] at hget
    refine settled_owner h hphase.symm ?_
    change caWindow (current q) q.top q.bottom = _
    rw [hremaining, htop, hbottom]
    exact caWindow_congr hget
  | done r =>
    obtain ⟨bottom, top, rfl, rfl⟩ := clQueuePush_done hq
    have howner := hi.owner
    have htop := hi.top_le
    rw [ho] at howner htop
    obtain ⟨hget, rfl, -⟩ := howner
    obtain ⟨l, hl, hrest⟩ := h
    refine ⟨l ++ [elt], ?_, ?_⟩
    · rw [phases_owner]
      exact hl.point_ret (O := deque α) hphase (.push l elt)
    · have hle : s.queue.top ≤ s.queue.bottom := htop
      change _ = caWindow (current s.queue) s.queue.top (s.queue.bottom + 1)
      rw [List.map_append, hrest, hremaining, caWindow_snoc _ hle, hget]
      rfl

theorem loadTop_follows (hi : Inv tr s) (h : Follows hist s) {bottom : ℤ} {arr : ℕ}
    (ho : s.owner = .pop (.loadTop bottom arr)) {q : ClQueue α} {pc' : Pop α}
    (hq : clQueuePop s.queue (.loadTop bottom arr) = (q, .run pc')) :
    Follows hist { s with queue := q, owner := .pop pc' } := by
  have hphase : ownerPhase s.queue s.owner = .pending .pop := by rw [ho]; rfl
  have hremaining : remaining s =
      caWindow (current s.queue) s.queue.top (s.queue.bottom + 1) := by
    rw [remaining, ho]
    rfl
  have howner := hi.owner
  have htop := hi.top_le
  rw [ho] at howner htop
  obtain ⟨rfl, rfl⟩ := howner
  simp only [logicalBottom] at htop
  simp only [clQueuePop] at hq
  split at hq
  · rename_i hle
    obtain ⟨rfl, h2⟩ := Prod.mk.inj hq
    cases h2
    by_cases hlt : s.queue.top < s.queue.bottom
    · obtain h | ⟨hrace, -⟩ := h
      · refine .inl (settled_point h hphase (r := some (caGet (current s.queue) s.queue.bottom)) ?_
          fun l hl => ?_)
        · rw [ownerPhase, if_pos hlt]
          rfl
        · rw [hremaining, caWindow_snoc _ hle] at hl
          obtain ⟨l', x, rfl, hl', hx⟩ := map_task_snoc hl
          rw [hx]
          refine ⟨l', .pop l' x, hl'.trans ?_⟩
          rw [stealBound, if_pos hlt]
      · rw [ho] at hrace
        exact absurd hrace hlt.ne
    · have heq : s.queue.top = s.queue.bottom := by omega
      have hphase' : ownerPhase s.queue (.pop (.get s.queue.bottom s.queue.top s.queue.array)) =
          ownerPhase s.queue s.owner := by rw [hphase, ownerPhase, if_neg hlt]
      have hbound : stealBound s.queue (.pop (.get s.queue.bottom s.queue.top s.queue.array)) =
          s.queue.bottom + 1 := by rw [stealBound, if_neg hlt]
      obtain h | ⟨-, x, hx, hw⟩ := h
      · exact .inl (settled_owner h hphase' (by rw [hbound, hremaining]))
      · refine .inr ⟨⟨heq, heq⟩, x, hx, fun w hcandidate => ?_⟩
        rw [phases_owner, hphase']
        change Linearizes _ _ _ (Function.update (Function.update (phases s) none (phases s none))
          w _)
        rw [Function.update_eq_self]
        exact hw w (by cases w <;> exact hcandidate)
  · rename_i hle
    obtain ⟨rfl, h2⟩ := Prod.mk.inj hq
    cases h2
    have heq : s.queue.top = s.queue.bottom + 1 := by omega
    obtain h | ⟨hrace, -⟩ := h
    · refine .inl (settled_point h hphase (r := some .EMPTY) rfl fun l hl => ?_)
      rw [hremaining, heq, caWindow_self, List.map_eq_nil_iff] at hl
      subst hl
      refine ⟨[], .popEmpty, ?_⟩
      change _ = caWindow (current s.queue) s.queue.top (s.queue.bottom + 1)
      rw [heq, caWindow_self]
      rfl
    · rw [ho] at hrace
      have hrace : s.queue.top = s.queue.bottom := hrace
      omega

theorem get_follows (hi : Inv tr s) (h : Follows hist s) {bottom top : ℤ} {arr : ℕ}
    (ho : s.owner = .pop (.get bottom top arr)) {q : ClQueue α} {out : Outcome (Pop α) (QueueElt α)}
    (hq : clQueuePop s.queue (.get bottom top arr) = (q, out)) :
    out.Meets (fun pc' => Follows hist { s with queue := q, owner := .pop pc' })
      (fun r => Follows (hist ++ [.ret none (some r)]) { s with queue := q, owner := .idle }) := by
  have howner := hi.owner
  rw [ho] at howner
  obtain ⟨rfl, rfl, hle, -⟩ := howner
  simp only [clQueuePop] at hq
  split at hq
  · rename_i heq
    have hlt : ¬ top < s.queue.bottom := by omega
    obtain ⟨rfl, rfl⟩ := Prod.mk.inj hq
    have hphase : ownerPhase s.queue (.pop (.cas s.queue.bottom top
        (caGet (s.queue.arrays s.queue.array) s.queue.bottom))) =
        ownerPhase s.queue s.owner := by
      rw [ho]
      simp only [ownerPhase, if_neg hlt]
    have hremaining : remaining s =
        caWindow (current s.queue) s.queue.top (s.queue.bottom + 1) := by
      rw [remaining, ho, stealBound, if_neg hlt]
    obtain h | ⟨hrace, x, hx, hw⟩ := h
    · exact .inl (settled_owner h hphase hremaining.symm)
    · rw [ho] at hrace
      refine .inr ⟨hrace.2, x, hx, fun w hcandidate => ?_⟩
      rw [phases_owner, hphase]
      change Linearizes _ _ _ (Function.update (Function.update (phases s) none (phases s none))
        w _)
      rw [Function.update_eq_self]
      exact hw w (by cases w <;> exact hcandidate)
  · rename_i hne
    have hlt : top < s.queue.bottom := by omega
    obtain ⟨rfl, rfl⟩ := Prod.mk.inj hq
    obtain h | ⟨hrace, -⟩ := h
    · refine .inl (settled_ret h ?_ ?_)
      · rw [ho]
        simp only [ownerPhase, if_pos hlt]
      · rw [remaining, ho, stealBound, if_pos hlt]
        rfl
    · rw [ho] at hrace
      exact absurd hrace.1 hne

theorem cas_follows (hi : Inv tr s) (h : Follows hist s) {bottom top : ℤ} {elt : QueueElt α}
    (ho : s.owner = .pop (.cas bottom top elt)) {q : ClQueue α} {pc' : Pop α}
    (hq : clQueuePop s.queue (.cas bottom top elt) = (q, .run pc')) :
    Follows hist { s with queue := q, owner := .pop pc' } := by
  have hphase : ownerPhase s.queue s.owner = .pending .pop := by rw [ho]; rfl
  have hremaining : remaining s =
      caWindow (current s.queue) s.queue.top (s.queue.bottom + 1) := by
    rw [remaining, ho]
    rfl
  have howner := hi.owner
  have htop := hi.top_le
  rw [ho] at howner htop
  obtain ⟨rfl, rfl, hle, helt⟩ := howner
  simp only [logicalBottom] at htop
  simp only [clQueuePop] at hq
  split at hq
  · rename_i heq
    obtain rfl := helt heq
    obtain ⟨rfl, h2⟩ := Prod.mk.inj hq
    cases h2
    have hempty : ∀ b, b = s.queue.bottom + 1 →
        caWindow (current s.queue) b (s.queue.bottom + 1) = [] := by
      rintro b rfl
      exact caWindow_self _ _
    obtain h | ⟨-, x, hx, hw⟩ := h
    · refine .inl (settled_point h hphase (r := some (caGet (current s.queue) s.queue.bottom))
        rfl fun l hl => ?_)
      rw [hremaining, heq, caWindow_snoc _ le_rfl, caWindow_self, List.nil_append] at hl
      obtain ⟨x, rfl, hx⟩ := List.map_eq_singleton_iff.mp hl
      rw [← hx]
      exact ⟨[], .pop [] x, (hempty _ rfl).symm⟩
    · refine .inl ⟨[], ?_, (hempty _ rfl).symm⟩
      have hwin := hw none trivial
      rw [heq] at hx
      rw [phases_owner, ownerPhase, hx]
      exact hwin
  · rename_i hne
    obtain ⟨rfl, h2⟩ := Prod.mk.inj hq
    cases h2
    have heq : s.queue.top = s.queue.bottom + 1 := by omega
    obtain h | ⟨hrace, -⟩ := h
    · refine .inl (settled_point h hphase (r := some .EMPTY) rfl fun l hl => ?_)
      rw [hremaining, heq, caWindow_self, List.map_eq_nil_iff] at hl
      subst hl
      refine ⟨[], .popEmpty, ?_⟩
      change _ = caWindow (current s.queue) s.queue.top (s.queue.bottom + 1)
      rw [heq, caWindow_self]
      rfl
    · rw [ho] at hrace
      exact absurd hrace hne

theorem restore_follows (hi : Inv tr s) (h : Follows hist s) {bottom : ℤ} {elt : QueueElt α}
    (ho : s.owner = .pop (.restore bottom elt)) :
    Follows (hist ++ [.ret none (some elt)])
      { s with queue := { s.queue with bottom := bottom + 1 }, owner := .idle } := by
  have howner := hi.owner
  rw [ho] at howner
  obtain ⟨rfl, -⟩ := howner
  obtain h | ⟨hrace, -⟩ := h
  · refine .inl (settled_ret h (by rw [ho]; rfl) ?_)
    rw [remaining, ho]
    rfl
  · rw [ho] at hrace
    exact hrace.elim

theorem pop_follows (hi : Inv tr s) (h : Follows hist s) {pc : Pop α} (ho : s.owner = .pop pc)
    {q : ClQueue α} {out : Outcome (Pop α) (QueueElt α)} (hq : clQueuePop s.queue pc = (q, out)) :
    out.Meets (fun pc' => Follows hist { s with queue := q, owner := .pop pc' })
      (fun r => Follows (hist ++ [.ret none (some r)]) { s with queue := q, owner := .idle }) := by
  have howner := hi.owner
  rw [ho] at howner
  cases pc with
  | loadBottom | loadArray bottom =>
    obtain ⟨rfl, rfl⟩ := Prod.mk.inj hq
    obtain h | ⟨hrace, -⟩ := h
    · refine .inl (settled_owner h (by rw [ho]; rfl) ?_)
      rw [remaining, ho]
      rfl
    · rw [ho] at hrace
      exact hrace.elim
  | storeBottom bottom arr =>
    obtain ⟨rfl, rfl⟩ := Prod.mk.inj hq
    obtain ⟨hb, rfl⟩ := howner
    obtain h | ⟨hrace, -⟩ := h
    · refine .inl (settled_owner h (by rw [ho]; rfl) ?_)
      rw [remaining, ho]
      change caWindow (current s.queue) s.queue.top (bottom + 1) =
        caWindow (current s.queue) s.queue.top s.queue.bottom
      rw [hb, sub_add_cancel]
    · rw [ho] at hrace
      exact hrace.elim
  | loadTop bottom arr =>
    cases out with
    | run pc' => exact loadTop_follows hi h ho hq
    | done r =>
      simp only [clQueuePop] at hq
      split at hq <;> cases hq
  | get bottom top arr => exact get_follows hi h ho hq
  | cas bottom top elt =>
    cases out with
    | run pc' => exact cas_follows hi h ho hq
    | done r =>
      simp only [clQueuePop] at hq
      split at hq <;> cases hq
  | restore bottom elt =>
    obtain ⟨rfl, rfl⟩ := Prod.mk.inj hq
    exact restore_follows hi h ho

theorem call_follows (h : Follows hist s) (ho : s.owner = .idle) {o : Owner α} {op : Op α}
    (hphase : ownerPhase s.queue o = .pending op) (hbound : stealBound s.queue o = s.queue.bottom) :
    Follows (hist ++ [.call none op]) { s with owner := o } := by
  have hidle : phases s none = .idle := by rw [phases, ho]; rfl
  obtain ⟨l, hl, hrest⟩ | ⟨hrace, -⟩ := h
  · refine .inl ⟨l, ?_, hrest.trans ?_⟩
    · have hphases := phases_owner s s.queue o
      rw [hphase] at hphases
      change Linearizes _ _ _ (phases { s with queue := s.queue, owner := o })
      rw [hphases]
      exact hl.call op hidle
    · rw [remaining, remaining, ho]
      change _ = caWindow (current s.queue) s.queue.top (stealBound s.queue o)
      rw [hbound]
      rfl
  · rw [ho] at hrace
    exact hrace.elim

theorem owner_follows (hi : Inv tr s) (h : Follows hist s) {junk : ℤ → QueueElt α} {q : ClQueue α}
    {o : Owner α} {r : Option (Result α)}
    (hs : ownerStep junk s.queue s.owner = some (q, o, r)) :
    Follows (hist ++ (r.map fun r => .ret none (valueOf r)).toList)
      { s with queue := q, owner := o } := by
  cases ho : s.owner with
  | idle => simp [ownerStep, ho] at hs
  | push elt pc =>
    simp only [ownerStep, ho, Option.some.injEq] at hs
    have hsettled : Settled hist s := by
      obtain h | ⟨hrace, -⟩ := h
      · exact h
      · rw [ho] at hrace
        exact hrace.elim
    rcases hq : clQueuePush junk elt s.queue pc with ⟨q', out⟩
    have hnext := push_follows hi hsettled ho hq
    rw [hq] at hs
    cases out with
    | run pc' =>
      cases hs
      rw [Option.map_none, Option.toList_none, List.append_nil]
      exact .inl hnext
    | done r =>
      cases hs
      exact .inl hnext
  | pop pc =>
    simp only [ownerStep, ho, Option.some.injEq] at hs
    rcases hq : clQueuePop s.queue pc with ⟨q', out⟩
    have hnext := pop_follows hi h ho hq
    rw [hq] at hs
    cases out with
    | run pc' =>
      cases hs
      rw [Option.map_none, Option.toList_none, List.append_nil]
      exact hnext
    | done r =>
      cases hs
      exact hnext

end Libseff.ChaseLevOwner
