import Libseff.LockedQueueLinear

namespace Libseff.LockedQueueMoves

open CircularArrays TransitionRuns AtomicObjects SlotQueues LockedQueue LockedQueueSections
  LockedQueueSim LockedQueueOwner LockedQueueLinear

variable {ι α : Type} [DecidableEq ι]

variable {s s' : State ι α} {a a' : SlotQueue α} {p p' : Option ι → Phase (Op α) (Option α)}
  {hist : List (HistoryEvent (Option ι) (Op α) (Option α))}

theorem holds_unique {items items' : List α} {q : TlQueue α} {arr : ℕ} (h : Holds items q arr)
    (h' : Holds items' q arr) : items = items' := by
  obtain ⟨-, a, ha, -, -, hw⟩ := h
  obtain ⟨-, b, hb, -, -, hw'⟩ := h'
  obtain rfl := Option.some.inj (ha.symm.trans hb)
  exact List.map_injective_iff.mpr (Option.some_injective α) (hw.symm.trans hw')

omit [DecidableEq ι] in
theorem object_eq (h : Sim s a p) {slot : Option α} {l : List α}
    (hitems : Holds l s.queue (ownerArray s.queue s.owner))
    (hslot : slot = ownerSlot s.queue.buffer s.owner) : a = ⟨slot, l⟩ := by
  obtain ⟨slot', l'⟩ := a
  have h1 : l' = l := holds_unique h.holds hitems
  have h2 : slot' = slot := h.slot.trans hslot.symm
  rw [h1, h2]

theorem phases_owner (h : Sim s a p) (h' : Sim s' a' p') (ht : s'.thief = s.thief) :
    p' = Function.update p none (ownerPhase s'.owner) := by
  funext i
  cases i with
  | none => rw [Function.update_self, h'.phase_owner]
  | some i =>
    rw [Function.update_of_ne (Option.some_ne_none i), h'.phase_thief, h.phase_thief, ht]

theorem phases_thief (h : Sim s a p) (h' : Sim s' a' p') (ho : s'.owner = s.owner) {i : ι}
    {t : Thief α} (ht : s'.thief = Function.update s.thief i t) :
    p' = Function.update p (some i) (thiefPhase t) := by
  funext j
  cases j with
  | none =>
    rw [Function.update_of_ne (Option.some_ne_none i).symm, h'.phase_owner, h.phase_owner, ho]
  | some j =>
    rw [h'.phase_thief, ht]
    by_cases hj : j = i
    · subst hj
      rw [Function.update_self, Function.update_self]
    · rw [Function.update_of_ne hj, Function.update_of_ne (fun he => hj (Option.some.inj he)),
        h.phase_thief]

theorem moves_silent {i : Option ι} {x : Phase (Op α) (Option α)} (ha : a' = a)
    (hp : p i = x) (hp' : p' = Function.update p i x) : Moves (slotQueue α) i a p none a' p' := by
  subst ha
  rw [hp', update_phase hp]
  exact .silent

def OwnerMoves (s : State ι α) (a : SlotQueue α) (p : Option ι → Phase (Op α) (Option α))
    (q : TlQueue α) (o : Owner α) (e : Event ι α) : Prop :=
  ∀ a' p', Sim { s with queue := q, owner := o } a' p' → Moves (slotQueue α) none a p e a' p'

theorem push_moves {w : Push → Owner α} {op : Op α} {elt : α} {Q : Option α → Prop}
    (hw : PushCall w op elt Q) (h : Sim s a p) {pc : Push} (hpc : s.owner = w pc) {new_array : ℕ}
    (hfree : s.queue.arrays new_array = none) {junk : ℤ → Option α} {q : TlQueue α}
    {o : Outcome Push Unit}
    (hq : tlQueuePush new_array junk (some elt) s.queue pc = some (q, o)) :
    o.Meets (fun pc' => OwnerMoves s a p q (w pc') none)
      (fun _ => OwnerMoves s a p q .idle (some (.ret none none))) := by
  have hphase := h.phase_owner
  have hslot := h.slot
  have hinv := h.owner
  have hholds := h.holds
  rw [hpc, hw.phase] at hphase
  rw [hpc] at hslot
  rw [hpc, hw.inv] at hinv
  rw [hpc, hw.array] at hholds
  obtain ⟨hQ, hinv⟩ := hinv
  cases hin : insidePush pc with
  | false =>
    cases pc with
    | acquire =>
      simp only [tlQueuePush] at hq
      split at hq
      · cases hq
        intro a' p' h'
        refine moves_silent (object_eq h' (l := a.items) ?_ hslot) hphase ?_
        · rw [hw.array]
          exact hholds
        · rw [phases_owner h h' rfl, hw.phase]
      · cases hq
        intro a' p' h'
        refine moves_silent (object_eq h' (l := a.items) ?_
          (hslot.trans (hw.slot _ _ _ (by simp) (by simp)))) hphase ?_
        · rw [hw.array]
          exact hholds
        · rw [phases_owner h h' rfl, hw.phase]
          rfl
    | _ => cases hin
  | true =>
    obtain ⟨hbuf, ⟨pc', rfl, hr', hr, -, -, hq', -⟩ | ⟨rfl, hr, -, hq'⟩ | ⟨rfl, rfl, rfl⟩⟩ :=
      push_step hholds hinv hin hfree hq
    · intro a' p' h'
      rw [pushPhase_pending hr] at hphase
      refine moves_silent (object_eq h' (l := a.items) ?_ ?_) hphase ?_
      · rw [hw.array]
        exact hq'
      · rw [hslot, hbuf]
        exact hw.slot _ _ _ hr hr'
      · rw [phases_owner h h' rfl, hw.phase, pushPhase_pending hr']
    · intro a' p' h'
      rw [pushPhase_pending hr] at hphase
      have happly := hw.apply a s.queue.buffer pc hr hQ hslot
      have ha' : a' = ((slotQueue α).apply op a).1 := by
        rw [happly]
        refine object_eq h' ?_ ?_
        · rw [hw.array]
          exact hq'
        · rw [hw.slot_release, hbuf]
      have hp' : p' = Function.update p none (.done ((slotQueue α).apply op a).2) := by
        rw [phases_owner h h' rfl, hw.phase, happly]
        rfl
      rw [ha', hp']
      exact .point op hphase
    · intro a' p' h'
      rw [hw.slot_release] at hslot
      obtain rfl : a' = a := object_eq h' hholds hslot
      rw [phases_owner h h' rfl]
      exact .ret none hphase

theorem pop_moves (h : Sim s a p) {pc : Take α} (hpc : s.owner = .pop pc) {q : TlQueue α}
    {o : Outcome (Take α) (Option α)} (hq : takeLocked s.queue pc = some (q, o)) :
    o.Meets (fun pc' => OwnerMoves s a p q (.pop pc') none)
      (fun r => OwnerMoves s a p q .idle (some (.ret none r))) := by
  have hphase : p none = takePhase .pop pc := by rw [h.phase_owner, hpc]; rfl
  have hslot : a.slot = s.queue.buffer := by rw [h.slot, hpc]; rfl
  have hinv := h.owner
  have hholds := h.holds
  rw [hpc] at hinv hholds
  obtain ⟨hnone, hinv⟩ := hinv
  cases hin : insideTake pc with
  | false =>
    cases pc with
    | acquire =>
      simp only [takeLocked] at hq
      split at hq
      · cases hq
        intro a' p' h'
        exact moves_silent (object_eq h' hholds hslot) hphase (phases_owner h h' rfl)
      · cases hq
        intro a' p' h'
        exact moves_silent (object_eq h' hholds hslot) hphase (phases_owner h h' rfl)
    | _ => cases hin
  | true =>
    obtain ⟨hbuf, ⟨pc', rfl, hr', hr, -, rfl, -⟩ | ⟨rfl, hr, -, hq'⟩ | ⟨r, rfl, rfl, rfl⟩⟩ :=
      take_step hholds hinv hin hq
    · intro a' p' h'
      rw [takePhase_pending hr] at hphase
      refine moves_silent (object_eq h' hholds hslot) hphase ?_
      rw [phases_owner h h' rfl, ownerPhase, takePhase_pending hr']
    · intro a' p' h'
      rw [takePhase_pending hr] at hphase
      have happly : (slotQueue α).apply Op.pop a = (⟨a.slot, a.items.tail⟩, a.items.head?) :=
        pop_of_none (hslot.trans hnone)
      have ha' : a' = ((slotQueue α).apply Op.pop a).1 := by
        rw [happly]
        exact object_eq h' hq' (hslot.trans hbuf.symm)
      have hp' : p' = Function.update p none (.done ((slotQueue α).apply Op.pop a).2) := by
        rw [phases_owner h h' rfl, happly]
        rfl
      rw [ha', hp']
      exact .point Op.pop hphase
    · intro a' p' h'
      obtain rfl : a' = a := object_eq h' hholds hslot
      rw [phases_owner h h' rfl]
      exact .ret r hphase

theorem local_moves (h : Sim s a p) {o : Owner α} (hout : insideOwner s.owner = false)
    (hout' : insideOwner o = false) (hslot : a.slot = ownerSlot s.queue.buffer o)
    (hphase : ownerPhase o = ownerPhase s.owner) :
    OwnerMoves s a p s.queue o none := by
  have hholds := h.holds
  rw [ownerArray_outside hout] at hholds
  intro a' p' h'
  refine moves_silent (object_eq h' (l := a.items) ?_ hslot) h.phase_owner ?_
  · rw [ownerArray_outside hout']
    exact hholds
  · rw [phases_owner h h' rfl, ← hphase]

theorem storeBuffer_moves (h : Sim s a p) {elt : α} {old_buffer : Option α}
    (hpc : s.owner = .storeBuffer elt old_buffer) {new_array : ℕ} {junk : ℤ → Option α}
    {q : TlQueue α} {o : Owner α} {e : Event ι α}
    (hs : ownerStep ι new_array junk s.queue (.storeBuffer elt old_buffer) = some (q, o, e)) :
    OwnerMoves s a p q o e := by
  have hphase : p none = .pending (.priorityPush elt) := by rw [h.phase_owner, hpc]; rfl
  have hold : old_buffer = s.queue.buffer := by
    have hinv := h.owner
    rwa [hpc] at hinv
  have hslot : a.slot = old_buffer := by rw [h.slot, hpc, hold]; rfl
  have hholds := h.holds
  rw [hpc] at hholds
  cases old_buffer with
  | none =>
    cases hs
    intro a' p' h'
    have ha' : a' = ((slotQueue α).apply (Op.priorityPush elt) a).1 := by
      refine object_eq h' ?_ rfl
      rw [hslot, Option.toList_none, List.append_nil]
      exact hholds
    rw [ha', phases_owner h h' rfl]
    exact .pointRet (Op.priorityPush elt) hphase
  | some old =>
    cases hs
    intro a' p' h'
    exact moves_silent (object_eq h' hholds hslot) hphase (phases_owner h h' rfl)

theorem clearBuffer_moves (h : Sim s a p) {buffer : Option α} (hpc : s.owner = .clearBuffer buffer) :
    OwnerMoves s a p { s.queue with buffer := none } .idle (some (.ret none buffer)) := by
  have hphase : p none = .pending .pop := by rw [h.phase_owner, hpc]; rfl
  have hslot : a.slot = s.queue.buffer := by rw [h.slot, hpc]; rfl
  have hinv := h.owner
  have hholds := h.holds
  rw [hpc] at hinv hholds
  obtain ⟨rfl, hsome⟩ := hinv
  obtain ⟨elt, helt⟩ := Option.isSome_iff_exists.mp hsome
  have happly : (slotQueue α).apply Op.pop a = (⟨none, a.items⟩, some elt) :=
    pop_of_some (hslot.trans helt)
  intro a' p' h'
  have ha' : a' = ((slotQueue α).apply Op.pop a).1 := by
    rw [happly]
    exact object_eq h' hholds rfl
  have hret : s.queue.buffer = ((slotQueue α).apply Op.pop a).2 := by rw [happly, helt]
  rw [ha', phases_owner h h' rfl, hret]
  exact .pointRet Op.pop hphase

theorem owner_moves (h : Sim s a p) {new_array : ℕ} (hfree : s.queue.arrays new_array = none)
    {junk : ℤ → Option α} {q : TlQueue α} {o : Owner α} {e : Event ι α}
    (hs : ownerStep ι new_array junk s.queue s.owner = some (q, o, e)) :
    OwnerMoves s a p q o e := by
  cases hpc : s.owner with
  | idle => simp [ownerStep, hpc] at hs
  | push elt pc =>
    simp only [ownerStep, hpc, Option.bind_eq_bind, Option.bind_eq_some_iff] at hs
    obtain ⟨⟨q', out⟩, hq, hs⟩ := hs
    have hnext := push_moves (pushCall_push elt) h hpc hfree hq
    cases out with
    | run pc' | done r =>
      cases hs
      exact hnext
  | pushOld elt old_buffer pc =>
    simp only [ownerStep, hpc, Option.bind_eq_bind, Option.bind_eq_some_iff] at hs
    obtain ⟨⟨q', out⟩, hq, hs⟩ := hs
    have hnext := push_moves (pushCall_pushOld elt old_buffer) h hpc hfree hq
    cases out with
    | run pc' | done r =>
      cases hs
      exact hnext
  | loadBuffer elt =>
    have hslot : a.slot = s.queue.buffer := by rw [h.slot, hpc]; rfl
    rw [hpc] at hs
    cases hs
    exact local_moves h (by rw [hpc]; rfl) rfl hslot (by rw [hpc]; rfl)
  | storeBuffer elt old_buffer =>
    rw [hpc] at hs
    exact storeBuffer_moves h hpc hs
  | testBuffer =>
    have hslot : a.slot = s.queue.buffer := by rw [h.slot, hpc]; rfl
    rw [hpc] at hs
    cases hs
    split
    · exact local_moves h (by rw [hpc]; rfl) rfl hslot (by rw [hpc]; rfl)
    · exact local_moves h (by rw [hpc]; rfl) rfl hslot (by rw [hpc]; rfl)
  | takeBuffer =>
    have hslot : a.slot = s.queue.buffer := by rw [h.slot, hpc]; rfl
    rw [hpc] at hs
    cases hs
    exact local_moves h (by rw [hpc]; rfl) rfl hslot (by rw [hpc]; rfl)
  | clearBuffer buffer =>
    rw [hpc] at hs
    cases hs
    exact clearBuffer_moves h hpc
  | pop pc =>
    simp only [ownerStep, hpc, Option.bind_eq_bind, Option.bind_eq_some_iff] at hs
    obtain ⟨⟨q', out⟩, hq, hs⟩ := hs
    have hnext := pop_moves h hpc hq
    cases out with
    | run pc' | done r =>
      cases hs
      exact hnext

def ThiefMoves (s : State ι α) (a : SlotQueue α) (p : Option ι → Phase (Op α) (Option α)) (i : ι)
    (q : TlQueue α) (t : Thief α) (e : Event ι α) : Prop :=
  ∀ a' p', Sim { s with queue := q, thief := Function.update s.thief i t } a' p' →
    Moves (slotQueue α) (some i) a p e a' p'

theorem steal_moves (h : Sim s a p) {i : ι} {pc : Take α} (hpc : s.thief i = .steal pc)
    {q : TlQueue α} {o : Outcome (Take α) (Option α)} (hq : takeLocked s.queue pc = some (q, o)) :
    o.Meets (fun pc' => ThiefMoves s a p i q (.steal pc') none)
      (fun r => ThiefMoves s a p i q .idle (some (.ret (some i) r))) := by
  have hphase : p (some i) = takePhase .steal pc := by rw [h.phase_thief, hpc]; rfl
  have hinv := h.thief i
  rw [hpc] at hinv
  cases hin : insideTake pc with
  | false =>
    cases pc with
    | acquire =>
      simp only [takeLocked] at hq
      split at hq
      · cases hq
        intro a' p' h'
        exact moves_silent (object_eq h' h.holds h.slot) hphase (phases_thief h h' rfl rfl)
      · rename_i hlock
        obtain ⟨hout, -⟩ := outside_of_unlocked h (Bool.eq_false_iff.mpr hlock)
        have hholds := h.holds
        rw [ownerArray_outside hout] at hholds
        cases hq
        intro a' p' h'
        refine moves_silent (object_eq h' (l := a.items) ?_ h.slot) hphase
          (phases_thief h h' rfl rfl)
        rw [ownerArray_outside hout]
        exact hholds
    | _ => cases hin
  | true =>
    obtain ⟨hout, -⟩ := thief_alone h (i := i) (by rw [hpc]; exact hin)
    have hholds := h.holds
    rw [ownerArray_outside hout] at hholds
    obtain ⟨hbuf, ⟨pc', rfl, hr', hr, -, rfl, -⟩ | ⟨rfl, hr, -, hq'⟩ | ⟨r, rfl, rfl, rfl⟩⟩ :=
      take_step hholds hinv hin hq
    · intro a' p' h'
      rw [takePhase_pending hr] at hphase
      refine moves_silent (object_eq h' h.holds h.slot) hphase ?_
      rw [phases_thief h h' rfl rfl, thiefPhase, takePhase_pending hr']
    · intro a' p' h'
      rw [takePhase_pending hr] at hphase
      have ha' : a' = ((slotQueue α).apply Op.steal a).1 := by
        refine object_eq h' ?_ ?_
        · rw [ownerArray_outside hout]
          exact hq'
        · rw [hbuf]
          exact h.slot
      rw [ha', phases_thief h h' rfl rfl]
      exact .point Op.steal hphase
    · intro a' p' h'
      have ha' : a' = a := by
        refine object_eq h' (l := a.items) ?_ h.slot
        rw [ownerArray_outside hout]
        exact hholds
      rw [ha', phases_thief h h' rfl rfl]
      exact .ret r hphase

def threadOf : Action ι α → Option ι
  | .callSteal i | .thief i => some i
  | _ => none

theorem call_moves (h : Sim s a p) (op : Op α) {o : Owner α} (ho : s.owner = .idle)
    (hphase : ownerPhase o = .pending op) (hout : insideOwner o = false)
    (hslot : ownerSlot s.queue.buffer o = s.queue.buffer) :
    OwnerMoves s a p s.queue o (some (.call none op)) := by
  have hholds := h.holds
  have hslot' : a.slot = s.queue.buffer := by rw [h.slot, ho]; rfl
  rw [ho] at hholds
  intro a' p' h'
  have ha' : a' = a := by
    refine object_eq h' (l := a.items) ?_ (hslot'.trans hslot.symm)
    rw [ownerArray_outside hout]
    exact hholds
  rw [ha', phases_owner h h' rfl, hphase]
  exact .call op (by rw [h.phase_owner, ho]; rfl)

theorem step_moves (h : Sim s a p) (hl : Linearized (slotQueue α) hist a p) {x : Action ι α}
    (hm : mayRun s x) {e : Event ι α} (hs : step s x = some (s', e)) :
    ∃ a' p', Sim s' a' p' ∧ Linearized (slotQueue α) (hist ++ e.toList) a' p' ∧
      Moves (slotQueue α) (threadOf x) a p e a' p' := by
  obtain ⟨a', p', h', hl'⟩ := step_answered h hl hm hs
  refine ⟨a', p', h', hl', ?_⟩
  cases x with
  | callPush elt | callPriorityPush elt | callPop =>
    simp only [step] at hs
    split at hs
    · rename_i ho
      cases hs
      exact call_moves h _ ho rfl rfl rfl a' p' h'
    · cases hs
  | owner new_array junk =>
    simp only [step, Option.bind_eq_bind, Option.bind_eq_some_iff] at hs
    obtain ⟨⟨q, o, e'⟩, ho, hs⟩ := hs
    cases hs
    exact owner_moves h hm ho a' p' h'
  | callSteal i =>
    simp only [step] at hs
    split at hs
    · rename_i ht
      cases hs
      obtain rfl : a' = a := object_eq h' h.holds h.slot
      rw [phases_thief h h' rfl rfl]
      exact .call Op.steal ((h.phase_thief i).trans (by rw [ht]; rfl))
    · cases hs
  | thief i =>
    simp only [step, Option.bind_eq_bind, Option.bind_eq_some_iff] at hs
    obtain ⟨⟨q, t, e'⟩, ht, hs⟩ := hs
    cases hs
    cases hpc : s.thief i with
    | idle => simp [thiefStep, hpc] at ht
    | steal pc =>
      simp only [thiefStep, hpc, Option.bind_eq_bind, Option.bind_eq_some_iff] at ht
      obtain ⟨⟨q', out⟩, hq, ht⟩ := ht
      have hnext := steal_moves h hpc hq
      cases out with
      | run pc' | done r =>
        cases ht
        exact hnext a' p' h'

end Libseff.LockedQueueMoves
