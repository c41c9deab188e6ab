import Libseff.LockedQueueSim

namespace Libseff.LockedQueueOwner

open CircularArrays TransitionRuns AtomicObjects SlotQueues LockedQueue LockedQueueSections
  LockedQueueSim

variable {ι α : Type} [DecidableEq ι]

variable {s : State ι α} {a : SlotQueue α} {p : Option ι → Phase (Op α) (Option α)}
  {hist : List (HistoryEvent (Option ι) (Op α) (Option α))}

def Answered (hist : List (HistoryEvent (Option ι) (Op α) (Option α))) (s' : State ι α)
    (e : Event ι α) : Prop :=
  ∃ a' p', Sim s' a' p' ∧ Linearized (slotQueue α) (hist ++ e.toList) a' p'

theorem answered_silent {s' : State ι α} (hl : Linearized (slotQueue α) hist a p)
    (hs : Sim s' a p) : Answered hist s' none :=
  ⟨a, p, hs, by rwa [Option.toList_none, List.append_nil]⟩

theorem owner_local (h : Sim s a p) {o : Owner α} (hout : insideOwner s.owner = false)
    (hout' : insideOwner o = false) (hslot : a.slot = ownerSlot s.queue.buffer o)
    (ho : OwnerInv a.items s.queue o) :
    Sim { s with owner := o } a (Function.update p none (ownerPhase o)) := by
  have hq := h.holds
  rw [ownerArray_outside hout] at hq
  refine sim_owner h ?_ hslot ho h.thief ?_ (fun i hi => (h.thief_locked i hi).1)
  · rwa [ownerArray_outside hout']
  · intro hi
    rw [hout'] at hi
    cases hi

theorem owner_buffer (h : Sim s a p) (a' : SlotQueue α) (buffer : Option α) {o : Owner α}
    (hitems : a'.items = a.items) (hout : insideOwner s.owner = false)
    (hout' : insideOwner o = false) (hslot : a'.slot = ownerSlot buffer o)
    (ho : OwnerInv a.items { s.queue with buffer := buffer } o) :
    Sim { s with queue := { s.queue with buffer := buffer }, owner := o } a'
      (Function.update p none (ownerPhase o)) := by
  have hq := h.holds
  rw [ownerArray_outside hout] at hq
  refine sim_owner h ?_ hslot (hitems ▸ ho) ?_ ?_ (fun i hi => (h.thief_locked i hi).1)
  · rw [hitems, ownerArray_outside hout']
    exact hq
  · exact fun i => hitems ▸ thiefInv_locked (h.thief i) s.queue.locked buffer
  · intro hi
    rw [hout'] at hi
    cases hi

theorem owner_acquire (h : Sim s a p) {o : Owner α} (hout : insideOwner s.owner = false)
    (hfree : s.queue.locked = false)
    (harr : ownerArray { s.queue with locked := true } o = s.queue.array)
    (hslot : a.slot = ownerSlot s.queue.buffer o)
    (ho : OwnerInv a.items { s.queue with locked := true } o) :
    Sim { s with queue := { s.queue with locked := true }, owner := o } a
      (Function.update p none (ownerPhase o)) := by
  have hq := h.holds
  rw [ownerArray_outside hout] at hq
  have hthief : ∀ i, insideThief (s.thief i) = false := by
    intro i
    cases hi : insideThief (s.thief i) with
    | false => rfl
    | true =>
      have := (h.thief_locked i hi).1
      rw [hfree] at this
      cases this
  refine sim_owner h ?_ hslot ho (fun i => thiefInv_outside (hthief i)) ?_ ?_
  · rw [harr]
    exact hq
  · exact fun _ => ⟨rfl, hthief⟩
  · exact fun i _ => rfl

theorem owner_inside (h : Sim s a p) (a' : SlotQueue α) {q : TlQueue α} {o : Owner α}
    (hin : insideOwner s.owner = true) (hlocked : q.locked = s.queue.locked)
    (hq : Holds a'.items q (ownerArray q o)) (hslot : a'.slot = ownerSlot q.buffer o)
    (ho : OwnerInv a'.items q o) :
    Sim { s with queue := q, owner := o } a' (Function.update p none (ownerPhase o)) := by
  obtain ⟨h1, h2⟩ := h.owner_locked hin
  refine sim_owner h hq hslot ho (fun i => thiefInv_outside (h2 i)) ?_ ?_
  · exact fun _ => ⟨hlocked.trans h1, h2⟩
  · exact fun i _ => hlocked.trans h1

theorem owner_release (h : Sim s a p) (hin : insideOwner s.owner = true)
    (harr : ownerArray s.queue s.owner = s.queue.array) (hslot : a.slot = s.queue.buffer) :
    Sim { s with queue := { s.queue with locked := false }, owner := .idle } a
      (Function.update p none .idle) := by
  obtain ⟨-, h2⟩ := h.owner_locked hin
  have hq := h.holds
  rw [harr] at hq
  refine sim_owner h (o := .idle) hq hslot trivial (fun i => thiefInv_outside (h2 i)) ?_ ?_
  · intro hi
    cases hi
  · intro i hi
    rw [h2 i] at hi
    cases hi

/-- A call of the owner that ends with `tl_queue_push`: the states `w` of its
locked section, its operation, and what it appends. -/
structure PushCall (w : Push → Owner α) (op : Op α) (elt : α) (Q : Option α → Prop) : Prop where
  phase : ∀ pc, ownerPhase (w pc) = pushPhase op pc
  inside : ∀ pc, insideOwner (w pc) = insidePush pc
  array : ∀ q pc, ownerArray q (w pc) = pushArray q pc
  inv : ∀ items q pc, OwnerInv items q (w pc) ↔ Q q.buffer ∧ PushInv items elt q pc
  slot : ∀ buffer pc pc', pc ≠ .release → pc' ≠ .release →
    ownerSlot buffer (w pc) = ownerSlot buffer (w pc')
  slot_release : ∀ buffer, ownerSlot buffer (w .release) = buffer
  apply : ∀ a buffer pc, pc ≠ .release → Q buffer → a.slot = ownerSlot buffer (w pc) →
    (slotQueue α).apply op a = (⟨buffer, a.items ++ [elt]⟩, none)

omit [DecidableEq ι] in
theorem pushPhase_pending {op : Op α} {pc : Push} (h : pc ≠ .release) :
    pushPhase op pc = .pending op := by
  cases pc with
  | release => exact absurd rfl h
  | _ => rfl

omit [DecidableEq ι] in
theorem pushCall_push (elt : α) : PushCall (.push elt) (.push elt) elt fun _ => True where
  phase := fun _ => rfl
  inside := fun _ => rfl
  array := fun _ _ => rfl
  inv := fun _ _ _ => (and_iff_right trivial).symm
  slot := fun _ _ _ _ _ => rfl
  slot_release := fun _ => rfl
  apply := by
    rintro ⟨slot, items⟩ buffer pc - - rfl
    rfl

omit [DecidableEq ι] in
theorem ownerSlot_pushOld {elt old_buffer : α} {buffer : Option α} {pc : Push}
    (h : pc ≠ .release) : ownerSlot buffer (.pushOld elt old_buffer pc) = some old_buffer := by
  cases pc with
  | release => exact absurd rfl h
  | _ => rfl

omit [DecidableEq ι] in
theorem pushCall_pushOld (elt old_buffer : α) :
    PushCall (.pushOld elt old_buffer) (.priorityPush elt) old_buffer fun b => b = some elt where
  phase := fun _ => rfl
  inside := fun _ => rfl
  array := fun _ _ => rfl
  inv := fun _ _ _ => Iff.rfl
  slot := fun _ _ _ h h' => (ownerSlot_pushOld h).trans (ownerSlot_pushOld h').symm
  slot_release := fun _ => rfl
  apply := by
    rintro ⟨slot, items⟩ buffer pc hpc rfl hslot
    rw [ownerSlot_pushOld hpc] at hslot
    obtain rfl : slot = some old_buffer := hslot
    rfl

theorem push_answered {w : Push → Owner α} {op : Op α} {elt : α} {Q : Option α → Prop}
    (hw : PushCall w op elt Q) (h : Sim s a p) (hl : Linearized (slotQueue α) hist a p)
    {pc : Push} (hpc : s.owner = w pc) {new_array : ℕ} (hfree : s.queue.arrays new_array = none)
    {junk : ℤ → Option α} {q : TlQueue α} {o : Outcome Push Unit}
    (hq : tlQueuePush new_array junk (some elt) s.queue pc = some (q, o)) :
    o.Meets (fun pc' => Answered hist { s with queue := q, owner := w pc' } none)
      (fun _ => Answered hist { s with queue := q, owner := .idle } (some (.ret none none))) := by
  have hphase := h.phase_owner
  have hslot := h.slot
  have hinv := h.owner
  have hholds := h.holds
  rw [hpc, hw.phase] at hphase
  rw [hpc] at hslot
  rw [hpc, hw.inv] at hinv
  rw [hpc, hw.array] at hholds
  obtain ⟨hQ, hinv⟩ := hinv
  cases hin : insidePush pc with
  | false =>
    cases pc with
    | acquire =>
      have hout : insideOwner s.owner = false := by rw [hpc, hw.inside]; rfl
      simp only [tlQueuePush] at hq
      split at hq
      · cases hq
        have hsim := owner_local h (o := w .acquire) hout (hw.inside _) hslot
          ((hw.inv _ _ _).mpr ⟨hQ, trivial⟩)
        rw [hw.phase, update_phase hphase] at hsim
        exact answered_silent hl hsim
      · rename_i hlock
        cases hq
        have hsim := owner_acquire h (o := w .load) hout (Bool.eq_false_iff.mpr hlock)
          (hw.array _ _) (hslot.trans (hw.slot _ _ _ (by simp) (by simp)))
          ((hw.inv _ _ _).mpr ⟨hQ, trivial⟩)
        have hload : p none = pushPhase op .load := hphase
        rw [hw.phase, update_phase hload] at hsim
        exact answered_silent hl hsim
    | _ => cases hin
  | true =>
    have hino : insideOwner s.owner = true := by rw [hpc, hw.inside, hin]
    obtain ⟨hbuf, ⟨pc', rfl, hr', hr, -, hlock, hq', hi'⟩ | ⟨rfl, hr, hlock, hq'⟩ |
      ⟨rfl, rfl, rfl⟩⟩ := push_step hholds hinv hin hfree hq
    · have hsim := owner_inside h a (o := w pc') hino hlock (by rwa [hw.array])
        (by rw [hslot, hbuf]; exact hw.slot _ _ _ hr hr')
        ((hw.inv _ _ _).mpr ⟨hbuf ▸ hQ, hi'⟩)
      rw [pushPhase_pending hr] at hphase
      rw [hw.phase, pushPhase_pending hr', update_phase hphase] at hsim
      exact answered_silent hl hsim
    · rw [pushPhase_pending hr] at hphase
      have happly := hw.apply a s.queue.buffer pc hr hQ hslot
      have hpoint := Linearized.point hl hphase
      rw [happly] at hpoint
      have hsim := owner_inside h ⟨s.queue.buffer, a.items ++ [elt]⟩ (o := w .release)
        hino hlock (by rw [hw.array]; exact hq') (by rw [hw.slot_release, hbuf])
        ((hw.inv _ _ _).mpr ⟨hbuf ▸ hQ, trivial⟩)
      rw [hw.phase] at hsim
      exact answered_silent hpoint hsim
    · rw [hw.slot_release] at hslot
      have hsim := owner_release h hino (by rw [hpc, hw.array]; rfl) hslot
      exact ⟨a, _, hsim, Linearized.ret hl hphase⟩

omit [DecidableEq ι] in
theorem takePhase_pending {op : Op α} {pc : Take α} (h : ∀ r, pc ≠ .release r) :
    takePhase op pc = .pending op := by
  cases pc with
  | release r => exact absurd rfl (h r)
  | _ => rfl

theorem pop_answered (h : Sim s a p) (hl : Linearized (slotQueue α) hist a p) {pc : Take α}
    (hpc : s.owner = .pop pc) {q : TlQueue α} {o : Outcome (Take α) (Option α)}
    (hq : takeLocked s.queue pc = some (q, o)) :
    o.Meets (fun pc' => Answered hist { s with queue := q, owner := .pop pc' } none)
      (fun r => Answered hist { s with queue := q, owner := .idle } (some (.ret none r))) := by
  have hphase : p none = takePhase .pop pc := by rw [h.phase_owner, hpc]; rfl
  have hslot : a.slot = s.queue.buffer := by rw [h.slot, hpc]; rfl
  have hinv : s.queue.buffer = none ∧ TakeInv a.items s.queue pc := by
    have ho := h.owner
    rwa [hpc] at ho
  have hholds : Holds a.items s.queue s.queue.array := by
    have hh := h.holds
    rwa [hpc] at hh
  obtain ⟨hnone, hinv⟩ := hinv
  cases hin : insideTake pc with
  | false =>
    cases pc with
    | acquire =>
      have hout : insideOwner s.owner = false := by rw [hpc]; rfl
      simp only [takeLocked] at hq
      split at hq
      · cases hq
        have hsim := owner_local h (o := .pop .acquire) hout rfl hslot ⟨hnone, trivial⟩
        rw [ownerPhase, update_phase hphase] at hsim
        exact answered_silent hl hsim
      · rename_i hlock
        cases hq
        have hsim := owner_acquire h (o := .pop .load) hout (Bool.eq_false_iff.mpr hlock) rfl
          hslot ⟨hnone, trivial⟩
        have hload : p none = takePhase .pop .load := hphase
        rw [ownerPhase, update_phase hload] at hsim
        exact answered_silent hl hsim
    | _ => cases hin
  | true =>
    have hino : insideOwner s.owner = true := by rw [hpc]; exact hin
    obtain ⟨hbuf, ⟨pc', rfl, hr', hr, -, rfl, hi'⟩ | ⟨rfl, hr, hlock, hq'⟩ | ⟨r, rfl, rfl, rfl⟩⟩ :=
      take_step hholds hinv hin hq
    · have hsim := owner_inside h a (o := .pop pc') hino rfl hholds hslot ⟨hnone, hi'⟩
      rw [takePhase_pending hr] at hphase
      rw [ownerPhase, takePhase_pending hr', update_phase hphase] at hsim
      exact answered_silent hl hsim
    · rw [takePhase_pending hr] at hphase
      have hpoint := Linearized.point hl hphase
      simp only [slotQueue, pop_of_none (hslot.trans hnone)] at hpoint
      have hsim := owner_inside h ⟨a.slot, a.items.tail⟩
        (o := .pop (.release a.items.head?)) hino hlock hq' (hslot.trans hbuf.symm)
        ⟨hbuf.trans hnone, trivial⟩
      exact answered_silent hpoint hsim
    · have hsim := owner_release h hino (by rw [hpc]; rfl) hslot
      exact ⟨a, _, hsim, Linearized.ret hl hphase⟩

/-- The store that fills the slot is the point of a `priority_push` into an empty
slot; the occupant that it displaces has still to be appended. -/
theorem storeBuffer_answered (h : Sim s a p) (hl : Linearized (slotQueue α) hist a p)
    {elt : α} {old_buffer : Option α} (hpc : s.owner = .storeBuffer elt old_buffer)
    {new_array : ℕ} {junk : ℤ → Option α} {q : TlQueue α} {o : Owner α} {e : Event ι α}
    (hs : ownerStep ι new_array junk s.queue (.storeBuffer elt old_buffer) = some (q, o, e)) :
    Answered hist { s with queue := q, owner := o } e := by
  have hphase : p none = .pending (.priorityPush elt) := by rw [h.phase_owner, hpc]; rfl
  have hout : insideOwner s.owner = false := by rw [hpc]; rfl
  have hold : old_buffer = s.queue.buffer := by
    have hinv := h.owner
    rwa [hpc] at hinv
  have hslot : a.slot = old_buffer := by rw [h.slot, hpc, hold]; rfl
  cases old_buffer with
  | none =>
    cases hs
    have hsim := owner_buffer h (priorityPush elt a) (some elt) (o := .idle)
      (by simp [priorityPush, hslot]) hout rfl rfl trivial
    exact ⟨_, _, hsim, Linearized.point_ret hl hphase⟩
  | some old =>
    cases hs
    have hsim := owner_buffer h a (some elt) (o := .pushOld elt old .acquire)
      rfl hout rfl hslot ⟨rfl, trivial⟩
    have hphase' : p none = pushPhase (.priorityPush elt) .acquire := hphase
    rw [ownerPhase, update_phase hphase'] at hsim
    exact answered_silent hl hsim

theorem testBuffer_answered (h : Sim s a p) (hl : Linearized (slotQueue α) hist a p)
    (hpc : s.owner = .testBuffer) :
    Answered hist
      { s with owner := if s.queue.buffer.isSome then .takeBuffer else .pop .acquire } none := by
  have hphase : p none = .pending .pop := by rw [h.phase_owner, hpc]; rfl
  have hout : insideOwner s.owner = false := by rw [hpc]; rfl
  have hslot : a.slot = s.queue.buffer := by rw [h.slot, hpc]; rfl
  by_cases hb : s.queue.buffer.isSome
  · have hsim := owner_local h (o := .takeBuffer) hout rfl hslot hb
    rw [ownerPhase, update_phase hphase] at hsim
    rw [if_pos hb]
    exact answered_silent hl hsim
  · have hnone : s.queue.buffer = none := Option.not_isSome_iff_eq_none.mp hb
    have hsim := owner_local h (o := .pop .acquire) hout rfl hslot ⟨hnone, trivial⟩
    have hphase' : p none = takePhase .pop .acquire := hphase
    rw [ownerPhase, update_phase hphase'] at hsim
    rw [if_neg hb]
    exact answered_silent hl hsim

/-- The store that empties the slot is the point of a pop that found it full. -/
theorem clearBuffer_answered (h : Sim s a p) (hl : Linearized (slotQueue α) hist a p)
    {buffer : Option α} (hpc : s.owner = .clearBuffer buffer) :
    Answered hist { s with queue := { s.queue with buffer := none }, owner := .idle }
      (some (.ret none buffer)) := by
  have hphase : p none = .pending .pop := by rw [h.phase_owner, hpc]; rfl
  have hout : insideOwner s.owner = false := by rw [hpc]; rfl
  have hslot : a.slot = s.queue.buffer := by rw [h.slot, hpc]; rfl
  have hinv := h.owner
  rw [hpc] at hinv
  obtain ⟨rfl, hsome⟩ := hinv
  obtain ⟨elt, helt⟩ := Option.isSome_iff_exists.mp hsome
  have hpop := pop_of_some (hslot.trans helt)
  have hsim := owner_buffer h { a with slot := none } none (o := .idle)
    rfl hout rfl rfl trivial
  have hpoint := Linearized.point_ret hl hphase
  simp only [slotQueue, hpop] at hpoint
  rw [helt]
  exact ⟨_, _, hsim, hpoint⟩

theorem owner_answered (h : Sim s a p) (hl : Linearized (slotQueue α) hist a p)
    {new_array : ℕ} (hfree : s.queue.arrays new_array = none) {junk : ℤ → Option α}
    {q : TlQueue α} {o : Owner α} {e : Event ι α}
    (hs : ownerStep ι new_array junk s.queue s.owner = some (q, o, e)) :
    Answered hist { s with queue := q, owner := o } e := by
  have hslot := h.slot
  have hinv := h.owner
  cases hpc : s.owner with
  | idle => simp [ownerStep, hpc] at hs
  | push elt pc =>
    simp only [ownerStep, hpc, Option.bind_eq_bind, Option.bind_eq_some_iff] at hs
    obtain ⟨⟨q', out⟩, hq, hs⟩ := hs
    have hnext := push_answered (pushCall_push elt) h hl hpc hfree hq
    cases out with
    | run pc' | done r =>
      cases hs
      exact hnext
  | pushOld elt old_buffer pc =>
    simp only [ownerStep, hpc, Option.bind_eq_bind, Option.bind_eq_some_iff] at hs
    obtain ⟨⟨q', out⟩, hq, hs⟩ := hs
    have hnext := push_answered (pushCall_pushOld elt old_buffer) h hl hpc hfree hq
    cases out with
    | run pc' | done r =>
      cases hs
      exact hnext
  | loadBuffer elt =>
    rw [hpc] at hs hslot
    cases hs
    have hphase : p none = .pending (.priorityPush elt) := by rw [h.phase_owner, hpc]; rfl
    have hsim := owner_local h (o := .storeBuffer elt s.queue.buffer) (by rw [hpc]; rfl) rfl
      hslot rfl
    rw [ownerPhase, update_phase hphase] at hsim
    exact answered_silent hl hsim
  | storeBuffer elt old_buffer =>
    rw [hpc] at hs
    exact storeBuffer_answered h hl hpc hs
  | testBuffer =>
    rw [hpc] at hs
    cases hs
    exact testBuffer_answered h hl hpc
  | takeBuffer =>
    have hphase : p none = .pending .pop := by rw [h.phase_owner, hpc]; rfl
    have hout : insideOwner s.owner = false := by rw [hpc]; rfl
    rw [hpc] at hs hslot hinv
    cases hs
    have hsim := owner_local h (o := .clearBuffer s.queue.buffer) hout rfl hslot ⟨rfl, hinv⟩
    rw [ownerPhase, update_phase hphase] at hsim
    exact answered_silent hl hsim
  | clearBuffer buffer =>
    rw [hpc] at hs
    cases hs
    exact clearBuffer_answered h hl hpc
  | pop pc =>
    simp only [ownerStep, hpc, Option.bind_eq_bind, Option.bind_eq_some_iff] at hs
    obtain ⟨⟨q', out⟩, hq, hs⟩ := hs
    have hnext := pop_answered h hl hpc hq
    cases out with
    | run pc' | done r =>
      cases hs
      exact hnext

end Libseff.LockedQueueOwner
