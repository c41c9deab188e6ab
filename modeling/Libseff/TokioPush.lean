import Libseff.TokioInvariant

namespace Libseff.TokioPush

open CircularArrays TransitionRuns TokioSteps TokioInvariant

variable {ι α : Type}

/-- A step of a push that neither appends its element nor lets a thief see a
difference in the elements that are there. -/
structure Silent (log : List (QueueElt α)) (q q' : TkQueue α) : Prop where
  inv : QueueInv log q'
  head : q'.head = q.head
  tail : q'.tail = q.tail
  buffer : q'.buffer = q.buffer
  published : ∀ p, Published q p → Published q' p
  bound : ∀ p, Published q p → ∀ i, i < q.tail → i < bound q' p → i < bound q p

theorem silent_refl {log : List (QueueElt α)} {q : TkQueue α} (h : QueueInv log q) :
    Silent log q q :=
  ⟨h, rfl, rfl, rfl, fun _ h => h, fun _ _ _ _ h => h⟩

theorem silent_private {log : List (QueueElt α)} {q : TkQueue α} (h : QueueInv log q)
    {new n : ℕ} (hnew : ¬ Published q new) (hn : q.allocated ≤ n) {arr : CircularArray (QueueElt α)}
    (ha : WellFormed arr) : Silent log q { storeArrays q new arr with allocated := n } := by
  have hne : ∀ p, Published q p → (storeArrays q new arr).arrays p = q.arrays p :=
    fun p hp => Function.update_of_ne (fun he : p = new => hnew (he ▸ hp)) _ _
  refine ⟨⟨wellFormed_update h.wf new ha, fun p hp => (h.allocated p hp).trans_le hn,
    h.not_replaced, h.replaced_le, h.head_nonneg, h.head_le, h.tail_eq, ?_, ?_⟩, rfl, rfl, rfl,
    fun _ h => h, fun _ _ _ _ h => h⟩
  · exact h.fits.trans (congrArg CircularArray.size (hne _ (.inl rfl))).ge
  · intro p hp i h1 h2
    rw [h.holds p hp i h1 h2]
    exact (congrArg (fun a => some (caGet a i)) (hne p hp)).symm

theorem copyNext_inv {elt : QueueElt α} {q : TkQueue α} {new : ℕ} {head tail i : ℤ}
    (h : Copying q new head tail i) (hi : i ≤ tail) :
    PushInv elt q (copyNext q.array new head tail i) := by
  unfold copyNext
  split
  · exact ⟨rfl, by assumption, h⟩
  · obtain rfl : i = tail := by omega
    exact h

theorem push_loadTail {log : List (QueueElt α)} {q q' : TkQueue α} (h : QueueInv log q)
    {junk : ℤ → QueueElt α} {elt : QueueElt α} {arr : ℕ} {head : ℤ} {pc' : Push α}
    (hi : PushInv elt q (.loadTail arr head))
    (hq : tkQueuePush junk elt q (.loadTail arr head) = (q', .run pc')) :
    Silent log q q' ∧ PushInv elt q' pc' := by
  obtain ⟨rfl, hh, hf⟩ := hi
  have hp := (h.wf q.array).size_pos
  have hle := h.head_le
  simp only [tkQueuePush] at hq
  split at hq
  · cases hq
    have hwf := circularArrayGrow_wellFormed (h.wf q.array) junk
    have hnew : (storeArrays q q.allocated (circularArrayGrow (q.arrays q.array) junk)).arrays
        q.allocated = circularArrayGrow (q.arrays q.array) junk := Function.update_self ..
    have hg : (circularArrayGrow (q.arrays q.array) junk).size = (q.arrays q.array).size * 2 := rfl
    simp only [current] at hf
    have hfresh : ¬ Published q q.allocated := fun hp => lt_irrefl _ (h.allocated _ hp)
    refine ⟨silent_private h hfresh (Nat.le_succ _) hwf,
      copyNext_inv ⟨rfl, hh, ?_, hfresh, Nat.lt_succ_self _, le_rfl, ?_⟩ (by omega)⟩
    · simp only [hnew]
      omega
    · exact fun j h1 h2 => absurd h1 (by omega)
  · cases hq
    exact ⟨silent_refl h, rfl, rfl, hh, by simp only [current] at hf ⊢; omega⟩

theorem push_copySet {log : List (QueueElt α)} {q : TkQueue α} (h : QueueInv log q)
    {elt v : QueueElt α} {arr new : ℕ} {head tail i : ℤ}
    (hi : PushInv elt q (.copySet arr new head tail i v)) :
    Silent log q (storeArrays q new (caSet (q.arrays new) i v)) ∧
      PushInv elt (storeArrays q new (caSet (q.arrays new) i v))
        (copyNext arr new head tail (i + 1)) := by
  obtain ⟨rfl, rfl, hlt, hc⟩ := hi
  have hnew : (storeArrays q new (caSet (q.arrays new) i (caGet (current q) i))).arrays new =
      caSet (q.arrays new) i (caGet (current q) i) := Function.update_self ..
  have hcur : current (storeArrays q new (caSet (q.arrays new) i (caGet (current q) i))) =
      current q := Function.update_of_ne (fun he => hc.fresh (.inl he.symm)) _ _
  refine ⟨silent_private h hc.fresh le_rfl (caSet_wellFormed (h.wf new) i _),
    copyNext_inv ⟨hc.tail_eq, hc.head_le, ?_, hc.fresh, hc.allocated, ?_, ?_⟩ (by omega)⟩
  · rw [hnew]
    exact hc.fits
  · have := hc.le
    omega
  · intro j h1 h2
    rw [hnew, hcur]
    have := hc.fits
    exact caGet_copied (h.wf new) (by omega) hc.copied j h1 h2

theorem push_storeArray {log : List (QueueElt α)} {q : TkQueue α} (h : QueueInv log q)
    {elt : QueueElt α} {new : ℕ} {head tail : ℤ} (hi : PushInv elt q (.storeArray new head tail)) :
    Silent log q (publishArray q new tail) ∧
      PushInv elt (publishArray q new tail) (.set new head tail) := by
  have hc : Copying q new head tail tail := hi
  have htail := hc.tail_eq
  have hhead := hc.head_le
  have hfits := hc.fits
  have hcur := bound_current h
  have hold : ∀ p, p ≠ q.array → (publishArray q new tail).replaced p = q.replaced p :=
    fun p hp => Function.update_of_ne hp _ _
  have hself : (publishArray q new tail).replaced q.array = some tail := Function.update_self ..
  have hne : new ≠ q.array := fun he => hc.fresh (.inl he)
  have hnew : q.replaced new = none := by
    by_contra hr
    exact hc.fresh (.inr hr)
  have hpub : ∀ p, Published (publishArray q new tail) p ↔ Published q p ∨ p = new := by
    intro p
    by_cases hp : p = q.array
    · subst hp
      simp [Published, hself]
    · rw [Published, hold p hp]
      simp only [Published, hp, false_or]
      exact or_comm
  have hbound : ∀ p, Published q p → bound (publishArray q new tail) p = bound q p := by
    intro p hp
    by_cases he : p = q.array
    · subst he
      rw [hcur, bound, hself]
      exact htail
    · rw [bound, hold p he]
      rfl
  refine ⟨⟨⟨h.wf, ?_, ?_, ?_, h.head_nonneg, h.head_le, h.tail_eq, ?_, ?_⟩,
    rfl, rfl, rfl, fun p hp => (hpub p).mpr (.inl hp), ?_⟩, rfl, htail, hhead, hfits⟩
  · intro p hp
    obtain hp | rfl := (hpub p).mp hp
    · exact h.allocated p hp
    · exact hc.allocated
  · exact (hold new hne).trans hnew
  · intro p t ht
    by_cases hp : p = q.array
    · subst hp
      rw [hself] at ht
      cases ht
      exact htail.le
    · exact h.replaced_le p t (by rwa [hold p hp] at ht)
  · change q.tail - q.head ≤ (q.arrays new).size
    omega
  · intro p hp i h1 h2
    obtain hp | rfl := (hpub p).mp hp
    · rw [hbound p hp] at h2
      exact h.holds p hp i h1 h2
    · have h2 : i < q.tail := by
        rwa [bound, hold p hne, hnew] at h2
      have h1 : q.head ≤ i := h1
      rw [h.holds q.array (.inl rfl) i h1 (hcur ▸ h2)]
      exact congrArg some (hc.copied i (by omega) (by omega)).symm
  · intro p hp i h1 h2
    rwa [hbound p hp] at h2

theorem push_set {log : List (QueueElt α)} {q : TkQueue α} (h : QueueInv log q)
    {elt : QueueElt α} {arr : ℕ} {head tail : ℤ} (hi : PushInv elt q (.set arr head tail)) :
    Silent log q (storeArrays q arr (caSet (q.arrays arr) tail elt)) ∧
      PushInv elt (storeArrays q arr (caSet (q.arrays arr) tail elt)) (.storeTail head tail) := by
  obtain ⟨rfl, rfl, hh, hf⟩ := hi
  have hcur : current (storeArrays q q.array (caSet (q.arrays q.array) q.tail elt)) =
      caSet (current q) q.tail elt := Function.update_self ..
  refine ⟨⟨⟨wellFormed_update h.wf _ (caSet_wellFormed (h.wf _) _ _), h.allocated, h.not_replaced,
    h.replaced_le, h.head_nonneg, h.head_le, h.tail_eq, ?_, ?_⟩, rfl, rfl, rfl, fun _ h => h,
    fun _ _ _ _ h => h⟩, ?_, rfl, hh, ?_⟩
  · rw [hcur, caSet_size]
    exact h.fits
  · intro p hp i h1 h2
    have h1 : q.head ≤ i := h1
    have h2 : i < bound q p := h2
    rw [h.holds p hp i h1 h2]
    by_cases he : p = q.array
    · subst he
      rw [bound_current h] at h2
      simp only [current] at hf
      refine congrArg some ?_
      exact ((congrArg (caGet · i) hcur).trans
        (caGet_caSet_of_lt (h.wf _) h2 (by omega) _)).symm
    · exact congrArg (fun a => some (caGet a i)) (Function.update_of_ne he _ _).symm
  · rw [hcur, caGet_caSet]
  · rw [hcur, caSet_size]
    exact hf

theorem push_step {log : List (QueueElt α)} {q q' : TkQueue α} (h : QueueInv log q)
    {junk : ℤ → QueueElt α} {elt : QueueElt α} {pc pc' : Push α} (hi : PushInv elt q pc)
    (hq : tkQueuePush junk elt q pc = (q', .run pc')) : Silent log q q' ∧ PushInv elt q' pc' := by
  cases pc with
  | loadArray =>
    cases hq
    exact ⟨silent_refl h, rfl⟩
  | loadHead arr =>
    cases hq
    obtain rfl : arr = q.array := hi
    exact ⟨silent_refl h, rfl, le_rfl, h.fits⟩
  | loadTail arr head => exact push_loadTail h hi hq
  | copyGet arr new head tail i =>
    cases hq
    obtain ⟨rfl, hlt, hc⟩ := hi
    exact ⟨silent_refl h, rfl, rfl, hlt, hc⟩
  | copySet arr new head tail i v =>
    cases hq
    exact push_copySet h hi
  | storeArray new head tail =>
    cases hq
    exact push_storeArray h hi
  | set arr head tail =>
    cases hq
    exact push_set h hi
  | storeTail head tail => cases hq

theorem push_done {log : List (QueueElt α)} {q q' : TkQueue α} (h : QueueInv log q)
    {junk : ℤ → QueueElt α} {elt : QueueElt α} {pc : Push α} (hi : PushInv elt q pc)
    (hq : tkQueuePush junk elt q pc = (q', .done ())) :
    q' = { q with tail := q.tail + 1 } ∧ QueueInv (log ++ [elt]) { q with tail := q.tail + 1 } := by
  cases pc with
  | storeTail head tail =>
    obtain ⟨hget, rfl, hh, hf⟩ := hi
    cases hq
    have hlen : (log.length : ℤ) = q.tail := h.tail_eq.symm
    have h0 := h.head_nonneg
    refine ⟨rfl, h.wf, h.allocated, h.not_replaced, ?_, h0, h.head_le.trans (by simp), ?_, ?_, ?_⟩
    · exact fun p t ht => (h.replaced_le p t ht).trans (by simp)
    · simp only [List.length_append, List.length_singleton, Nat.cast_add, Nat.cast_one]
      omega
    · change q.tail + 1 - q.head ≤ (current q).size
      omega
    · intro p hp i h1 h2
      have h1 : q.head ≤ i := h1
      by_cases hold : i < bound q p
      · exact getElem?_of_prefix (List.prefix_append _ _) (h.holds p hp i h1 hold)
      · cases hr : q.replaced p with
        | some t =>
          rw [bound, hr] at h2 hold
          exact absurd h2 hold
        | none =>
          have hpa : p = q.array := hp.resolve_right (fun h => h hr)
          subst hpa
          rw [bound, hr] at h2 hold
          have h2 : i < q.tail + 1 := h2
          have hold : ¬ i < q.tail := hold
          obtain rfl : i = q.tail := by omega
          have hidx : q.tail.toNat = log.length := by omega
          rw [hidx, List.getElem?_append_right le_rfl, Nat.sub_self]
          exact congrArg some hget.symm
  | loadTail arr head =>
    simp only [tkQueuePush] at hq
    split at hq <;> cases hq
  | _ => cases hq

end Libseff.TokioPush
