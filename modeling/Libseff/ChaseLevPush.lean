import Libseff.ChaseLevInvariant

namespace Libseff.ChaseLevPush

open CircularArrays TransitionRuns ChaseLevSteps ChaseLevInvariant

variable {ι α : Type}

theorem silent_of_push {s : State ι α} {elt : α} {pc pc' : Push α}
    (ho : s.owner = .push elt pc) {q : ClQueue α} (htop : q.top = s.queue.top)
    (hbot : q.bottom = s.queue.bottom)
    (hle : s.queue.array ≤ q.array) (halloc : q.array < q.allocated)
    (hget : ∀ j, s.queue.top ≤ j → j < s.queue.bottom →
      caGet (current q) j = caGet (current s.queue) j)
    (hstale : ∀ p, p ≤ s.queue.array → s.queue.top < s.queue.bottom →
      caGet (q.arrays p) s.queue.top = caGet (s.queue.arrays p) s.queue.top)
    (hgrows : (current s.queue).size ≤ (current q).size) (hwf : ∀ p, WellFormed (q.arrays p))
    (hpc : PushInv elt q pc') :
    Silent s { s with queue := q, owner := .push elt pc' } where
  thief := rfl
  top := htop
  array_le := hle
  bottom := by rw [ho]; exact hbot
  hand := by rw [ho]; rfl
  bound := by rw [ho]; exact fun hb => hb.trans_eq hbot.symm
  get := by rw [ho]; exact hget
  stale := by rw [ho]; exact hstale
  grows := hgrows
  wf := hwf
  allocated := halloc
  owner := hpc

theorem silent_of_local {s : State ι α} {tr : List (Event ι α)} (h : Inv tr s) {elt : α}
    {pc pc' : Push α} (ho : s.owner = .push elt pc) (hpc : PushInv elt s.queue pc') :
    Silent s { s with owner := .push elt pc' } :=
  silent_of_push ho rfl rfl le_rfl h.allocated (fun _ _ _ => rfl) (fun _ _ _ => rfl) le_rfl
    h.wf hpc

theorem silent_of_private {s : State ι α} {tr : List (Event ι α)} (h : Inv tr s) {elt : α}
    {pc pc' : Push α} (ho : s.owner = .push elt pc) {new n : ℕ} (hnew : s.queue.array < new)
    (hn : s.queue.array < n) {arr : CircularArray (QueueElt α)} (ha : WellFormed arr)
    (hpc : PushInv elt { storeArrays s.queue new arr with allocated := n } pc') :
    Silent s { s with queue := { storeArrays s.queue new arr with allocated := n },
                      owner := .push elt pc' } := by
  have hne : ∀ p, p ≤ s.queue.array → (storeArrays s.queue new arr).arrays p = s.queue.arrays p :=
    fun p hp => Function.update_of_ne (by omega) _ _
  refine silent_of_push ho rfl rfl le_rfl hn ?_ ?_ ?_ (wellFormed_update h.wf new ha) hpc
  · intro j _ _
    exact congrArg (caGet · j) (hne _ le_rfl)
  · intro p hp _
    exact congrArg (caGet · s.queue.top) (hne p hp)
  · exact (congrArg CircularArray.size (hne _ le_rfl)).ge

theorem copyNext_inv {elt : α} {q : ClQueue α} {bottom top : ℤ} {new : ℕ} {i : ℤ}
    (h : Copying q bottom top new i) (hi : i ≤ bottom) :
    PushInv elt q (copyNext bottom top q.array new i) := by
  unfold copyNext
  split
  · exact ⟨rfl, by assumption, h⟩
  · obtain rfl : i = bottom := by omega
    exact h

theorem silent_loadArray {s : State ι α} {tr : List (Event ι α)} (h : Inv tr s) {elt : α}
    {bottom top : ℤ} (ho : s.owner = .push elt (.loadArray bottom top)) (junk : ℤ → QueueElt α)
    {q : ClQueue α} {pc' : Push α}
    (hq : clQueuePush junk elt s.queue (.loadArray bottom top) = (q, .run pc')) :
    Silent s { s with queue := q, owner := .push elt pc' } := by
  have hi := h.owner
  rw [ho] at hi
  obtain ⟨hb, ht, hf⟩ := hi
  have hp := (h.wf s.queue.array).size_pos
  have htop := h.top_le
  rw [ho] at htop
  simp only [clQueuePush] at hq
  split at hq
  · simp only [Prod.mk.injEq, Outcome.run.injEq] at hq
    obtain ⟨rfl, rfl⟩ := hq
    refine silent_of_private h ho h.allocated (Nat.lt_succ_of_lt h.allocated)
      (circularArrayGrow_wellFormed (h.wf _) junk) (copyNext_inv ?_ ?_)
    · have hnew : (storeArrays s.queue s.queue.allocated
          (circularArrayGrow (s.queue.arrays s.queue.array) junk)).arrays s.queue.allocated =
          circularArrayGrow (s.queue.arrays s.queue.array) junk := Function.update_self ..
      have hcur : (storeArrays s.queue s.queue.allocated
          (circularArrayGrow (s.queue.arrays s.queue.array) junk)).arrays s.queue.array =
          s.queue.arrays s.queue.array := Function.update_of_ne h.allocated.ne _ _
      have hg : (circularArrayGrow (s.queue.arrays s.queue.array) junk).size =
          (s.queue.arrays s.queue.array).size * 2 := rfl
      simp only [current] at hf
      refine ⟨hb, ht, ?_, h.allocated, Nat.lt_succ_self _, ?_, le_rfl, fun j h1 h2 => by omega⟩
      · simp only [hnew]
        omega
      · simp only [current, hnew]
        exact (congrArg CircularArray.size hcur).trans_le (by omega)
    · simp only [logicalBottom] at htop
      omega
  · simp only [Prod.mk.injEq, Outcome.run.injEq] at hq
    obtain ⟨rfl, rfl⟩ := hq
    exact silent_of_local h ho ⟨rfl, hb, ht, by simp only [current] at hf ⊢; omega⟩

theorem silent_copySet {s : State ι α} {tr : List (Event ι α)} (h : Inv tr s) {elt : α}
    {bottom top : ℤ} {arr new : ℕ} {i : ℤ} {v : QueueElt α}
    (ho : s.owner = .push elt (.copySet bottom top arr new i v)) :
    Silent s { s with queue := storeArrays s.queue new (caSet (s.queue.arrays new) i v),
                      owner := .push elt (copyNext bottom top arr new (i + 1)) } := by
  have hi := h.owner
  rw [ho] at hi
  obtain ⟨rfl, rfl, hib, hc⟩ := hi
  have hnew : (storeArrays s.queue new (caSet (s.queue.arrays new) i
      (caGet (current s.queue) i))).arrays new =
      caSet (s.queue.arrays new) i (caGet (current s.queue) i) := Function.update_self ..
  have hcur : current (storeArrays s.queue new (caSet (s.queue.arrays new) i
      (caGet (current s.queue) i))) = current s.queue :=
    Function.update_of_ne hc.fresh.ne _ _
  refine silent_of_private h ho hc.fresh h.allocated (caSet_wellFormed (h.wf new) i _)
    (copyNext_inv ⟨hc.bottom_eq, hc.top_le, ?_, hc.fresh, hc.allocated, ?_, ?_, ?_⟩ hib)
  · rw [hnew]
    exact hc.fits
  · rw [hnew]
    exact (congrArg CircularArray.size hcur).trans_le hc.grown
  · have := hc.le
    omega
  · intro j h1 h2
    rw [hnew]
    have := hc.fits
    exact (caGet_copied (h.wf new) (by omega) hc.copied j h1 h2).trans
      (congrArg (caGet · j) hcur).symm

theorem silent_storeArray {s : State ι α} {tr : List (Event ι α)} (h : Inv tr s) {elt : α}
    {bottom top : ℤ} {new : ℕ} (ho : s.owner = .push elt (.storeArray bottom top new)) :
    Silent s { s with queue := { s.queue with array := new },
                      owner := .push elt (.set bottom top new) } := by
  have hi := h.owner
  rw [ho] at hi
  have hc : Copying s.queue bottom top new bottom := hi
  refine silent_of_push ho rfl rfl hc.fresh.le hc.allocated ?_ (fun _ _ _ => rfl) hc.grown h.wf
    ⟨rfl, hc.bottom_eq, hc.top_le, hc.fits⟩
  intro j h1 h2
  have := hc.top_le
  have := hc.bottom_eq
  exact hc.copied j (by omega) (by omega)

theorem silent_set {s : State ι α} {tr : List (Event ι α)} (h : Inv tr s) {elt : α}
    {bottom top : ℤ} {arr : ℕ} (ho : s.owner = .push elt (.set bottom top arr)) :
    Silent s { s with
      queue := storeArrays s.queue arr (caSet (s.queue.arrays arr) bottom (.task elt)),
      owner := .push elt (.storeBottom bottom top) } := by
  have hi := h.owner
  rw [ho] at hi
  obtain ⟨rfl, rfl, ht, hf⟩ := hi
  have hcur : current (storeArrays s.queue s.queue.array
      (caSet (s.queue.arrays s.queue.array) s.queue.bottom (.task elt))) =
      caSet (current s.queue) s.queue.bottom (.task elt) := Function.update_self ..
  have hkeep : ∀ j, s.queue.top ≤ j → j < s.queue.bottom →
      caGet (caSet (current s.queue) s.queue.bottom (.task elt)) j = caGet (current s.queue) j :=
    fun j h1 h2 => caGet_caSet_of_lt (h.wf _) h2 (by simp only [current] at hf; omega) _
  refine silent_of_push ho rfl rfl le_rfl h.allocated ?_ ?_ ?_
    (wellFormed_update h.wf _ (caSet_wellFormed (h.wf _) _ _)) ⟨?_, rfl, ht, ?_⟩
  · rw [hcur]
    exact hkeep
  · intro p _ hlt
    obtain rfl | hne := eq_or_ne p s.queue.array
    · exact (congrArg (caGet · s.queue.top) hcur).trans (hkeep _ le_rfl hlt)
    · exact congrArg (caGet · s.queue.top) (Function.update_of_ne hne _ _)
  · rw [hcur, caSet_size]
  · rw [hcur, caGet_caSet]
  · rw [hcur, caSet_size]
    exact hf

theorem push_silent {s : State ι α} {tr : List (Event ι α)} (h : Inv tr s) {elt : α}
    {pc pc' : Push α} (ho : s.owner = .push elt pc) (junk : ℤ → QueueElt α) {q : ClQueue α}
    (hq : clQueuePush junk elt s.queue pc = (q, .run pc')) :
    Silent s { s with queue := q, owner := .push elt pc' } := by
  have hi := h.owner
  have htop := h.top_le
  have hfits := h.fits
  rw [ho] at hi htop hfits
  cases pc with
  | loadBottom =>
    obtain ⟨rfl, h2⟩ := Prod.mk.inj hq
    cases h2
    exact silent_of_local h ho rfl
  | loadTop bottom =>
    obtain ⟨rfl, h2⟩ := Prod.mk.inj hq
    cases h2
    obtain rfl : bottom = s.queue.bottom := hi
    exact silent_of_local h ho ⟨rfl, le_rfl, hfits⟩
  | loadArray bottom top => exact silent_loadArray h ho junk hq
  | copyGet bottom top arr new i =>
    obtain ⟨rfl, h2⟩ := Prod.mk.inj hq
    cases h2
    obtain ⟨rfl, hib, hc⟩ := hi
    exact silent_of_local h ho ⟨rfl, rfl, hib, hc⟩
  | copySet bottom top arr new i v =>
    obtain ⟨rfl, h2⟩ := Prod.mk.inj hq
    cases h2
    exact silent_copySet h ho
  | storeArray bottom top new =>
    obtain ⟨rfl, h2⟩ := Prod.mk.inj hq
    cases h2
    exact silent_storeArray h ho
  | set bottom top arr =>
    obtain ⟨rfl, h2⟩ := Prod.mk.inj hq
    cases h2
    exact silent_set h ho
  | storeBottom bottom top => cases (Prod.mk.inj hq).2

end Libseff.ChaseLevPush
