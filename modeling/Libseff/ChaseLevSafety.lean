import Libseff.ChaseLevPush

namespace Libseff.ChaseLevSafety

open CircularArrays TransitionRuns ChaseLevSteps ChaseLevInvariant ChaseLevPush

variable {ι α : Type}

theorem thiefInv_same_top {q q' : ClQueue α} {bound bound' : ℤ} {t : Thief α}
    (h : ThiefInv q bound t) (htop : q'.top = q.top) (harr : q'.array = q.array)
    (hs : q'.arrays = q.arrays) (hb : q.top < bound → q.top < bound') : ThiefInv q' bound' t := by
  obtain _ | pc := t
  · trivial
  · cases pc <;> simp only [ThiefInv, StealInv, current, htop, harr, hs] at h ⊢ <;> grind

/-- Once `top` has moved, nothing a thief holds matters any more. -/
theorem thiefInv_next_top {q : ClQueue α} {bound bound' : ℤ} {t : Thief α}
    (h : ThiefInv q bound t) : ThiefInv { q with top := q.top + 1 } bound' t := by
  obtain _ | pc := t
  · trivial
  · cases pc <;> simp only [ThiefInv, StealInv] at h ⊢ <;> grind

theorem inv_quiet {tr : List (Event ι α)} {s s' : State ι α} (h : Inv tr s) (hs : Silent s s')
    (t : Option ι) : Inv (tr ++ [⟨t, tookIndex s.queue s'.queue, none⟩]) s' := by
  rw [tookIndex, if_pos hs.top.symm]
  exact (h.silent hs).append rfl rfl rfl

theorem took_append {tr : List (Event ι α)} {e : Event ι α} {q : ClQueue α}
    (h : ∀ t, 0 ≤ t → t < q.top → ∃ e ∈ tr, e.took = some t) (t : ℤ) (h0 : 0 ≤ t)
    (ht : t < q.top) : ∃ e' ∈ tr ++ [e], e'.took = some t := by
  obtain ⟨e', he', h'⟩ := h t h0 ht
  exact ⟨e', List.mem_append_left _ he', h'⟩

theorem took_lt_append {tr : List (Event ι α)} {e : Event ι α} {q : ClQueue α}
    {thief : ι → Thief α} (he : e.took = none)
    (h : ∀ e ∈ tr, ∀ t, e.took = some t → t < q.top ∧
      ∀ i, e.thread = some i → ∀ u, target (thief i) = some u → t < u) :
    ∀ e' ∈ tr ++ [e], ∀ t, e'.took = some t → t < q.top ∧
      ∀ i, e'.thread = some i → ∀ u, target (thief i) = some u → t < u := by
  intro e' he' t ht
  obtain he' | he' := List.mem_append.mp he'
  · exact h e' he' t ht
  · rw [List.mem_singleton.mp he', he] at ht
    cases ht

theorem push_done {tr : List (Event ι α)} {s : State ι α} (h : Inv tr s) {elt : α}
    {bottom top : ℤ} (ho : s.owner = .push elt (.storeBottom bottom top)) :
    Inv (tr ++ [⟨none, none, some (.pushed elt)⟩])
      { s with queue := { s.queue with bottom := bottom + 1 }, owner := .idle } := by
  have hi := h.owner
  have htop := h.top_le
  have hthief := h.thief
  have hperm := h.perm
  have horder := h.order
  rw [window, ho] at hperm horder
  rw [ho] at hi htop hthief
  obtain ⟨hget, rfl, hle, hfit⟩ := hi
  have htop : s.queue.top ≤ s.queue.bottom := htop
  have hw : caWindow (current s.queue) s.queue.top (s.queue.bottom + 1) =
      caWindow (current s.queue) s.queue.top s.queue.bottom ++ [.task elt] := by
    rw [caWindow_snoc _ htop, hget]
  have hp : pushed (tr ++ [(⟨none, none, some (.pushed elt)⟩ : Event ι α)]) =
      pushed tr ++ [.task elt] := pushed_append _ _
  have hr : returned (tr ++ [(⟨none, none, some (.pushed elt)⟩ : Event ι α)]) = returned tr := by
    rw [returned_append]
    exact List.append_nil _
  refine ⟨h.wf, h.allocated, h.top_nonneg, ?_, ?_, trivial, ?_, ?_, ?_, took_append h.taken,
    took_lt_append rfl h.took_lt, h.target_nonneg⟩
  · simp only [logicalBottom]
    omega
  · simp only [logicalBottom]
    have : current { s.queue with bottom := s.queue.bottom + 1 } = current s.queue := rfl
    rw [this]
    omega
  · intro i
    exact thiefInv_same_top (hthief i) rfl rfl rfl fun hb => hb.trans (by simp [stealBound])
  · rw [hp, hr]
    change (pushed tr ++ [QueueElt.task elt]).Perm
      (returned tr ++ [] ++
      caWindow (current s.queue) s.queue.top (s.queue.bottom + 1))
    rw [hw, ← List.append_assoc]
    exact hperm.append_right _
  · rw [hp]
    change (caWindow (current s.queue) s.queue.top (s.queue.bottom + 1)).Sublist _
    rw [hw]
    exact horder.append (List.Sublist.refl _)

theorem silent_of_pop {tr : List (Event ι α)} {s : State ι α} (h : Inv tr s) {pc pc' : Pop α}
    (ho : s.owner = .pop pc) {b : ℤ}
    (hbot : logicalBottom { s.queue with bottom := b } (.pop pc') =
      logicalBottom s.queue (.pop pc))
    (hhand : inHand (.pop pc') = inHand (.pop pc))
    (hbound : s.queue.top < stealBound s.queue (.pop pc) →
      s.queue.top < stealBound { s.queue with bottom := b } (.pop pc'))
    (hpc : PopInv { s.queue with bottom := b } pc') :
    Silent s { s with queue := { s.queue with bottom := b }, owner := .pop pc' } where
  thief := rfl
  top := rfl
  array_le := le_rfl
  bottom := by rw [ho]; exact hbot
  hand := by rw [ho]; exact hhand
  bound := by rw [ho]; exact hbound
  get := fun _ _ _ => rfl
  stale := fun _ _ _ => rfl
  grows := le_rfl
  wf := h.wf
  allocated := h.allocated
  owner := hpc

theorem pop_loadTop {tr : List (Event ι α)} {s : State ι α} (h : Inv tr s) {bottom : ℤ} {arr : ℕ}
    (ho : s.owner = .pop (.loadTop bottom arr)) {q : ClQueue α} {pc' : Pop α}
    (hq : clQueuePop s.queue (.loadTop bottom arr) = (q, .run pc')) :
    Silent s { s with queue := q, owner := .pop pc' } := by
  have hi := h.owner
  have htop := h.top_le
  rw [ho] at hi htop
  obtain ⟨rfl, rfl⟩ := hi
  simp only [logicalBottom] at htop
  simp only [clQueuePop] at hq
  split at hq
  · obtain ⟨rfl, h2⟩ := Prod.mk.inj hq
    cases h2
    refine silent_of_pop h ho (b := s.queue.bottom) rfl rfl ?_
      ⟨rfl, rfl, by assumption, le_rfl, fun hlt => hlt.le⟩
    simp only [stealBound]
    split <;> omega
  · obtain ⟨rfl, h2⟩ := Prod.mk.inj hq
    cases h2
    exact silent_of_pop h ho (b := s.queue.bottom) rfl rfl id ⟨rfl, by dsimp only; omega⟩

theorem pop_get {tr : List (Event ι α)} {s : State ι α} (h : Inv tr s) {bottom top : ℤ} {arr : ℕ}
    (ho : s.owner = .pop (.get bottom top arr)) {q : ClQueue α} {pc' : Pop α}
    (hq : clQueuePop s.queue (.get bottom top arr) = (q, .run pc')) :
    Silent s { s with queue := q, owner := .pop pc' } := by
  have hi := h.owner
  rw [ho] at hi
  obtain ⟨rfl, rfl, h1, h2, h3⟩ := hi
  simp only [clQueuePop] at hq
  split at hq
  · rename_i he
    obtain ⟨rfl, h2⟩ := Prod.mk.inj hq
    cases h2
    refine silent_of_pop h ho (b := s.queue.bottom) rfl rfl ?_ ⟨rfl, he, by omega, fun _ => rfl⟩
    simp [stealBound, he]
  · cases (Prod.mk.inj hq).2

theorem pop_silent {tr : List (Event ι α)} {s : State ι α} (h : Inv tr s) {pc pc' : Pop α}
    (ho : s.owner = .pop pc) {q : ClQueue α} (hq : clQueuePop s.queue pc = (q, .run pc'))
    (htop : q.top = s.queue.top) : Silent s { s with queue := q, owner := .pop pc' } := by
  have hi := h.owner
  have hle := h.top_le
  rw [ho] at hi hle
  cases pc with
  | loadBottom =>
    obtain ⟨rfl, h2⟩ := Prod.mk.inj hq
    cases h2
    exact silent_of_pop h ho (b := s.queue.bottom) rfl rfl id rfl
  | loadArray bottom =>
    obtain ⟨rfl, h2⟩ := Prod.mk.inj hq
    cases h2
    exact silent_of_pop h ho (b := s.queue.bottom) rfl rfl id ⟨hi, rfl⟩
  | storeBottom bottom arr =>
    obtain ⟨rfl, h2⟩ := Prod.mk.inj hq
    cases h2
    obtain ⟨rfl, rfl⟩ := hi
    refine silent_of_pop h ho ?_ rfl ?_ ⟨rfl, rfl⟩
    · simp [logicalBottom]
    · simp [stealBound]
  | loadTop bottom arr => exact pop_loadTop h ho hq
  | get bottom top arr => exact pop_get h ho hq
  | cas bottom top elt =>
    obtain ⟨rfl, rfl, h1, h2⟩ := hi
    simp only [logicalBottom] at hle
    simp only [clQueuePop] at hq
    split at hq
    · obtain ⟨rfl, -⟩ := Prod.mk.inj hq
      simp at htop
      omega
    · obtain ⟨rfl, h2⟩ := Prod.mk.inj hq
      cases h2
      exact silent_of_pop h ho (b := s.queue.bottom) rfl rfl id ⟨rfl, by dsimp only; omega⟩
  | restore bottom elt => cases (Prod.mk.inj hq).2

theorem pop_cas {tr : List (Event ι α)} {s : State ι α} (h : Inv tr s) {bottom : ℤ}
    {elt : QueueElt α} (ho : s.owner = .pop (.cas bottom s.queue.top elt)) :
    Inv (tr ++ [⟨none, some s.queue.top, none⟩])
      { s with
        queue := { s.queue with top := s.queue.top + 1 }
        owner := .pop (.restore bottom elt) } := by
  have hi := h.owner
  have hfits := h.fits
  have hperm := h.perm
  have horder := h.order
  have hnonneg := h.top_nonneg
  rw [window, ho] at hperm horder
  rw [ho] at hi hfits
  obtain ⟨rfl, hb, -, hget⟩ := hi
  have hget := hget rfl
  have hw : caWindow (current s.queue) s.queue.top (s.queue.bottom + 1) = [elt] := by
    rw [caWindow_cons _ (by omega), ← hb, caWindow_self, hget, ← hb]
  have hw' : caWindow (current s.queue) (s.queue.top + 1) (s.queue.bottom + 1) = [] := by
    rw [← hb, caWindow_self]
  have helt : ∃ t, elt = .task t := by
    refine h.task_of_window ?_
    rw [window, ho]
    exact hw ▸ List.mem_singleton_self elt
  obtain ⟨t, rfl⟩ := helt
  refine ⟨h.wf, h.allocated, by dsimp only; omega, ?_, ?_, ⟨rfl, by dsimp only; omega⟩, ?_, ?_,
    ?_, ?_, ?_, h.target_nonneg⟩
  · simp only [logicalBottom]
    omega
  · simp only [logicalBottom] at hfits ⊢
    exact le_trans (by omega) hfits
  · exact fun i => thiefInv_next_top (h.thief i)
  · rw [pushed_append, returned_append]
    change (pushed tr ++ []).Perm (returned tr ++ [] ++ [QueueElt.task t] ++
      caWindow (current s.queue) (s.queue.top + 1) (s.queue.bottom + 1))
    rw [hw']
    simpa only [logicalBottom, hw, inHand, List.append_nil] using hperm
  · change (caWindow (current s.queue) (s.queue.top + 1) (s.queue.bottom + 1)).Sublist _
    rw [hw']
    exact List.nil_sublist _
  · intro t h0 hlt
    obtain rfl | hne := eq_or_ne t s.queue.top
    · exact ⟨_, List.mem_append_right _ (List.mem_singleton_self _), rfl⟩
    · exact took_append h.taken t h0 (by dsimp only at hlt; omega)
  · intro e he t ht
    obtain he | he := List.mem_append.mp he
    · obtain ⟨h1, h2⟩ := h.took_lt e he t ht
      exact ⟨by dsimp only; omega, h2⟩
    · obtain rfl := List.mem_singleton.mp he
      cases ht
      exact ⟨by dsimp only; omega, fun i hi => by cases hi⟩

theorem pop_get_done {tr : List (Event ι α)} {s : State ι α} (h : Inv tr s) {bottom top : ℤ}
    {arr : ℕ} (ho : s.owner = .pop (.get bottom top arr)) (hne : top ≠ bottom) :
    Inv (tr ++ [⟨none, none, some (.popped (caGet (s.queue.arrays arr) bottom))⟩])
      { s with owner := .idle } := by
  have hi := h.owner
  have hthief := h.thief
  have hfits := h.fits
  have hperm := h.perm
  have horder := h.order
  have htask : ∀ x ∈ window s, ∃ t, x = .task t := fun x hx => h.task_of_window hx
  simp only [window, ho] at hperm horder htask
  rw [ho] at hi hthief hfits
  obtain ⟨rfl, rfl, hle, -, hsafe⟩ := hi
  have hlt : top < s.queue.bottom := by omega
  have hsafe := hsafe hlt
  have hw : caWindow (current s.queue) s.queue.top (s.queue.bottom + 1) =
      caWindow (current s.queue) s.queue.top s.queue.bottom ++
        [caGet (s.queue.arrays s.queue.array) s.queue.bottom] := caWindow_snoc _ hsafe
  simp only [logicalBottom, hw] at hperm horder htask hfits
  obtain ⟨t, ht⟩ := htask _ (List.mem_append_right _ (List.mem_singleton_self _))
  rw [ht] at hperm horder ⊢
  refine ⟨h.wf, h.allocated, h.top_nonneg, hsafe, ?_, trivial, ?_, ?_, ?_, took_append h.taken,
    took_lt_append rfl h.took_lt, h.target_nonneg⟩
  · exact le_trans (by simp only [logicalBottom]; omega) hfits
  · exact fun i => thiefInv_same_top (hthief i) rfl rfl rfl (by simp [stealBound, hlt])
  · rw [pushed_append, returned_append]
    change (pushed tr ++ []).Perm (returned tr ++ [QueueElt.task t] ++ [] ++
      caWindow (current s.queue) s.queue.top s.queue.bottom)
    simp only [inHand, List.append_nil, List.append_assoc] at hperm ⊢
    exact hperm.trans (List.perm_append_comm.append_left _)
  · rw [pushed_append]
    change (caWindow (current s.queue) s.queue.top s.queue.bottom).Sublist (pushed tr ++ [])
    rw [List.append_nil]
    exact (List.sublist_append_left _ _).trans horder

theorem returned_popped (elt : QueueElt α) (bottom : ℤ) :
    returned [(⟨none, none, some (.popped elt)⟩ : Event ι α)] =
      inHand (.pop (.restore bottom elt)) := by
  cases elt <;> rfl

theorem pop_restore {tr : List (Event ι α)} {s : State ι α} (h : Inv tr s) {bottom : ℤ}
    {elt : QueueElt α} (ho : s.owner = .pop (.restore bottom elt)) :
    Inv (tr ++ [⟨none, none, some (.popped elt)⟩])
      { s with queue := { s.queue with bottom := bottom + 1 }, owner := .idle } := by
  have hi := h.owner
  have hthief := h.thief
  have hfits := h.fits
  have hperm := h.perm
  have horder := h.order
  simp only [window, ho, logicalBottom] at hperm horder
  rw [ho] at hi hthief hfits
  obtain ⟨rfl, htop⟩ := hi
  refine ⟨h.wf, h.allocated, h.top_nonneg, htop.le, hfits, trivial, ?_, ?_, ?_,
    took_append h.taken, took_lt_append rfl h.took_lt, h.target_nonneg⟩
  · exact fun i => thiefInv_same_top (hthief i) rfl rfl rfl (by simp [stealBound])
  · rw [pushed_append, returned_append, returned_popped elt s.queue.bottom]
    change (pushed tr ++ []).Perm (returned tr ++
      inHand (.pop (.restore s.queue.bottom elt)) ++ [] ++
      caWindow (current s.queue) s.queue.top (s.queue.bottom + 1))
    rw [List.append_nil, List.append_nil]
    exact hperm
  · rw [pushed_append]
    change (caWindow (current s.queue) s.queue.top (s.queue.bottom + 1)).Sublist (pushed tr ++ [])
    rw [List.append_nil]
    exact horder

section Thieves

variable [DecidableEq ι]

theorem steal_quiet {tr : List (Event ι α)} {s : State ι α} (h : Inv tr s) {i : ι} {t : Thief α}
    {r : Option (Result α)} (hr : returned [(⟨some i, none, r⟩ : Event ι α)] = [])
    (hp : pushed [(⟨some i, none, r⟩ : Event ι α)] = [])
    (ht : ThiefInv s.queue (stealBound s.queue s.owner) t)
    (htarget : ∀ u, target t = some u → target (s.thief i) = some u ∨ u = s.queue.top) :
    Inv (tr ++ [⟨some i, none, r⟩]) { s with thief := Function.update s.thief i t } := by
  have hi : Inv tr { s with thief := Function.update s.thief i t } := by
    refine ⟨h.wf, h.allocated, h.top_nonneg, h.top_le, h.fits, h.owner, ?_, h.perm, h.order,
      h.taken, ?_, ?_⟩
    · intro j
      by_cases hj : j = i
      · subst hj
        simpa using ht
      · simpa [hj] using h.thief j
    · intro e he u hu
      obtain ⟨h1, h2⟩ := h.took_lt e he u hu
      refine ⟨h1, fun j hj v hv => ?_⟩
      by_cases hji : j = i
      · subst hji
        obtain h3 | rfl := htarget v (by simpa using hv)
        · exact h2 j hj v h3
        · exact h1
      · exact h2 j hj v (by simpa [hji] using hv)
    · intro j u hu
      by_cases hji : j = i
      · subst hji
        obtain h3 | rfl := htarget u (by simpa using hu)
        · exact h.target_nonneg j u h3
        · exact h.top_nonneg
      · exact h.target_nonneg j u (by simpa [hji] using hu)
  exact hi.append rfl hp hr

theorem copying_next_top {q : ClQueue α} {bottom top : ℤ} {new : ℕ} {i : ℤ}
    (h : Copying q bottom top new i) : Copying { q with top := q.top + 1 } bottom top new i :=
  { h with top_le := h.top_le.trans (by simp) }

theorem ownerInv_next_top {q : ClQueue α} {o : Owner α} (h : OwnerInv q o)
    (hlt : q.top < stealBound q o) : OwnerInv { q with top := q.top + 1 } o := by
  obtain _ | ⟨elt, pc⟩ | pc := o
  · trivial
  · cases pc with
    | loadBottom | loadTop _ => exact h
    | loadArray bottom top => exact ⟨h.1, h.2.1.trans (by simp), h.2.2⟩
    | copyGet bottom top arr new i => exact ⟨h.1, h.2.1, copying_next_top h.2.2⟩
    | copySet bottom top arr new i v => exact ⟨h.1, h.2.1, h.2.2.1, copying_next_top h.2.2.2⟩
    | storeArray bottom top new => exact copying_next_top h
    | set bottom top arr => exact ⟨h.1, h.2.1, h.2.2.1.trans (by simp), h.2.2.2⟩
    | storeBottom bottom top => exact ⟨h.1, h.2.1, h.2.2.1.trans (by simp), h.2.2.2⟩
  · cases pc <;> simp only [OwnerInv, PopInv, current, stealBound] at h hlt ⊢ <;> grind

theorem steal_cas {tr : List (Event ι α)} {s : State ι α} (h : Inv tr s) {i : ι}
    {elt : QueueElt α} (ht : s.thief i = .steal (.cas s.queue.top elt)) :
    Inv (tr ++ [⟨some i, some s.queue.top, some (.stolen elt)⟩])
      { s with queue := { s.queue with top := s.queue.top + 1 },
               thief := Function.update s.thief i .idle } := by
  have hi := h.thief i
  have hb := stealBound_le s.queue s.owner
  have hfits := h.fits
  have hnonneg := h.top_nonneg
  have hperm := h.perm
  have horder := h.order
  rw [ht] at hi
  obtain ⟨-, hi⟩ := hi
  obtain ⟨hlt, hget⟩ := hi rfl
  have hw : window s = elt ::
      caWindow (current s.queue) (s.queue.top + 1) (logicalBottom s.queue s.owner) := by
    rw [window, caWindow_cons _ (by omega), hget]
  obtain ⟨t, rfl⟩ := h.task_of_window (hw ▸ List.mem_cons_self)
  rw [hw] at hperm horder
  refine ⟨h.wf, h.allocated, by dsimp only; omega, ?_, ?_, ?_, ?_, ?_, ?_, ?_, ?_, ?_⟩
  · exact le_trans (by omega : s.queue.top + 1 ≤ stealBound s.queue s.owner) hb
  · exact le_trans (sub_le_sub_left (by dsimp only; omega) _) hfits
  · exact ownerInv_next_top h.owner hlt
  · intro j
    by_cases hj : j = i
    · subst hj
      simp [ThiefInv]
    · simpa [hj] using thiefInv_next_top (h.thief j)
  · rw [pushed_append, returned_append]
    change (pushed tr ++ []).Perm (returned tr ++ [QueueElt.task t] ++ inHand s.owner ++
      caWindow (current s.queue) (s.queue.top + 1) (logicalBottom s.queue s.owner))
    rw [List.append_nil]
    refine hperm.trans ?_
    simp only [List.append_assoc, List.singleton_append]
    exact List.Perm.append_left _ List.perm_middle
  · rw [pushed_append]
    change (caWindow (current s.queue) (s.queue.top + 1) (logicalBottom s.queue s.owner)).Sublist
      (pushed tr ++ [])
    rw [List.append_nil]
    exact (List.sublist_cons_self _ _).trans horder
  · intro t h0 hlt
    obtain rfl | hne := eq_or_ne t s.queue.top
    · exact ⟨_, List.mem_append_right _ (List.mem_singleton_self _), rfl⟩
    · exact took_append h.taken t h0 (by dsimp only at hlt; omega)
  · intro e he t ht
    obtain he | he := List.mem_append.mp he
    · obtain ⟨h1, h2⟩ := h.took_lt e he t ht
      refine ⟨by dsimp only; omega, fun j hj u hu => ?_⟩
      by_cases hji : j = i
      · subst hji
        simp [target] at hu
      · exact h2 j hj u (by simpa [hji] using hu)
    · obtain rfl := List.mem_singleton.mp he
      cases ht
      refine ⟨by dsimp only; omega, fun j hj u hu => ?_⟩
      cases hj
      simp [target] at hu
  · intro j u hu
    by_cases hji : j = i
    · subst hji
      simp [target] at hu
    · exact h.target_nonneg j u (by simpa [hji] using hu)

end Thieves

end Libseff.ChaseLevSafety
