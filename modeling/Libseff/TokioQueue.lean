import Libseff.TokioPush

namespace Libseff.TokioQueue

open CircularArrays TransitionRuns TokioSteps TokioInvariant TokioPush

variable {ι α : Type}

theorem take_step {log : List (QueueElt α)} {q q' : TkQueue α} (h : QueueInv log q)
    {pc pc' : Take α} (hi : TakeInv log q pc) (hq : takeLoop q pc = (q', .run pc')) :
    q' = q ∧ TakeInv log q pc' ∧ ∀ arr, takeArray pc' = some arr →
      takeArray pc = some arr ∨ arr = q.array := by
  cases pc with
  | loadArray =>
    cases hq
    exact ⟨rfl, .inl rfl, fun arr he => .inr (Option.some.inj he).symm⟩
  | loadHead arr =>
    cases hq
    exact ⟨rfl, ⟨hi, le_rfl⟩, fun arr he => .inl he⟩
  | loadTail arr head =>
    have hle := h.head_le
    simp only [takeLoop] at hq
    split at hq
    · cases hq
    · cases hq
      obtain ⟨h1, h2⟩ := hi
      exact ⟨rfl, ⟨h1, h2, by omega⟩, fun arr he => .inl he⟩
  | get arr head =>
    cases hq
    obtain ⟨h1, h2, h3⟩ := hi
    exact ⟨rfl, ⟨h1, h2, h3, fun he hlt => h.holds arr h1 head he.ge hlt⟩, fun arr he => .inl he⟩
  | cas arr head elt =>
    simp only [takeLoop] at hq
    split at hq
    · cases hq
    · cases hq
      exact ⟨rfl, hi.1, fun arr he => .inl he⟩

theorem take_done {q q' : TkQueue α} {pc : Take α} {r : QueueElt α}
    (hq : takeLoop q pc = (q', .done r)) :
    (q' = q ∧ r = .EMPTY) ∨
      ∃ arr, pc = .cas arr q.head r ∧ q' = { q with head := q.head + 1 } := by
  cases pc with
  | loadTail arr head =>
    simp only [takeLoop] at hq
    split at hq <;> cases hq
    exact .inl ⟨rfl, rfl⟩
  | cas arr head elt =>
    simp only [takeLoop] at hq
    split at hq
    · rename_i he
      subst he
      cases hq
      exact .inr ⟨arr, rfl, rfl⟩
    · cases hq
  | _ => cases hq

theorem inv_next {tr : List (Event ι α)} {s s' : State ι α} (h : Inv tr s) (e : Event ι α)
    (hq : QueueInv (appended tr ++ e.appended.toList) s'.queue)
    (ho : OwnerInv (appended tr ++ e.appended.toList) s'.queue s'.owner)
    (ht : ∀ i, ThiefInv (appended tr ++ e.appended.toList) s'.queue (s'.thief i))
    (hb : (occupied (e.called.toList ++ waiting (appended tr) s)).Perm
      (occupied (e.result.toList ++ waiting (appended tr ++ e.appended.toList) s'))) :
    Inv (tr ++ [e]) s' := by
  have hlog := appended_append tr e
  refine ⟨hlog ▸ hq, hlog ▸ ho, hlog ▸ ht, ?_⟩
  rw [pushed_append, returned_append, hlog]
  simp only [occupied_append, List.append_assoc] at hb ⊢
  calc occupied (pushed tr) ++ occupied e.called.toList
      |>.Perm (returned tr ++ occupied (waiting (appended tr) s) ++ occupied e.called.toList) :=
        h.account.append_right _
    _ |>.Perm (returned tr ++
        (occupied e.called.toList ++ occupied (waiting (appended tr) s))) := by
        rw [List.append_assoc]
        exact List.perm_append_comm.append_left _
    _ |>.Perm _ := hb.append_left _

theorem thiefInv_silent {log : List (QueueElt α)} {q q' : TkQueue α} {t : Thief α}
    (h : ThiefInv log q t) (hs : Silent log q q') : ThiefInv log q' t := by
  cases t with
  | idle => trivial
  | steal pc => exact takeInv_mono h hs.published hs.head hs.tail.ge hs.bound (List.prefix_refl _)

theorem inv_owner {tr : List (Event ι α)} {s : State ι α} (h : Inv tr s) {q : TkQueue α}
    {o : Owner α} (hs : Silent (appended tr) s.queue q) (ho : OwnerInv (appended tr) q o)
    (hh : held o = held s.owner) :
    Inv (tr ++ [⟨none, none, none, none⟩]) { s with queue := q, owner := o } := by
  refine inv_next h _ ?_ ?_ ?_ ?_ <;> simp only [Option.toList_none, List.append_nil]
  · exact hs.inv
  · exact ho
  · exact fun i => thiefInv_silent (h.thief i) hs
  · simp only [waiting, hh, hs.buffer, hs.head]
    exact List.Perm.refl _

theorem queueInv_next {log : List (QueueElt α)} {q : TkQueue α} (h : QueueInv log q)
    (hlt : q.head < q.tail) : QueueInv log { q with head := q.head + 1 } where
  wf := h.wf
  allocated := h.allocated
  not_replaced := h.not_replaced
  replaced_le := h.replaced_le
  head_nonneg := by
    have := h.head_nonneg
    simp only
    omega
  head_le := hlt
  tail_eq := h.tail_eq
  fits := le_trans (by simp only; omega) h.fits
  holds := fun p hp i h1 h2 => h.holds p hp i (by simp only at h1; omega) h2

theorem copying_next {q : TkQueue α} {new : ℕ} {head tail i : ℤ}
    (h : Copying q new head tail i) : Copying { q with head := q.head + 1 } new head tail i :=
  { h with head_le := h.head_le.trans (by simp) }

theorem ownerInv_next {log : List (QueueElt α)} {q : TkQueue α} {o : Owner α}
    (h : OwnerInv log q o) : OwnerInv log { q with head := q.head + 1 } o := by
  cases o with
  | push elt pc =>
    cases pc with
    | loadArray | loadHead _ => exact h
    | loadTail arr head => exact ⟨h.1, h.2.1.trans (by simp), h.2.2⟩
    | copyGet arr new head tail i => exact ⟨h.1, h.2.1, copying_next h.2.2⟩
    | copySet arr new head tail i v => exact ⟨h.1, h.2.1, h.2.2.1, copying_next h.2.2.2⟩
    | storeArray new head tail => exact copying_next h
    | set arr head tail | storeTail head tail =>
      exact ⟨h.1, h.2.1, h.2.2.1.trans (by simp), h.2.2.2⟩
  | popLoop pc => exact ⟨takeInv_next h.1, h.2⟩
  | _ => trivial

theorem thiefInv_next {log : List (QueueElt α)} {q : TkQueue α} {t : Thief α}
    (h : ThiefInv log q t) : ThiefInv log { q with head := q.head + 1 } t := by
  cases t with
  | idle => trivial
  | steal pc => exact takeInv_next h

theorem waiting_next {log : List (QueueElt α)} {s s' : State ι α} {r : QueueElt α}
    (h0 : 0 ≤ s.queue.head) (hr : log[s.queue.head.toNat]? = some r)
    (hh : s'.queue.head = s.queue.head + 1) (hb : s'.queue.buffer = s.queue.buffer)
    (ho : held s'.owner = held s.owner) :
    (waiting log s).Perm (r :: waiting log s') := by
  have hn : (s.queue.head + 1).toNat = s.queue.head.toNat + 1 := by omega
  obtain ⟨hlt, rfl⟩ := List.getElem?_eq_some_iff.mp hr
  simp only [waiting, hh, hb, ho, hn, List.drop_eq_getElem_cons hlt]
  refine List.Perm.trans ?_ List.perm_middle
  exact ((List.Perm.swap _ _ _).append_left _)

theorem inv_take {tr : List (Event ι α)} {s s' : State ι α} (h : Inv tr s) {t : Option ι}
    {r : QueueElt α} (hr : (appended tr)[s.queue.head.toNat]? = some r)
    (hlt : s.queue.head < s.queue.tail)
    (hq : s'.queue = { s.queue with head := s.queue.head + 1 })
    (hh : held s'.owner = held s.owner) (ho : OwnerInv (appended tr) s'.queue s'.owner)
    (ht : ∀ i, ThiefInv (appended tr) s'.queue (s'.thief i)) :
    Inv (tr ++ [⟨t, none, none, some r⟩]) s' := by
  refine inv_next h _ ?_ ?_ ?_ ?_ <;> simp only [Option.toList_none, List.append_nil]
  · rw [hq]
    exact queueInv_next h.queue hlt
  · exact ho
  · exact ht
  · exact (waiting_next h.queue.head_nonneg hr (by rw [hq]) (by rw [hq]) hh).filter _

theorem owner_push {tr : List (Event ι α)} {s : State ι α} (h : Inv tr s) {elt : QueueElt α}
    {pc : Push α} (hpc : s.owner = .push elt pc) {junk : ℤ → QueueElt α} {q : TkQueue α}
    {o : Owner α} {e : Event ι α} (hs : ownerStep ι junk s.queue s.owner = some (q, o, e)) :
    Inv (tr ++ [e]) { s with queue := q, owner := o } := by
  have hi : PushInv elt s.queue pc := by
    have ho := h.owner
    rwa [hpc] at ho
  simp only [ownerStep, hpc] at hs
  rcases hq : tkQueuePush junk elt s.queue pc with ⟨q', pc' | ⟨⟩⟩
  · cases hq ▸ hs
    obtain ⟨hsil, hi'⟩ := push_step h.queue hi hq
    exact inv_owner h hsil hi' (by rw [hpc]; rfl)
  · cases hq ▸ hs
    obtain ⟨rfl, hinv⟩ := push_done h.queue hi hq
    have htail := h.queue.tail_eq
    have h0 := h.queue.head_nonneg
    have hle := h.queue.head_le
    refine inv_next h _ hinv trivial ?_ ?_
    · intro i
      have ht := h.thief i
      cases hth : s.thief i with
      | idle => trivial
      | steal pc =>
        rw [hth] at ht
        refine takeInv_mono ht (fun _ h => h) rfl (by simp) ?_ (List.prefix_append _ _)
        intro p _ i hi hb
        cases hr : s.queue.replaced p with
        | none => simpa [bound, hr] using hi
        | some t => simpa [bound, hr] using hb
    · have hn : s.queue.head.toNat ≤ (appended tr).length := by omega
      simp only [waiting, hpc, held, Option.toList_none, Option.toList_some, List.nil_append,
        List.drop_append_of_le_length hn]
      refine List.Perm.filter _ ?_
      rw [← List.cons_append]
      exact List.perm_append_comm

theorem owner_priorityPush {tr : List (Event ι α)} {s : State ι α} (h : Inv tr s)
    {elt : QueueElt α} (hpc : s.owner = .priorityPush elt) {junk : ℤ → QueueElt α}
    {q : TkQueue α} {o : Owner α} {e : Event ι α}
    (hs : ownerStep ι junk s.queue s.owner = some (q, o, e)) :
    Inv (tr ++ [e]) { s with queue := q, owner := o } := by
  simp only [ownerStep, hpc, Option.some.injEq, Prod.mk.injEq] at hs
  obtain ⟨hq, ho, rfl⟩ := hs
  have hqueue : q = { s.queue with buffer := elt } := by
    rw [← hq, tkQueuePriorityPush]
    split <;> rfl
  subst hqueue
  have hinv : QueueInv (appended tr) { s.queue with buffer := elt } := { h.queue with }
  refine inv_next h _ ?_ ?_ ?_ ?_ <;> simp only [Option.toList_none, List.append_nil]
  · exact hinv
  · rw [← ho, tkQueuePriorityPush]
    split <;> trivial
  · intro i
    have ht := h.thief i
    cases hth : s.thief i with
    | idle => trivial
    | steal pc =>
      rw [hth] at ht
      exact takeInv_mono ht (fun _ h => h) rfl le_rfl (fun _ _ _ _ h => h) (List.prefix_refl _)
  · subst ho
    cases hb : s.queue.buffer with
    | EMPTY =>
      simp only [waiting, hpc, held, hb, tkQueuePriorityPush, occupied_append, occupied_empty]
      rw [← occupied_append]
      exact List.Perm.refl _
    | _ =>
      simp only [waiting, hpc, held, hb, tkQueuePriorityPush, List.nil_append,
        List.singleton_append]
      exact (List.Perm.swap _ _ _).filter _

theorem owner_pop {tr : List (Event ι α)} {s : State ι α} (h : Inv tr s)
    (hpc : s.owner = .pop) {junk : ℤ → QueueElt α} {q : TkQueue α} {o : Owner α} {e : Event ι α}
    (hs : ownerStep ι junk s.queue s.owner = some (q, o, e)) :
    Inv (tr ++ [e]) { s with queue := q, owner := o } := by
  have hinv : QueueInv (appended tr) { s.queue with buffer := .EMPTY } := { h.queue with }
  have hthief : ∀ i, ThiefInv (appended tr) { s.queue with buffer := .EMPTY } (s.thief i) := by
    intro i
    have ht := h.thief i
    cases hth : s.thief i with
    | idle => trivial
    | steal pc =>
      rw [hth] at ht
      exact takeInv_mono ht (fun _ h => h) rfl le_rfl (fun _ _ _ _ h => h) (List.prefix_refl _)
  simp only [ownerStep, hpc, tkQueuePop] at hs
  cases hb : s.queue.buffer with
  | EMPTY =>
    simp only [hb] at hs
    cases hs
    exact inv_owner h (silent_refl h.queue) ⟨trivial, fun arr ha => nomatch ha⟩ (by rw [hpc]; rfl)
  | _ =>
    simp only [hb] at hs
    cases hs
    refine inv_next h _ ?_ trivial ?_ ?_ <;> simp only [Option.toList_none, List.append_nil]
    · exact hinv
    · exact hthief
    · simp only [waiting, hpc, held, hb, List.nil_append, Option.toList_some, occupied_append,
        occupied_empty]
      rw [← occupied_append]
      exact List.Perm.refl _

theorem owner_popLoop {tr : List (Event ι α)} {s : State ι α} (h : Inv tr s) {pc : Take α}
    (hpc : s.owner = .popLoop pc) {junk : ℤ → QueueElt α} {q : TkQueue α} {o : Owner α}
    {e : Event ι α} (hs : ownerStep ι junk s.queue s.owner = some (q, o, e)) :
    Inv (tr ++ [e]) { s with queue := q, owner := o } := by
  have hi := h.owner
  rw [hpc] at hi
  obtain ⟨hi, harr⟩ := hi
  simp only [ownerStep, hpc] at hs
  rcases hq : takeLoop s.queue pc with ⟨q', pc' | r⟩
  · cases hq ▸ hs
    obtain ⟨rfl, hi', harr'⟩ := take_step h.queue hi hq
    refine inv_owner h (silent_refl h.queue) ⟨hi', fun arr ha => ?_⟩ (by rw [hpc]; rfl)
    obtain ha' | ha' := harr' arr ha
    · exact harr arr ha'
    · exact ha'
  · cases hq ▸ hs
    obtain ⟨rfl, rfl⟩ | ⟨arr, rfl, rfl⟩ := take_done hq
    · refine inv_next h _ ?_ trivial ?_ ?_ <;> simp only [Option.toList_none, List.append_nil]
      · exact h.queue
      · exact h.thief
      · simp only [waiting, hpc, held]
        exact List.Perm.refl _
    · obtain rfl := harr arr rfl
      obtain ⟨-, -, hlt, hget⟩ := hi
      exact inv_take h (hget rfl (hlt.trans_eq (bound_current h.queue).symm)) hlt rfl
        (by rw [hpc]; rfl) trivial (fun i => thiefInv_next (h.thief i))

theorem owner_step {tr : List (Event ι α)} {s : State ι α} (h : Inv tr s)
    {junk : ℤ → QueueElt α} {q : TkQueue α} {o : Owner α} {e : Event ι α}
    (hs : ownerStep ι junk s.queue s.owner = some (q, o, e)) :
    Inv (tr ++ [e]) { s with queue := q, owner := o } := by
  cases hpc : s.owner with
  | idle => simp [ownerStep, hpc] at hs
  | push elt pc => exact owner_push h hpc hs
  | priorityPush elt => exact owner_priorityPush h hpc hs
  | pop => exact owner_pop h hpc hs
  | popLoop pc => exact owner_popLoop h hpc hs

end Libseff.TokioQueue
