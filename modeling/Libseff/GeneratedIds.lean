import Libseff.EffectHandlers

namespace Libseff.GeneratedIds

open LinkedLists TransitionRuns EffectRegistry EffectCells EffectHandlers

def liveIds (tr : List Event) : List ℕ :=
  tr.foldl (fun live e => match e with
    | .alloc id => id :: live
    | .dealloc id => live.erase id
    | _ => live) []

/-- Default handlers are only set for effects that are defined statically. -/
def setsStatic (s : State) : Action → Prop
  | .set effect _ => effect ∉ s.live
  | _ => True

/-- `_seff_generated_ids` is the list of the live ids, newest first, and the
starting struct. The id of the return effect is the null pointer. -/
structure LiveList (L : Layout) (tr : List Event) (s : State) : Prop where
  path : Path (nextLink s.registry) NULL s.registry.generated_ids (cells L (liveIds tr))
  head : prevLink s.registry s.registry.generated_ids = NULL
  back : ∀ c ∈ liveIds tr, prevLink s.registry (nextLink s.registry c) = c
  nodup : (cells L (liveIds tr)).Nodup
  ne_return : ∀ id ∈ liveIds tr, id ≠ NULL
  reachable : ∀ c, Reachable (prevLink s.registry) (nextLink s.registry) NULL
    s.registry.generated_ids c ↔ c ∈ cells L (liveIds tr)
  freed : ∀ id, .dealloc id ∈ tr → id ∉ liveIds tr → ¬ Reachable (prevLink s.registry)
    (nextLink s.registry) NULL s.registry.generated_ids id
  free_all : ∀ order : List ℕ, order.Perm (liveIds tr) →
    Registered L ⟨order.foldl (fun r id => seffDeallocGenId id r) s.registry, []⟩

structure Inv (L : Layout) (tr : List Event) (s : State) : Prop where
  live : s.live = liveIds tr
  separated : Separated L s.live
  registered : Registered L s
  freed : ∀ id, .dealloc id ∈ tr → id ≠ L.starting

theorem liveIds_append (tr : List Event) (e : Event) :
    liveIds (tr ++ [e]) = match e with
      | .alloc id => id :: liveIds tr
      | .dealloc id => (liveIds tr).erase id
      | _ => liveIds tr := by
  rw [liveIds, List.foldl_append]
  cases e <;> rfl

theorem mem_live {L : Layout} {live : List ℕ} (h : Separated L live) {id : ℕ} (hid : id ∈ live) :
    id ≠ L.starting := by
  rintro rfl
  exact (List.nodup_append.mp h.nodup).2.2 L.starting hid L.starting (List.mem_singleton_self _) rfl

theorem cells_split (L : Layout) {live : List ℕ} {id : ℕ}
    (hid : id ∈ live) : ∃ l b t, cells L live = l ++ id :: b :: t ∧
      cells L (live.erase id) = l ++ b :: t := by
  obtain ⟨l, k, hl, hlive, herase⟩ := List.exists_erase_eq hid
  obtain ⟨b, t, hb⟩ : ∃ b t, k ++ [L.starting] = b :: t := by
    cases k with
    | nil => exact ⟨_, _, rfl⟩
    | cons b k => exact ⟨_, _, rfl⟩
  refine ⟨l, b, t, ?_, ?_⟩
  · rw [cells, hlive, List.append_assoc, List.cons_append, hb]
  · rw [cells, herase, List.append_assoc, hb]

theorem registered_dealloc {L : Layout} {s : State} (hsep : Separated L s.live)
    (h : Registered L s) {id : ℕ} (hid : id ∈ s.live) :
    Registered L ⟨seffDeallocGenId id s.registry, s.live.erase id⟩ := by
  obtain ⟨l, b, t, hcells, herase⟩ := cells_split L hid
  obtain ⟨hhead, hlinks, -⟩ := dealloc_linked hsep hcells h.1 h.2
  exact ⟨herase ▸ hhead, herase ▸ hlinks⟩

theorem registered_free_all {L : Layout} {order : List ℕ} {s : State} (hsep : Separated L s.live)
    (h : Registered L s) (hperm : order.Perm s.live) :
    Registered L ⟨order.foldl (fun r id => seffDeallocGenId id r) s.registry, []⟩ := by
  induction order generalizing s with
  | nil =>
    obtain ⟨registry, live⟩ := s
    obtain rfl : live = [] := hperm.symm.eq_nil
    exact h
  | cons id order ih =>
    have hid : id ∈ s.live := hperm.subset List.mem_cons_self
    refine ih (separated_erase hsep id) (registered_dealloc hsep h hid) ?_
    exact List.cons_perm_iff_perm_erase.mp hperm |>.2

theorem inv_init {L : Layout} {s : State} (h : isInit L s) : Inv L [] s := by
  have hi := EffectHandlers.inv_init h
  exact ⟨h.1, hi.separated, hi.registered, fun id hid => absurd hid List.not_mem_nil⟩

theorem inv_step {L : Layout} {tr : List Event} {s s' : State} (h : Inv L tr s) {a : Action}
    (hm : mayRun L s a) (hok : setsStatic s a) {e : Event} (hs : step s a = some (s', e)) :
    Inv L (tr ++ [e]) s' := by
  obtain ⟨hlive, hsep, hreg, hfreed⟩ := h
  have hold : (∀ id, e ≠ .dealloc id) → ∀ id, .dealloc id ∈ tr ++ [e] → id ≠ L.starting := by
    intro he id hid
    obtain hid | hid := List.mem_append.mp hid
    · exact hfreed id hid
    · exact absurd (List.mem_singleton.mp hid).symm (he id)
  cases a with
  | alloc newcell =>
    cases hs
    refine ⟨?_, separated_alloc hsep hm, registered_alloc hsep hreg hm, hold (by simp)⟩
    rw [liveIds_append, hlive]
  | dealloc id =>
    cases hs
    refine ⟨?_, separated_erase hsep id, registered_dealloc hsep hreg hm, ?_⟩
    · rw [liveIds_append, hlive]
    · intro id' hid'
      obtain hid' | hid' := List.mem_append.mp hid'
      · exact hfreed id' hid'
      · obtain rfl : id' = id := by simpa using hid'
        exact mem_live hsep hm
  | set effect handler =>
    cases hs
    have hlinks : effect ∈ s.live → handler = s.registry.mem effect := fun he => absurd he hok
    refine ⟨?_, hsep, ⟨hreg.1, doublyLinked_congr hreg.2 ?_ ?_⟩, hold (by simp)⟩
    · rw [liveIds_append, hlive]
    · exact fun c hc => set_links hsep hm hlinks hc (previous_mem c)
    · exact fun c hc => set_links hsep hm hlinks hc (next_mem c)
  | get effect =>
    cases hs
    refine ⟨?_, hsep, hreg, hold (by simp)⟩
    rw [liveIds_append, hlive]

theorem run_inv {L : Layout} {tr : List Event} {s : State}
    (h : Run ((registrySystem L).restrict setsStatic) tr s) : Inv L tr s :=
  Run.invariant (Inv L) (fun _ h0 => inv_init h0)
    (fun _ s a _ _ hi (hm : mayRun L s a ∧ setsStatic s a) hs => inv_step hi hm.1 hm.2 hs) h

theorem generatedIds_liveList {L : Layout} {tr : List Event} {s : State}
    (h : Run ((registrySystem L).restrict setsStatic) tr s) : LiveList L tr s := by
  obtain ⟨hlive, hsep, hreg, hfreed⟩ := run_inv h
  obtain ⟨hhead, hlinks⟩ := hreg
  have hnull : NULL ∉ cells L s.live := fun hc => cells_ne_null hsep hc rfl
  have hreach : ∀ c, Reachable (prevLink s.registry) (nextLink s.registry) NULL
      s.registry.generated_ids c ↔ c ∈ cells L s.live := by
    intro c
    rw [hhead]
    exact reachable_iff_mem hlinks hnull
  rw [hlive] at *
  refine ⟨?_, ?_, fun c hc => doublyLinked_back hlinks hc, hsep.nodup, hsep.ne_null, hreach, ?_,
    fun order hperm => ?_⟩
  · rw [hhead]
    exact path_of_doublyLinked hlinks
  · rw [hhead]
    cases hc : cells L (liveIds tr) with
    | nil => exact absurd hc (by simp [cells])
    | cons a l =>
      rw [hc] at hlinks
      exact hlinks.1
  · intro id hid hnot hr
    obtain hc | hc := List.mem_append.mp ((hreach id).mp hr)
    · exact hnot hc
    · exact hfreed id hid (List.mem_singleton.mp hc)
  · exact registered_free_all (s := ⟨s.registry, liveIds tr⟩) hsep ⟨hhead, hlinks⟩ hperm

theorem generatedIds_liveList_of_older : ∃ tr s, Run ((registrySystem emptyLayout).restrict
    setsStatic) tr s ∧ liveIds tr = [80] ∧ LiveList emptyLayout tr s := by
  have h48 : fresh emptyLayout [] 48 :=
    ⟨by decide, by simp [cells, cellWords, emptyLayout, previous, handler, next]⟩
  have h80 : fresh emptyLayout [48] 80 :=
    ⟨by decide, by simp [cells, cellWords, emptyLayout, previous, handler, next]⟩
  have hinit : isInit emptyLayout ⟨⟨fun _ => NULL, 16⟩, []⟩ :=
    ⟨rfl, rfl, fun _ _ => rfl, fun _ _ => rfl⟩
  have h0 : Run ((registrySystem emptyLayout).restrict setsStatic) [] ⟨⟨fun _ => NULL, 16⟩, []⟩ :=
    Run.start hinit
  have h1 := Run.next h0 (a := Action.alloc 48) ⟨h48, trivial⟩ rfl
  have h2 := Run.next h1 (a := Action.alloc 80) ⟨h80, trivial⟩ rfl
  have h3 := Run.next h2 (a := Action.dealloc 48) ⟨List.mem_cons_of_mem 80 List.mem_cons_self,
    trivial⟩ rfl
  exact ⟨_, _, h3, rfl, generatedIds_liveList h3⟩

end Libseff.GeneratedIds
