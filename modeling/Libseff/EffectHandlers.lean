import Libseff.EffectCells

namespace Libseff.EffectHandlers

open LinkedLists TransitionRuns EffectRegistry EffectCells

/-- A cell is only added when no generated id is live, and the handler that is
set for a generated id is the value its word has. -/
def keepsLinks (s : State) : Action → Prop
  | .alloc _ => s.live = []
  | .set effect handler => effect ∈ s.live → handler = s.registry.mem effect
  | _ => True

structure Inv (L : Layout) (tr : List Event) (s : State) : Prop where
  separated : Separated L s.live
  registered : Registered L s
  single : s.live.length ≤ 1
  handlers : ∀ id, isId L s id → s.registry.mem id = lastSet id tr

theorem lastSet_append (id : ℕ) (tr : List Event) (e : Event) :
    lastSet id (tr ++ [e]) = match e with
      | .alloc id' => if id' = id then NULL else lastSet id tr
      | .set effect handler _ => if effect = id then handler else lastSet id tr
      | _ => lastSet id tr := by
  rw [lastSet, List.foldl_append]
  cases e <;> rfl

theorem static_outside {L : Layout} {live : List ℕ} (h : Separated L live) {id : ℕ}
    (hid : L.isStatic id) : ∀ c ∈ cells L live, id ∉ cellWords c := by
  intro c hc hw
  obtain hc | hc := List.mem_append.mp hc
  · exact h.static c hc id hw hid
  · obtain rfl := List.mem_singleton.mp hc
    exact L.disjoint id hw hid

theorem inv_alloc {L : Layout} {tr : List Event} {s : State} (h : Inv L tr s) {newcell : ℕ}
    (hf : fresh L s.live newcell) (hlive : s.live = []) :
    Inv L (tr ++ [.alloc newcell]) ⟨seffAllocGenId newcell s.registry, newcell :: s.live⟩ := by
  have hg : s.registry.generated_ids = L.starting := by
    rw [h.registered.1, hlive]
    rfl
  have hstart : L.starting ∈ cells L s.live := List.mem_append_right _ (List.mem_singleton_self _)
  obtain ⟨h1, -, -, h4⟩ := alloc_mem hg fun w hw he =>
    (hf.2 w hw).2 L.starting hstart (he ▸ previous_mem L.starting)
  refine ⟨separated_alloc h.separated hf, registered_alloc h.separated h.registered hf,
    by simp [hlive], fun id hid => ?_⟩
  rw [lastSet_append]
  by_cases hne : newcell = id
  · subst hne
    simp only [if_true]
    exact h1
  · obtain hid | hid := hid
    · have hout : id ∉ cellWords newcell := fun hw => (hf.2 id hw).1 hid
      have hsep := static_outside h.separated hid L.starting hstart
      simp only [if_neg hne]
      rw [h4 id hout fun he => hsep (he ▸ previous_mem L.starting)]
      exact h.handlers id (.inl hid)
    · rw [hlive] at hid
      exact absurd (List.mem_singleton.mp hid).symm hne

theorem inv_dealloc {L : Layout} {tr : List Event} {s : State} (h : Inv L tr s) {id : ℕ}
    (hid : id ∈ s.live) :
    Inv L (tr ++ [.dealloc id]) ⟨seffDeallocGenId id s.registry, s.live.erase id⟩ := by
  obtain ⟨hg, hl⟩ := h.registered
  have hsingle : s.live = [id] := by
    obtain ⟨a, ha⟩ := List.length_eq_one_iff.mp
      (Nat.le_antisymm h.single (List.length_pos_of_mem hid))
    rw [ha] at hid ⊢
    rw [List.mem_singleton.mp hid]
  have herase : s.live.erase id = [] := by simp [hsingle]
  have hcells : cells L s.live = [] ++ id :: L.starting :: [] := by rw [hsingle]; rfl
  obtain ⟨h1, h2, h3⟩ := dealloc_linked h.separated hcells hg hl
  refine ⟨separated_erase h.separated id, ⟨?_, ?_⟩, by simp [herase], fun id' hid' => ?_⟩
  · rw [herase]
    exact h1
  · rw [herase]
    exact h2
  · obtain hid' | hid' := hid'
    · rw [lastSet_append, h3 id' (static_outside h.separated hid')]
      exact h.handlers id' (.inl hid')
    · rw [herase] at hid'
      exact absurd hid' List.not_mem_nil

theorem set_links {L : Layout} {s : State} (hsep : Separated L s.live) {effect handler : ℕ}
    (hid : isId L s effect) (hok : effect ∈ s.live → handler = s.registry.mem effect) {c w : ℕ}
    (hc : c ∈ cells L s.live) (hw : w ∈ cellWords c) :
    (store s.registry effect handler).mem w = s.registry.mem w := by
  by_cases hwe : w = effect
  · subst hwe
    obtain hst | hlive := hid
    · exact absurd hw (static_outside hsep hst c hc)
    · exact (Function.update_self ..).trans (hok hlive)
  · exact Function.update_of_ne hwe _ _

theorem inv_set {L : Layout} {tr : List Event} {s : State} (h : Inv L tr s)
    {effect handler prev : ℕ} (hid : isId L s effect)
    (hok : effect ∈ s.live → handler = s.registry.mem effect) :
    Inv L (tr ++ [.set effect handler prev])
      { s with registry := store s.registry effect handler } := by
  refine ⟨h.separated, ⟨h.registered.1, doublyLinked_congr h.registered.2 ?_ ?_⟩, h.single, ?_⟩
  · exact fun c hc => set_links h.separated hid hok hc (previous_mem c)
  · exact fun c hc => set_links h.separated hid hok hc (next_mem c)
  · intro id hid'
    rw [lastSet_append]
    by_cases he : effect = id
    · subst he
      simp only [if_true]
      exact Function.update_self ..
    · simp only [if_neg he]
      exact (Function.update_of_ne (Ne.symm he) _ _).trans (h.handlers id hid')

theorem inv_step {L : Layout} {tr : List Event} {s s' : State} (h : Inv L tr s) {a : Action}
    (hm : mayRun L s a) (hok : keepsLinks s a) {e : Event} (hs : step s a = some (s', e)) :
    Inv L (tr ++ [e]) s' := by
  cases a with
  | alloc newcell =>
    cases hs
    exact inv_alloc h hm hok
  | dealloc id =>
    cases hs
    exact inv_dealloc h hm
  | set effect handler =>
    cases hs
    exact inv_set h hm hok
  | get effect =>
    cases hs
    refine ⟨h.separated, h.registered, h.single, fun id hid => ?_⟩
    rw [lastSet_append]
    exact h.handlers id hid

theorem inv_init {L : Layout} {s : State} (h : isInit L s) : Inv L [] s := by
  obtain ⟨registry, live⟩ := s
  obtain ⟨rfl, hg, hstart, hstatic⟩ := h
  refine ⟨⟨List.nodup_singleton _, fun c hc => (nomatch hc), ?_, fun c hc => (nomatch hc)⟩,
    ⟨hg, hstart _ (previous_mem _), hstart _ (next_mem _), trivial⟩, Nat.zero_le _, ?_⟩
  · intro c hc d hd hne
    exact absurd ((List.mem_singleton.mp hc).trans (List.mem_singleton.mp hd).symm) hne
  · intro id hid
    obtain hid | hid := hid
    · exact hstatic id hid
    · exact absurd hid List.not_mem_nil

theorem run_inv {L : Layout} {tr : List Event} {s : State}
    (h : Run ((registrySystem L).restrict keepsLinks) tr s) : Inv L tr s :=
  Run.invariant (Inv L) (fun _ h0 => inv_init h0)
    (fun _ s a _ _ hi (hm : mayRun L s a ∧ keepsLinks s a) hs => inv_step hi hm.1 hm.2 hs) h

/-- The handlers are an independent map and the registry is intact, as long as
no operation goes through a word that is both a handler and a link. -/
theorem effectHandlers_independent (L : Layout) :
    IndependentHandlers L ((registrySystem L).restrict keepsLinks) := by
  intro tr s h
  have hi := run_inv h
  refine ⟨hi.registered, hi.handlers, ?_⟩
  intro a s' e (hm : mayRun L s a ∧ keepsLinks s a) hs
  refine ⟨?_, ?_⟩
  · rintro id v rfl
    cases a <;> cases hs
    exact hi.handlers id hm.1
  · rintro id v prev rfl
    cases a <;> cases hs
    refine ⟨hi.handlers id hm.1, rfl, fun c hc => ⟨?_, ?_⟩⟩
    · exact set_links hi.separated hm.1 hm.2 hc (previous_mem c)
    · exact set_links hi.separated hm.1 hm.2 hc (next_mem c)

def emptyLayout : Layout where
  starting := 16
  isStatic := fun _ => False
  starting_ne := by decide
  static_ne := id
  disjoint := fun _ _ => id

/-- With two generated ids, the word of the older one links to the newer one. -/
theorem not_independent_of_two_ids :
    ¬ IndependentHandlers emptyLayout (registrySystem emptyLayout) := by
  intro h
  have h48 : fresh emptyLayout [] 48 :=
    ⟨by decide, by simp [cells, cellWords, emptyLayout, previous, handler, next]⟩
  have h80 : fresh emptyLayout [48] 80 :=
    ⟨by decide, by simp [cells, cellWords, emptyLayout, previous, handler, next]⟩
  have hinit : isInit emptyLayout ⟨⟨fun _ => NULL, 16⟩, []⟩ :=
    ⟨rfl, rfl, fun _ _ => rfl, fun _ _ => rfl⟩
  have h0 : Run (registrySystem emptyLayout) [] ⟨⟨fun _ => NULL, 16⟩, []⟩ := Run.start hinit
  have h1 := Run.next h0 (a := Action.alloc 48) h48 rfl
  have h2 := Run.next h1 (a := Action.alloc 80) h80 rfl
  have hget := (h _ _ h2).2.1 48 (.inr (by decide))
  exact absurd hget (by decide)

end Libseff.EffectHandlers
