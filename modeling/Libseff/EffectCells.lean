import Libseff.EffectRegistry

namespace Libseff.EffectCells

open LinkedLists TransitionRuns EffectRegistry

structure Separated (L : Layout) (live : List ℕ) : Prop where
  nodup : (cells L live).Nodup
  ne_null : ∀ c ∈ live, c ≠ NULL
  words : ∀ c ∈ cells L live, ∀ d ∈ cells L live, c ≠ d → ∀ w ∈ cellWords c, w ∉ cellWords d
  static : ∀ c ∈ live, ∀ w ∈ cellWords c, ¬ L.isStatic w

def prevLink (r : Registry) (c : ℕ) : ℕ := r.mem (previous c)

def nextLink (r : Registry) (c : ℕ) : ℕ := r.mem (next c)

theorem previous_mem (c : ℕ) : previous c ∈ cellWords c := List.mem_cons_self

theorem next_mem (c : ℕ) : next c ∈ cellWords c :=
  List.mem_cons_of_mem _ (List.mem_cons_of_mem _ List.mem_cons_self)

theorem previous_ne_next {L : Layout} {live : List ℕ} (h : Separated L live) {c d : ℕ}
    (hc : c ∈ cells L live) (hd : d ∈ cells L live) : previous c ≠ next d := by
  intro he
  by_cases hcd : c = d
  · subst hcd
    simp only [previous, next] at he
    omega
  · exact h.words c hc d hd hcd (previous c) (previous_mem c) (he ▸ next_mem d)

theorem cells_ne_null {L : Layout} {live : List ℕ} (h : Separated L live) {c : ℕ}
    (hc : c ∈ cells L live) : c ≠ NULL := by
  obtain hc | hc := List.mem_append.mp hc
  · exact h.ne_null c hc
  · exact List.mem_singleton.mp hc ▸ L.starting_ne

theorem separated_alloc {L : Layout} {live : List ℕ} (h : Separated L live) {newcell : ℕ}
    (hf : fresh L live newcell) : Separated L (newcell :: live) := by
  obtain ⟨hne, hw⟩ := hf
  have hnew : ∀ c ∈ cells L live, ∀ w ∈ cellWords newcell, w ∉ cellWords c :=
    fun c hc w hmem => (hw w hmem).2 c hc
  refine ⟨List.nodup_cons.mpr ⟨fun hc => ?_, h.nodup⟩, ?_, ?_, ?_⟩
  · exact hnew newcell hc (previous newcell) (previous_mem newcell) (previous_mem newcell)
  · intro c hc
    obtain rfl | hc := List.mem_cons.mp hc
    · exact hne
    · exact h.ne_null c hc
  · intro c hc d hd hcd w hwc hwd
    obtain hc' | hc' := List.mem_cons.mp hc
    · obtain hd' | hd' := List.mem_cons.mp hd
      · exact hcd (hc'.trans hd'.symm)
      · exact hnew d hd' w (hc' ▸ hwc) hwd
    · obtain hd' | hd' := List.mem_cons.mp hd
      · exact hnew c hc' w (hd' ▸ hwd) hwc
      · exact h.words c hc' d hd' hcd w hwc hwd
  · intro c hc w hmem
    obtain rfl | hc := List.mem_cons.mp hc
    · exact (hw w hmem).1
    · exact h.static c hc w hmem

theorem separated_erase {L : Layout} {live : List ℕ} (h : Separated L live) (id : ℕ) :
    Separated L (live.erase id) := by
  have hsub : (cells L (live.erase id)).Sublist (cells L live) :=
    List.erase_sublist.append_right _
  refine ⟨h.nodup.sublist hsub, fun c hc => h.ne_null c (List.mem_of_mem_erase hc), ?_,
    fun c hc => h.static c (List.mem_of_mem_erase hc)⟩
  exact fun c hc d hd => h.words c (hsub.subset hc) d (hsub.subset hd)

theorem alloc_mem {r : Registry} {newcell : ℕ} {a : ℕ} (hg : r.generated_ids = a)
    (ha : ∀ w ∈ cellWords newcell, w ≠ previous a) :
    (seffAllocGenId newcell r).mem (previous newcell) = NULL ∧
    (seffAllocGenId newcell r).mem (next newcell) = a ∧
    (seffAllocGenId newcell r).mem (previous a) = newcell ∧
    ∀ w, w ∉ cellWords newcell → w ≠ previous a → (seffAllocGenId newcell r).mem w = r.mem w := by
  have h1 := ha (previous newcell) (previous_mem newcell)
  have h2 := ha (next newcell) (next_mem newcell)
  subst hg
  simp only [seffAllocGenId, store]
  refine ⟨?_, ?_, Function.update_self .., ?_⟩
  · rw [Function.update_of_ne h1, Function.update_of_ne (by simp [previous, next]),
      Function.update_of_ne (by simp [previous, handler]), Function.update_self]
  · rw [Function.update_of_ne h2, Function.update_self]
  · intro w hw hwa
    simp only [cellWords, List.mem_cons, List.not_mem_nil, or_false, not_or] at hw
    rw [Function.update_of_ne hwa, Function.update_of_ne hw.2.2, Function.update_of_ne hw.2.1,
      Function.update_of_ne hw.1]

theorem registered_alloc {L : Layout} {s : State} (hsep : Separated L s.live)
    (h : Registered L s) {newcell : ℕ} (hf : fresh L s.live newcell) :
    Registered L ⟨seffAllocGenId newcell s.registry, newcell :: s.live⟩ := by
  obtain ⟨hg, hl⟩ := h
  obtain ⟨a, l, hcells⟩ : ∃ a l, cells L s.live = a :: l := by
    cases hc : cells L s.live with
    | nil => exact absurd hc (by simp [cells])
    | cons a l => exact ⟨a, l, rfl⟩
  have hnodup := hsep.nodup
  rw [hcells] at hg hl hnodup
  have hmem : ∀ c ∈ a :: l, c ∈ cells L s.live := fun c hc => hcells ▸ hc
  have hout : ∀ c ∈ a :: l, ∀ w ∈ cellWords c, w ∉ cellWords newcell :=
    fun c hc w hw hw' => (hf.2 w hw').2 c (hmem c hc) hw
  obtain ⟨h1, h2, h3, h4⟩ := alloc_mem hg fun w hw he =>
    hout a List.mem_cons_self (previous a) (previous_mem a) (he ▸ hw)
  have hold : ∀ c ∈ a :: l, (seffAllocGenId newcell s.registry).mem (next c) =
      s.registry.mem (next c) := by
    intro c hc
    apply h4 _ (hout c hc _ (next_mem c))
    exact (previous_ne_next hsep (hmem a List.mem_cons_self) (hmem c hc)).symm
  refine ⟨rfl, ?_⟩
  change DoublyLinked _ _ NULL NULL (newcell :: cells L s.live)
  rw [hcells]
  refine ⟨h1, h2, doublyLinked_before hl h3 ?_ hold⟩
  intro c hc
  apply h4 _ (hout c (List.mem_cons_of_mem a hc) _ (previous_mem c))
  rintro rfl
  exact (List.nodup_cons.mp hnodup).1 hc

theorem store_next {r : Registry} {a v c : ℕ} (h : a ≠ next c) :
    nextLink (store r a v) c = nextLink r c :=
  Function.update_of_ne (Ne.symm h) _ _

theorem store_previous {r : Registry} {a v c : ℕ} (h : a ≠ previous c) :
    prevLink (store r a v) c = prevLink r c :=
  Function.update_of_ne (Ne.symm h) _ _

structure Relinked (r r' : Registry) (cs cs' : List ℕ) : Prop where
  head : r'.generated_ids = cs'.headD NULL
  links : DoublyLinked (prevLink r') (nextLink r') NULL NULL cs'
  frame : ∀ w, (∀ c ∈ cs, w ∉ cellWords c) → r'.mem w = r.mem w

theorem dealloc_newest {L : Layout} {live : List ℕ} {r : Registry} (hsep : Separated L live)
    {t : List ℕ} {id b : ℕ} (hcells : cells L live = id :: b :: t)
    (h : DoublyLinked (prevLink r) (nextLink r) NULL NULL (id :: b :: t)) :
    Relinked r (seffDeallocGenId id r) (cells L live) (b :: t) := by
  have hb : b ∈ cells L live := by simp [hcells]
  have hnodup := hsep.nodup
  rw [hcells] at hnodup
  have hbt : b ∉ t := (List.nodup_cons.mp (List.nodup_cons.mp hnodup).2).1
  obtain ⟨hprev, hnext, ht⟩ := h
  have hforward : r.mem (next id) = b := hnext
  have hback : r.mem (previous id) = NULL := hprev
  have hdealloc : seffDeallocGenId id r =
      { store r (previous b) NULL with generated_ids := b } := by
    simp only [seffDeallocGenId, hforward, hback, if_pos (cells_ne_null hsep hb), ne_eq,
      not_true, if_false]
  rw [hdealloc]
  refine ⟨rfl, doublyLinked_before ht (Function.update_self ..) (fun c hc => ?_) (fun c hc => ?_),
    fun w hw => Function.update_of_ne ?_ _ _⟩
  · exact store_previous (fun he : b = c => hbt (he ▸ hc))
  · exact store_next (previous_ne_next hsep hb (hcells ▸ List.mem_cons_of_mem id hc))
  · intro he
    exact hw b hb (he ▸ previous_mem b)

theorem dealloc_older {L : Layout} {live : List ℕ} {r : Registry} (hsep : Separated L live)
    {l t : List ℕ} {z id b : ℕ} (hcells : cells L live = (l ++ [z]) ++ id :: b :: t)
    (hg : r.generated_ids = ((l ++ [z]) ++ id :: b :: t).headD NULL)
    (h : DoublyLinked (prevLink r) (nextLink r) NULL NULL ((l ++ [z]) ++ id :: b :: t)) :
    Relinked r (seffDeallocGenId id r) (cells L live) ((l ++ [z]) ++ b :: t) := by
  have hmem : ∀ c ∈ (l ++ [z]) ++ id :: b :: t, c ∈ cells L live := fun c hc => hcells ▸ hc
  have hb : b ∈ cells L live := hmem b (by simp)
  have hz : z ∈ cells L live := hmem z (by simp)
  have hnodup := hsep.nodup
  rw [hcells] at hnodup
  obtain ⟨hfront, hrest, hdisj⟩ := List.nodup_append.mp hnodup
  have hbt : b ∉ t := (List.nodup_cons.mp (List.nodup_cons.mp hrest).2).1
  have hzl : z ∉ l := fun hc =>
    (List.nodup_append.mp hfront).2.2 z hc z (List.mem_singleton_self z) rfl
  have hzt : ∀ c ∈ b :: t, z ≠ c := fun c hc =>
    hdisj z (by simp) c (List.mem_cons_of_mem id hc)
  have hbl : ∀ c ∈ l ++ [z], b ≠ c := fun c hc => (hdisj c hc b (by simp)).symm
  have hnexts : ∀ c ∈ (l ++ [z]) ++ id :: b :: t, previous b ≠ next c :=
    fun c hc => previous_ne_next hsep hb (hmem c hc)
  have hprevs : ∀ c ∈ (l ++ [z]) ++ id :: b :: t, next z ≠ previous c :=
    fun c hc => (previous_ne_next hsep (hmem c hc) hz).symm
  have hzlast : (l ++ [z]).getLastD NULL = z := by simp
  rw [doublyLinked_append, hzlast] at h
  obtain ⟨hl, hprev, hnext, ht⟩ := h
  have hforward : r.mem (next id) = b := hnext
  have hback : r.mem (previous id) = z := hprev
  have hdealloc : seffDeallocGenId id r = store (store r (previous b) z) (next z) b := by
    simp only [seffDeallocGenId, hforward, hback, if_pos (cells_ne_null hsep hb),
      if_pos (cells_ne_null hsep hz)]
  rw [hdealloc]
  refine ⟨?_, doublyLinked_append.mpr ⟨?_, ?_⟩, fun w hw => ?_⟩
  · change r.generated_ids = _
    rw [hg, headD_append, headD_append]
    cases l <;> rfl
  · refine doublyLinked_after hl (Function.update_self ..) (fun c hc => ?_) fun c hc => ?_
    · have hbc : previous b ≠ previous c := hbl c hc
      rw [store_previous (hprevs c (List.mem_append_left _ hc)), store_previous hbc]
    · have hcz : next z ≠ next c := fun he => hzl (by rwa [Nat.add_right_cancel he])
      rw [store_next hcz, store_next (hnexts c (by simp [hc]))]
  · rw [hzlast]
    refine doublyLinked_before ht ?_ (fun c hc => ?_) fun c hc => ?_
    · rw [store_previous (hprevs b (by simp))]
      exact Function.update_self ..
    · have hbc : previous b ≠ previous c := fun he : b = c => hbt (he ▸ hc)
      rw [store_previous (hprevs c (by simp [hc])), store_previous hbc]
    · have hcz : next z ≠ next c := fun he => hzt c hc (Nat.add_right_cancel he)
      rw [store_next hcz, store_next (hnexts c (by simpa using Or.inr (Or.inr (Or.inr hc))))]
  · have hwz : w ≠ next z := by
      rintro rfl
      exact hw z hz (next_mem z)
    have hwb : w ≠ previous b := fun he => hw b hb (he ▸ previous_mem b)
    exact (Function.update_of_ne hwz _ _).trans (Function.update_of_ne hwb _ _)

theorem dealloc_linked {L : Layout} {live : List ℕ} {r : Registry} (hsep : Separated L live)
    {l t : List ℕ} {id b : ℕ} (hcells : cells L live = l ++ id :: b :: t)
    (hg : r.generated_ids = (cells L live).headD NULL)
    (h : DoublyLinked (prevLink r) (nextLink r) NULL NULL (cells L live)) :
    Relinked r (seffDeallocGenId id r) (cells L live) (l ++ b :: t) := by
  rw [hcells] at hg h
  obtain rfl | ⟨l, z, rfl⟩ := l.eq_nil_or_concat'
  · exact dealloc_newest hsep hcells h
  · exact dealloc_older hsep hcells hg h

end Libseff.EffectCells
