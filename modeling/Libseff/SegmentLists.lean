import Libseff.StackSegments

namespace Libseff.SegmentLists

open LinkedLists TransitionRuns StackSegments

structure Segments (heap : Heap) (l : List ℕ) : Prop where
  linked : DoublyLinked (prevOf heap) (nextOf heap) NULL NULL l
  nodup : l.Nodup
  ne_null : ∀ a ∈ l, a ≠ NULL
  allocated : ∀ a ∈ l, (heap a).isSome

theorem next_eq_headD {heap : Heap} {k cached : List ℕ} {z : ℕ}
    (h : Segments heap ((k ++ [z]) ++ cached)) : nextOf heap z = cached.headD NULL := by
  have hlast := h.linked
  rw [doublyLinked_append, doublyLinked_append] at hlast
  exact hlast.1.2.2.1

structure Linked (a b : ℕ) (heap heap' : Heap) : Prop where
  next_eq : nextOf heap' a = b
  prev_eq : prevOf heap' b = a
  next_of_ne : ∀ c, c ≠ a → nextOf heap' c = nextOf heap c
  prev_of_ne : ∀ c, c ≠ b → prevOf heap' c = prevOf heap c
  outside : ∀ c, c ≠ a → c ≠ b → heap' c = heap c
  isSome : ∀ c, (heap' c).isSome = (heap c).isSome

theorem link_linked (heap : Heap) {a b : ℕ} (hab : a ≠ b) (ha : (heap a).isSome)
    (hb : (heap b).isSome) : ∃ heap', link a b heap = some heap' ∧ Linked a b heap heap' := by
  obtain ⟨sa, hsa⟩ := Option.isSome_iff_exists.mp ha
  obtain ⟨sb, hsb⟩ := Option.isSome_iff_exists.mp hb
  have hl : link a b heap = some (Function.update (Function.update heap a
      (some { sa with next := b })) b (some { sb with prev := a })) := by
    simp [link, hsa, Function.update_of_ne hab.symm, hsb]
  refine ⟨_, hl, ?_, ?_, ?_, ?_, ?_, ?_⟩
  · simp [nextOf, Function.update_of_ne hab]
  · simp [prevOf]
  · intro c hc
    by_cases hcb : c = b
    · subst hcb
      simp [nextOf, hsb]
    · simp [nextOf, Function.update_of_ne hc, Function.update_of_ne hcb]
  · intro c hc
    by_cases hca : c = a
    · subst hca
      simp [prevOf, Function.update_of_ne hc, hsa]
    · simp [prevOf, Function.update_of_ne hc, Function.update_of_ne hca]
  · intro c hca hcb
    rw [Function.update_of_ne hcb, Function.update_of_ne hca]
  · intro c
    by_cases hcb : c = b
    · subst hcb
      simp [hsb]
    · by_cases hca : c = a
      · subst hca
        simp [Function.update_of_ne hcb, hsa]
      · rw [Function.update_of_ne hcb, Function.update_of_ne hca]

theorem segments_insert {heap heap' : Heap} {k cached : List ℕ} {z segment : ℕ}
    (h : Segments heap ((k ++ [z]) ++ cached)) (hf : fresh heap segment)
    (hz : nextOf heap' z = segment) (hp : prevOf heap' segment = z)
    (hn : nextOf heap' segment = cached.headD NULL)
    (hhead : ∀ b t, cached = b :: t → prevOf heap' b = segment)
    (hprev : ∀ c, c ≠ segment → c ≠ cached.headD NULL → prevOf heap' c = prevOf heap c)
    (hnext : ∀ c, c ≠ segment → c ≠ z → nextOf heap' c = nextOf heap c)
    (hsome : ∀ c, (heap c).isSome → (heap' c).isSome) (hnew : (heap' segment).isSome) :
    Segments heap' ((k ++ [z]) ++ segment :: cached) := by
  have hout : ∀ c ∈ (k ++ [z]) ++ cached, c ≠ segment := by
    rintro c hc rfl
    have := h.allocated c hc
    simp [hf.2] at this
  obtain ⟨hnd1, hnd2, hdisj⟩ := List.nodup_append.mp h.nodup
  have hzk : ∀ c ∈ k, c ≠ z := fun c hc =>
    (List.nodup_append.mp hnd1).2.2 c hc z (List.mem_singleton_self z)
  have hnhead : ∀ c ∈ k ++ [z], c ≠ cached.headD NULL := by
    intro c hc
    cases cached with
    | nil => exact h.ne_null c (List.mem_append_left _ hc)
    | cons b t => exact hdisj c hc b List.mem_cons_self
  refine ⟨?_, ?_, ?_, ?_⟩
  · refine doublyLinked_insert h.linked hz ⟨hp, hn⟩ ?_ ?_ hhead ?_ ?_
    · exact fun b hb => hprev b (hout b (List.mem_append_left _ hb)) (hnhead b hb)
    · intro b hb
      exact hnext b (hout b (by simp [hb])) (hzk b hb)
    · rintro b t rfl c hc
      refine hprev c (hout c (by simp [hc])) ?_
      rintro rfl
      exact (List.nodup_cons.mp hnd2).1 hc
    · intro b hb
      refine hnext b (hout b (List.mem_append_right _ hb)) ?_
      rintro rfl
      exact hdisj b (by simp) b hb rfl
  · refine List.nodup_middle.mpr (List.nodup_cons.mpr ⟨fun hc => ?_, h.nodup⟩)
    exact hout segment hc rfl
  · intro a ha
    obtain ha | ha := List.mem_cons.mp (List.perm_middle.mem_iff.mp ha)
    · exact ha ▸ hf.1
    · exact h.ne_null a ha
  · intro a ha
    obtain ha | ha := List.mem_cons.mp (List.perm_middle.mem_iff.mp ha)
    · exact ha ▸ hnew
    · exact hsome a (h.allocated a ha)

theorem init_outside {heap : Heap} {segment size c : ℕ} (h : c ≠ segment) :
    initSegment segment size heap c = heap c := Function.update_of_ne h _ _

theorem init_segment (heap : Heap) (segment size : ℕ) :
    initSegment segment size heap segment = some ⟨NULL, NULL, size⟩ := Function.update_self ..

theorem segments_init {heap : Heap} {segment : ℕ} (hf : fresh heap segment) (size : ℕ) :
    Segments (initSegment segment size heap) [segment] := by
  refine ⟨?_, List.nodup_singleton _, fun a ha => ?_, fun a ha => ?_⟩
  · simp [DoublyLinked, prevOf, nextOf, init_segment]
  · obtain rfl := List.mem_singleton.mp ha
    exact hf.1
  · obtain rfl := List.mem_singleton.mp ha
    simp [init_segment]

theorem segments_congr {heap heap' : Heap} {l : List ℕ} (h : Segments heap l)
    (hl : ∀ a ∈ l, heap' a = heap a) : Segments heap' l := by
  refine ⟨doublyLinked_congr h.linked (fun a ha => ?_) fun a ha => ?_, h.nodup, h.ne_null,
    fun a ha => ?_⟩
  · rw [prevOf, hl a ha, prevOf]
  · rw [nextOf, hl a ha, nextOf]
  · rw [hl a ha]
    exact h.allocated a ha

theorem link_append {heap : Heap} {k : List ℕ} {z segment : ℕ}
    (h : Segments heap (k ++ [z])) (hf : fresh heap segment) (size : ℕ) :
    ∃ heap', link z segment (initSegment segment size heap) = some heap' ∧
      Segments heap' ((k ++ [z]) ++ [segment]) ∧
      ∀ c, c ∉ k ++ [z] → c ≠ segment → heap' c = heap c := by
  have hzmem : z ∈ k ++ [z] := List.mem_append_right _ (List.mem_singleton_self z)
  have hzs : z ≠ segment := by
    rintro rfl
    have := h.allocated z hzmem
    simp [hf.2] at this
  obtain ⟨heap', hl, hlinked⟩ := link_linked (initSegment segment size heap) hzs
    (by rw [init_outside hzs]; exact h.allocated z hzmem) (by rw [init_segment]; rfl)
  refine ⟨heap', hl, ?_, ?_⟩
  · have h' : Segments heap ((k ++ [z]) ++ []) := by rwa [List.append_nil]
    refine segments_insert h' hf hlinked.next_eq hlinked.prev_eq ?_ (fun b t hb => nomatch hb)
      ?_ ?_ ?_ ?_
    · rw [hlinked.next_of_ne segment hzs.symm, nextOf, init_segment]
      rfl
    · intro c hc _
      rw [hlinked.prev_of_ne c hc, prevOf, prevOf, init_outside hc]
    · intro c hc hcz
      rw [hlinked.next_of_ne c hcz, nextOf, nextOf, init_outside hc]
    · intro c hc
      rw [hlinked.isSome]
      by_cases hcs : c = segment
      · rw [hcs, init_segment]
        rfl
      · rwa [init_outside hcs]
    · rw [hlinked.isSome, init_segment]
      rfl
  · intro c hc hcs
    have hcz : c ≠ z := by
      rintro rfl
      exact hc hzmem
    rw [hlinked.outside c hcz hcs, init_outside hcs]

theorem link_splice {heap : Heap} {k t : List ℕ} {z b segment : ℕ}
    (h : Segments heap ((k ++ [z]) ++ b :: t)) (hf : fresh heap segment) (size : ℕ) :
    ∃ heap1 heap', link segment b (initSegment segment size heap) = some heap1 ∧
      link z segment heap1 = some heap' ∧ Segments heap' ((k ++ [z]) ++ segment :: b :: t) ∧
      ∀ c, c ∉ (k ++ [z]) ++ b :: t → c ≠ segment → heap' c = heap c := by
  have hzmem : z ∈ (k ++ [z]) ++ b :: t := by simp
  have hbmem : b ∈ (k ++ [z]) ++ b :: t := by simp
  have hout : ∀ c ∈ (k ++ [z]) ++ b :: t, c ≠ segment := by
    rintro c hc rfl
    have := h.allocated c hc
    simp [hf.2] at this
  have hzs := hout z hzmem
  have hbs := hout b hbmem
  have hzb : z ≠ b := (List.nodup_append.mp h.nodup).2.2 z (by simp) b List.mem_cons_self
  obtain ⟨heap1, hl1, hlinked1⟩ := link_linked (initSegment segment size heap) hbs.symm
    (by rw [init_segment]; rfl) (by rw [init_outside hbs]; exact h.allocated b hbmem)
  obtain ⟨heap', hl, hlinked⟩ := link_linked heap1 hzs
    (by rw [hlinked1.isSome, init_outside hzs]; exact h.allocated z hzmem)
    (by rw [hlinked1.isSome, init_segment]; rfl)
  refine ⟨heap1, heap', hl1, hl, ?_, ?_⟩
  · refine segments_insert h hf hlinked.next_eq hlinked.prev_eq ?_ ?_ ?_ ?_ ?_ ?_
    · rw [hlinked.next_of_ne segment hzs.symm, hlinked1.next_eq]
      rfl
    · intro b' t' he
      cases he
      rw [hlinked.prev_of_ne b hbs, hlinked1.prev_eq]
    · intro c hc hcb
      rw [hlinked.prev_of_ne c hc, hlinked1.prev_of_ne c hcb, prevOf, prevOf, init_outside hc]
    · intro c hc hcz
      rw [hlinked.next_of_ne c hcz, hlinked1.next_of_ne c hc, nextOf, nextOf, init_outside hc]
    · intro c hc
      rw [hlinked.isSome, hlinked1.isSome]
      by_cases hcs : c = segment
      · rw [hcs, init_segment]
        rfl
      · rwa [init_outside hcs]
    · rw [hlinked.isSome, hlinked1.isSome, init_segment]
      rfl
  · intro c hc hcs
    have hcz : c ≠ z := by
      rintro rfl
      exact hc hzmem
    have hcb : c ≠ b := by
      rintro rfl
      exact hc hbmem
    rw [hlinked.outside c hcz hcs, hlinked1.outside c hcs hcb, init_outside hcs]

end Libseff.SegmentLists
