import Libseff.ResumeGuards

namespace Libseff.CoroutineStacks

open LinkedLists TransitionRuns ShallowHandlers CoroutineMachine CoroutineRuns CoroutineSim
  CoroutineRefine ResumeGuards

/-- What belongs to a stack goes with it: a switch exchanges `pending`, which
belongs to the stack that runs, for what belongs to the one in the
`resume_point`. After an exit the stack that ran is lost. -/
def switch {α : Type*} (pending : α) (saved : Word → α) : Event → α × (Word → α)
  | some (.resume k _ _, _) | some (.perform k _ _, _) =>
    (saved k, Function.update saved k pending)
  | some (.exit k _, _) => (saved k, saved)
  | _ => (pending, saved)

variable {code : Code} {ndebug : Bool} {s s' : State} {a a' : Handlers Word Context}

inductive Kind (s s' : State) (act : Action) :
    Event → Prop
  | silent (hcur : s'.m.current_coroutine = s.m.current_coroutine)
      (htop : s'.m.stack_top = s.m.stack_top ∨ ∃ m, act = .user m ∧ s'.m.stack_top = m.stack_top) :
      Kind s s' act none
  | switch (o : CoroutineOp) (d : CoroutineDelivery) (hd : d.context = context s'.m)
      (hsaves : ∀ c, saves o = some c →
        c.current_coroutine = s.m.current_coroutine ∧ c.stack_top = s.m.stack_top) :
      Kind s s' act (some (o, some d))
  | init (k fn arg frame_size stack : Word) (hact : act = .init k fn arg frame_size stack)
      {e : Event} : Kind s s' act e
  | discard (k : Word) (hact : act = .discard k) {e : Event} : Kind s s' act e

theorem step_kind {act : Action}
    {e : Event} (hs : step code ndebug s act = some (s', e)) :
    Kind s s' act e := by
  have hcall : ∀ (o : CoroutineOp) (m : Machine), saves o = some (callContext m) →
      m.current_coroutine = s.m.current_coroutine → m.stack_top = s.m.stack_top →
      ∀ c, saves o = some c →
        c.current_coroutine = s.m.current_coroutine ∧ c.stack_top = s.m.stack_top := by
    intro o m ho hcur htop c hc
    cases ho.symm.trans hc
    exact ⟨hcur, htop⟩
  cases step_cases hs with
  | init k fn arg frame_size stack => exact .init k fn arg frame_size stack rfl
  | discard k => exact .discard k rfl
  | user m => exact .silent rfl (.inr ⟨m, rfl, rfl⟩)
  | performDefault | prelude => exact .silent rfl (.inl rfl)
  | resume | yield => exact .switch _ _ rfl (hcall _ s.m rfl rfl rfl)
  | perform _ _ _ hm =>
    subst hm
    exact .switch _ _ rfl (hcall _ _ rfl rfl rfl)
  | exit | throw | preludeReturn => exact .switch _ _ rfl (by simp [saves])

theorem status_of_group (h : Sim code s a) {x : Option Word} {g : Word} (hg : g ∈ group a x) :
    s.status g ≠ .unborn := by
  have hframe : ∀ {c}, (g, c) ∈ frames a x → s.status g ≠ .unborn := by
    intro c hmem
    rw [(h.waiting x g c hmem).2]
    simp
  cases x with
  | none =>
    obtain ⟨⟨g, c⟩, hmem, rfl⟩ := List.mem_map.mp hg
    exact hframe hmem
  | some k =>
    cases hk : a.captured k with
    | none => simp [group, hk] at hg
    | some p =>
      rw [group_some hk] at hg
      obtain hg | hg := List.mem_append.mp hg
      · obtain ⟨⟨g, c⟩, hmem, rfl⟩ := List.mem_map.mp hg
        refine hframe (c := c) ?_
        rw [frames_some hk]
        exact hmem
      · obtain rfl := List.mem_singleton.mp hg
        obtain hst | hst := (h.status g).mp (by rw [hk]; rfl)
        all_goals simp [hst]

theorem status_of_live (h : Sim code s a) {g : Word} {c : Context} (hlive : Live a g c) :
    s.status g ≠ .unborn := by
  obtain ⟨x, hmem⟩ | ⟨l, hl⟩ := hlive
  · exact status_of_group h (mem_group hmem)
  · refine status_of_group h (x := some g) ?_
    rw [group_some hl]
    exact List.mem_append_right _ (List.mem_singleton_self g)

theorem status_of_current (h : Sim code s a) (hne : s.m.current_coroutine ≠ NULL) :
    s.status s.m.current_coroutine ≠ .unborn := by
  refine status_of_group h (x := none) ?_
  rw [path_head h.stack] at hne ⊢
  cases hn : names a.stack with
  | nil =>
    rw [hn] at hne
    exact absurd rfl hne
  | cons b l =>
    rw [group, hn]
    exact List.mem_cons_self

theorem owner_of_live (h : Sim code s a) {g : Word} {c : Context} (hlive : Live a g c)
    (hne : c.current_coroutine ≠ NULL) :
    c.current_coroutine ≠ s.m.current_coroutine ∧ s.status c.current_coroutine ≠ .unborn := by
  have hgroup : c.current_coroutine ∈ (names a.stack).tail ∨
      ∃ k, c.current_coroutine ∈ group a (some k) := by
    obtain ⟨x, hmem⟩ | ⟨l, hl⟩ := hlive
    · have hparent : parent s.m g = c.current_coroutine :=
        congrArg Context.current_coroutine (h.waiting x g c hmem).1
      cases x with
      | none =>
        obtain hnull | htail := path_next h.stack (List.mem_map_of_mem hmem)
        · exact absurd (hparent.symm.trans hnull) hne
        · exact .inl (hparent ▸ htail)
      | some k =>
        cases hk : a.captured k with
        | none => simp [frames, hk] at hmem
        | some p =>
          rw [frames_some hk] at hmem
          refine .inr ⟨k, ?_⟩
          rw [group_some hk, ← hparent]
          obtain hself | htail :=
            path_next (h.captured k p.1 p.2 hk).2 (List.mem_map_of_mem hmem)
          · exact List.mem_append_right _ (List.mem_singleton.mpr hself)
          · exact List.mem_append_left _ (List.mem_of_mem_tail htail)
    · refine .inr ⟨g, ?_⟩
      rw [group_some hl, path_head (h.captured g l c hl).2]
      cases l <;> simp [names]
  have hstack := path_head h.stack
  obtain htail | ⟨k, hk⟩ := hgroup
  · refine ⟨?_, status_of_group h (x := none) (List.mem_of_mem_tail htail)⟩
    have hnodup : (names a.stack).Nodup := h.distinct.1 none
    cases hn : names a.stack with
    | nil => simp [hn] at htail
    | cons b l =>
      rw [hn] at htail hstack hnodup
      rw [hstack, List.headD_cons]
      intro he
      exact (List.nodup_cons.mp hnodup).1 (he ▸ htail)
  · refine ⟨fun he => ?_, status_of_group h hk⟩
    cases hn : names a.stack with
    | nil =>
      rw [hn] at hstack
      exact hne (he.trans hstack)
    | cons b l =>
      rw [hn, List.headD_cons] at hstack
      have hb : b ∈ group a none := by
        rw [group, hn]
        exact List.mem_cons_self
      rw [he, hstack] at hk
      exact h.distinct.2 none (some k) (by simp) hb hk

section Switch

variable {α : Type*} {pending : α} {saved : Word → α} {o : CoroutineOp} {d : CoroutineDelivery}

theorem switch_fst (happly : apply a o = some (a', some d)) :
    (switch pending saved (some (o, some d))).1 = saved (subject o) := by
  cases o with
  | create | discard => cases happly
  | resume | perform | exit => rfl

theorem switch_snd (happly : apply a o = some (a', some d)) (g : Word) :
    (switch pending saved (some (o, some d))).2 g =
      if g = subject o ∧ (saves o).isSome then pending else saved g := by
  cases o with
  | create | discard => cases happly
  | resume | perform => simp [switch, subject, saves, Function.update_apply]
  | exit => simp [switch, saves]

theorem switch_all {P : Word → Word → α → Prop} (hsim : Sim code s a)
    (hm : handlers.may a o) (ho : ∀ k, o ≠ .discard k) (happly : apply a o = some (a', some d))
    (hd : d.context = context s'.m)
    (hsaves : ∀ c, saves o = some c → c.current_coroutine = s.m.current_coroutine ∧
      c.stack_top = s.m.stack_top)
    (hrun : P s.m.current_coroutine s.m.stack_top pending)
    (hlive : ∀ g c, Live a g c → P c.current_coroutine c.stack_top (saved g)) :
    P s'.m.current_coroutine s'.m.stack_top (switch pending saved (some (o, some d))).1 ∧
      ∀ g c, Live a' g c →
        P c.current_coroutine c.stack_top ((switch pending saved (some (o, some d))).2 g) := by
  refine ⟨?_, fun g c hg => ?_⟩
  · have hnext := hlive _ _ (live_delivery happly)
    rw [hd] at hnext
    rw [switch_fst happly]
    exact hnext
  · rw [switch_snd happly]
    obtain ⟨hne, hold⟩ | ⟨rfl, hc⟩ := live_apply hsim.distinct hm ho happly hg
    · rw [if_neg fun he => hne he.1]
      exact hlive g c hold
    · rw [if_pos ⟨rfl, by rw [hc]; rfl⟩]
      obtain ⟨hcur, htop⟩ := hsaves c hc
      rw [hcur, htop]
      exact hrun

def onChain (a : Handlers Word Context) (pending : α) (saved : Word → α) : List α :=
  pending :: (names a.stack).map saved

def inGroup (a : Handlers Word Context) (saved : Word → α) (k : Word) : List α :=
  (group a (some k)).map saved

theorem onChain_switch (happly : apply a o = some (a', some d)) {x : α}
    (hx : x ∈ onChain a' (switch pending saved (some (o, some d))).1
      (switch pending saved (some (o, some d))).2) :
    x ∈ onChain a pending saved ∨ ∃ k v c, o = .resume k v c ∧ x ∈ inGroup a saved k := by
  have hold : ∀ g ∈ names a.stack, saved g ∈ onChain a pending saved := fun g hg =>
    List.mem_cons_of_mem _ (List.mem_map_of_mem hg)
  have hupdate : ∀ (k g : Word), g ∈ names a.stack ∨ g = k →
      Function.update saved k pending g ∈ onChain a pending saved := by
    intro k g hg
    by_cases hgk : g = k
    · subst hgk
      rw [Function.update_self]
      exact List.mem_cons_self
    · rw [Function.update_of_ne hgk]
      exact hold g (hg.resolve_right hgk)
  cases o with
  | create | discard => cases happly
  | resume k v c =>
    obtain ⟨p, hp, he⟩ := Option.map_eq_some_iff.mp happly
    cases he
    have hgroup : ∀ g ∈ names p.1 ++ [k], saved g ∈ inGroup a saved k := by
      intro g hg
      rw [inGroup, group_some hp]
      exact List.mem_map_of_mem hg
    obtain rfl | hx := List.mem_cons.mp hx
    · exact .inr ⟨k, v, c, rfl, hgroup k (by simp)⟩
    · obtain ⟨g, hg, rfl⟩ := List.mem_map.mp hx
      simp only [names, List.map_append, List.map_cons, List.mem_append, List.mem_cons] at hg
      simp only [switch]
      obtain hg | hg := hg
      · by_cases hgk : g = k
        · exact .inl (hupdate k g (.inr hgk))
        · rw [Function.update_of_ne hgk]
          exact .inr ⟨k, v, c, rfl, hgroup g (List.mem_append_left _ hg)⟩
      · exact .inl (hupdate k g hg.symm)
  | perform h y c =>
    obtain ⟨p, hp, he⟩ := Option.map_eq_some_iff.mp happly
    cases he
    have hstack := names_split hp
    obtain rfl | hx := List.mem_cons.mp hx
    · exact .inl (hold h (by rw [hstack]; simp))
    · obtain ⟨g, hg, rfl⟩ := List.mem_map.mp hx
      exact .inl (hupdate h g (.inl (by rw [hstack]; simp [hg])))
  | exit h y =>
    obtain ⟨p, hp, he⟩ := Option.map_eq_some_iff.mp happly
    cases he
    have hstack := names_split hp
    obtain rfl | hx := List.mem_cons.mp hx
    · exact .inl (hold h (by rw [hstack]; simp))
    · obtain ⟨g, hg, rfl⟩ := List.mem_map.mp hx
      exact .inl (hold g (by rw [hstack]; simp [hg]))

theorem inGroup_switch (hd : Distinct (group a)) (happly : apply a o = some (a', some d)) {k : Word}
    {x : α} (hx : x ∈ inGroup a' (switch pending saved (some (o, some d))).2 k) :
    x ∈ inGroup a saved k ∨ ∃ y c p, o = .perform k y c ∧ splitAt k a.stack = some p ∧
      (x = pending ∨ x ∈ (names p.1).map saved) := by
  obtain ⟨g, hg, rfl⟩ := List.mem_map.mp hx
  cases o with
  | create | discard => cases happly
  | resume j v c =>
    obtain ⟨p, hp, he⟩ := Option.map_eq_some_iff.mp happly
    cases he
    by_cases hkj : k = j
    · subst hkj
      rw [group_update_none] at hg
      cases hg
    · rw [group_update_of_ne a _ none (by simp) (by simpa using hkj)] at hg
      have hgj : g ≠ j := by
        rintro rfl
        refine hd.2 (some k) (some g) (by simpa using hkj) hg ?_
        rw [group_some hp]
        exact List.mem_append_right _ (List.mem_singleton_self g)
      simp only [switch, Function.update_of_ne hgj]
      exact .inl (List.mem_map_of_mem hg)
  | perform h y c =>
    obtain ⟨p, hp, he⟩ := Option.map_eq_some_iff.mp happly
    cases he
    by_cases hkh : k = h
    · subst hkh
      rw [group_update_some] at hg
      refine .inr ⟨y, c, p, rfl, hp, ?_⟩
      by_cases hgk : g = k
      · subst hgk
        exact .inl (Function.update_self ..)
      · simp only [switch, Function.update_of_ne hgk]
        exact .inr (List.mem_map_of_mem (by simpa [hgk] using hg))
    · rw [group_update_of_ne a _ _ (by simp) (by simpa using hkh)] at hg
      have hgh : g ≠ h := by
        rintro rfl
        exact (not_mem_of_split hd hp).2.2 k hg
      simp only [switch, Function.update_of_ne hgh]
      exact .inl (List.mem_map_of_mem hg)
  | exit h y =>
    obtain ⟨p, hp, he⟩ := Option.map_eq_some_iff.mp happly
    cases he
    exact .inl (List.mem_map_of_mem hg)

end Switch

end Libseff.CoroutineStacks
