import Libseff.CoroutineRuns
import Libseff.LinkedLists

namespace Libseff.CoroutineSim

open LinkedLists ShallowHandlers CoroutineMachine CoroutineRuns

def parent (m : Machine) (k : Word) : Word := (m.coroutines k).parent_coroutine

def Proper (code : Code) (c : Context) : Prop :=
  userCode code c.ip = false → c.r13 = c.current_coroutine ∧ c.current_coroutine ≠ NULL

/-- The machine keeps the frames and the resumptions of `a`: the context that
waits for a coroutine in its `resume_point` and its `parent_coroutine`, and the
context that a coroutine was left in, in its `resume_point` alone. -/
structure Sim (code : Code) (s : State) (a : Handlers Word Context) : Prop where
  distinct : Distinct (group a)
  null : s.status NULL = .unborn
  stack : Path (parent s.m) NULL s.m.current_coroutine (names a.stack)
  waiting : ∀ x g c, (g, c) ∈ frames a x → resumer s.m g = c ∧ s.status g = .active
  captured : ∀ k l c, a.captured k = some (l, c) →
    suspended s.m k = c ∧ Path (parent s.m) k c.current_coroutine (names l)
  status : ∀ k, (a.captured k).isSome ↔ s.status k = .fresh ∨ s.status k = .suspended
  proper_frames : ∀ x g c, (g, c) ∈ frames a x → Proper code c
  proper_captured : ∀ k l c, a.captured k = some (l, c) → Proper code c
  proper : Proper code (context s.m)
  entered : ∀ k c, s.entered k = some c → c.r13 = k ∧ k ≠ NULL

variable {code : Code} {s : State} {a : Handlers Word Context}

theorem proper_of_userCode {c : Context} (h : userCode code c.ip = true) : Proper code c := by
  intro hc
  rw [h] at hc
  cases hc

theorem resumer_congr {m m' : Machine} {g : Word} (h : m'.coroutines g = m.coroutines g) :
    resumer m' g = resumer m g := by
  rw [resumer, resumer, h]

theorem suspended_congr {m m' : Machine} {g : Word} (h : m'.coroutines g = m.coroutines g) :
    suspended m' g = suspended m g := by
  rw [suspended, suspended, h]

theorem ne_null_of_frame (h : Sim code s a) {x : Option Word} {g : Word} {c : Context}
    (hmem : (g, c) ∈ frames a x) : g ≠ NULL := by
  rintro rfl
  have hactive := (h.waiting x _ c hmem).2
  rw [h.null] at hactive
  cases hactive

theorem mem_names_of_reaches {m : Machine} {h : Word} {fuel : ℕ} {k : Word} {l : List Word}
    (hpath : Path (parent m) NULL k l) (hr : reaches m h fuel k = true) : h ∈ l := by
  induction fuel generalizing k l with
  | zero => cases hr
  | succ fuel ih =>
    simp only [reaches, Bool.and_eq_true, Bool.or_eq_true, decide_eq_true_eq] at hr
    obtain ⟨hne, hk⟩ := hr
    cases l with
    | nil => exact absurd hpath hne
    | cons b l =>
      obtain ⟨rfl, hpath⟩ := hpath
      obtain rfl | hr := hk
      · exact List.mem_cons_self
      · exact List.mem_cons_of_mem _ (ih hpath hr)

theorem reaches_of_mem {m : Machine} {h k : Word} {l : List Word}
    (hpath : Path (parent m) NULL k l) (hnull : NULL ∉ l) (hmem : h ∈ l) :
    ∃ fuel, reaches m h fuel k = true := by
  induction l generalizing k with
  | nil => cases hmem
  | cons b l ih =>
    obtain ⟨rfl, hpath⟩ := hpath
    obtain ⟨hne, hnull⟩ := not_or.mp (mt List.mem_cons.mpr hnull)
    obtain rfl | hmem := List.mem_cons.mp hmem
    · exact ⟨1, by simp [reaches, Ne.symm hne]⟩
    · obtain ⟨fuel, hreach⟩ := ih hpath hnull hmem
      have hreach : reaches m h fuel (m.coroutines k).parent_coroutine = true := hreach
      exact ⟨fuel + 1, by simp [reaches, Ne.symm hne, hreach]⟩

theorem mem_names_of_locateFrom {m : Machine} {effect : Word} {fuel : ℕ} {k h : Word}
    {l : List Word} (hpath : Path (parent m) NULL k l)
    (hl : locateFrom code m effect fuel k = some h) (hne : h ≠ NULL) : h ∈ l := by
  induction fuel generalizing k l with
  | zero => cases hl
  | succ fuel ih =>
    rw [locateFrom] at hl
    split at hl
    · rename_i hk
      cases hl
      exact absurd hk hne
    · rename_i hk
      obtain ⟨found, -, hl⟩ := Option.bind_eq_some_iff.mp hl
      cases l with
      | nil => exact absurd hpath hk
      | cons b l =>
        obtain ⟨rfl, hpath⟩ := hpath
        cases found with
        | true =>
          cases hl
          exact List.mem_cons_self
        | false => exact List.mem_cons_of_mem _ (ih hpath hl)

theorem mem_names_of_locate {m : Machine} {effect : Word} {fuel : ℕ} {h : Word} {l : List Word}
    (hpath : Path (parent m) NULL m.current_coroutine l)
    (hl : seffLocateHandler code m fuel effect = some h) (hne : h ≠ NULL) : h ∈ l := by
  rw [seffLocateHandler] at hl
  split at hl
  · exact mem_names_of_locateFrom hpath hl hne
  · cases hl
    cases l with
    | nil => exact absurd hpath hne
    | cons b l => exact hpath.1 ▸ List.mem_cons_self

theorem sim_user (h : Sim code s a) {m : Machine} (hco : m.coroutines = s.m.coroutines)
    (hcur : m.current_coroutine = s.m.current_coroutine) (hproper : Proper code (context m)) :
    Sim code { s with m := m } a where
  distinct := h.distinct
  null := h.null
  stack := by
    have hparent : parent m = parent s.m := funext fun k => by rw [parent, parent, hco]
    rw [hparent, hcur]
    exact h.stack
  waiting x g c hmem := by
    rw [resumer_congr (m := s.m) (congrFun hco g)]
    exact h.waiting x g c hmem
  captured k l c hk := by
    have hparent : parent m = parent s.m := funext fun k => by rw [parent, parent, hco]
    rw [suspended_congr (m := s.m) (congrFun hco k), hparent]
    exact h.captured k l c hk
  status := h.status
  proper_frames := h.proper_frames
  proper_captured := h.proper_captured
  proper := hproper
  entered := h.entered

theorem parent_yield (m : Machine) : parent (seffYield m) = parent m :=
  funext fun k => parent_seffYield m k

theorem parent_exit (ndebug : Bool) (m : Machine) : parent (seffExit ndebug m) = parent m :=
  funext fun k => parent_seffExit ndebug m k

theorem path_split {next : Word → Word} {k h : Word}
    {p : List (Word × Context) × Context × List (Word × Context)} {l : List (Word × Context)}
    (hp : splitAt h l = some p) (hpath : Path next NULL k (names l)) :
    Path next h k (names p.1) ∧ Path next NULL (next h) (names p.2.2) := by
  rw [names_split hp, List.append_assoc, path_append] at hpath
  exact ⟨hpath.1, hpath.2.2⟩

theorem frame_of_split {h : Word} {p : List (Word × Context) × Context × List (Word × Context)}
    (hp : splitAt h a.stack = some p) : (h, p.2.1) ∈ frames a none := by
  rw [frames, splitAt_eq hp]
  exact List.mem_append_right _ List.mem_cons_self

theorem sim_op {s' : State} {a' : Handlers Word Context} {o : CoroutineOp}
    {d : Option CoroutineDelivery} (h : Sim code s a) (hd : Distinct (group a'))
    (happly : apply a o = some (a', d)) {k : Word} (hnull : k ≠ NULL)
    (ho : ∀ g v c, o = .resume g v c → g = k) (hk : ∀ j, j ≠ k → k ∉ group a (some j))
    (hother : ∀ g, g ≠ k →
      s'.m.coroutines g = s.m.coroutines g ∧ s'.status g = s.status g ∧
        a'.captured g = a.captured g)
    (hstack : Path (parent s'.m) NULL s'.m.current_coroutine (names a'.stack))
    (hwaiting : ∀ x c, (k, c) ∈ frames a' x →
      resumer s'.m k = c ∧ s'.status k = .active ∧ Proper code c)
    (hcaptured : ∀ l c, a'.captured k = some (l, c) →
      suspended s'.m k = c ∧ Path (parent s'.m) k c.current_coroutine (names l) ∧ Proper code c)
    (hstatus : (a'.captured k).isSome ↔ s'.status k = .fresh ∨ s'.status k = .suspended)
    (hproper : Proper code (context s'.m)) (hentered : s'.entered = s.entered) :
    Sim code s' a' := by
  have hold : ∀ x g c, (g, c) ∈ frames a' x → g ≠ k → ∃ y, (g, c) ∈ frames a y := by
    intro x g c hg hgk
    obtain hy | ⟨v, he⟩ := mem_frames_apply happly hg
    · exact hy
    · exact absurd (ho g v c he) hgk
  refine ⟨hd, ?_, hstack, ?_, ?_, ?_, ?_, ?_, hproper, hentered ▸ h.entered⟩
  · rw [(hother NULL (Ne.symm hnull)).2.1, h.null]
  · intro x g c hg
    by_cases hgk : g = k
    · subst hgk
      exact ⟨(hwaiting x c hg).1, (hwaiting x c hg).2.1⟩
    · obtain ⟨y, hy⟩ := hold x g c hg hgk
      obtain ⟨hco, hst, -⟩ := hother g hgk
      rw [resumer_congr hco, hst]
      exact h.waiting y g c hy
  · intro j l c hj
    by_cases hjk : j = k
    · subst hjk
      exact ⟨(hcaptured l c hj).1, (hcaptured l c hj).2.1⟩
    · obtain ⟨hco, -, hcap⟩ := hother j hjk
      rw [hcap] at hj
      obtain ⟨hsus, hpath⟩ := h.captured j l c hj
      rw [suspended_congr hco]
      refine ⟨hsus, path_congr hpath fun g hg => ?_⟩
      have hgk : g ≠ k := by
        rintro rfl
        have hout := hk j hjk
        rw [group_some hj] at hout
        exact hout (List.mem_append_left _ hg)
      rw [parent, parent, (hother g hgk).1]
  · intro j
    by_cases hjk : j = k
    · subst hjk
      exact hstatus
    · obtain ⟨-, hst, hcap⟩ := hother j hjk
      rw [hcap, hst]
      exact h.status j
  · intro x g c hg
    by_cases hgk : g = k
    · subst hgk
      exact (hwaiting x c hg).2.2
    · obtain ⟨y, hy⟩ := hold x g c hg hgk
      exact h.proper_frames y g c hy
  · intro j l c hj
    by_cases hjk : j = k
    · subst hjk
      exact (hcaptured l c hj).2.2
    · rw [(hother j hjk).2.2] at hj
      exact h.proper_captured j l c hj

theorem sim_yield (h : Sim code s a) (hret : userCode code (s.m.memory s.m.rsp) = true)
    (hmem : s.m.rdi ∈ names a.stack) : ∃ a',
    apply a (.perform s.m.rdi (s.m.rsi, s.m.rdx) (callContext s.m)) =
      some (a', request (seffYield s.m)) ∧ Sim code (yieldStep s s.m).1 a' := by
  obtain ⟨p, hp⟩ := splitAt_of_mem hmem
  have hframe := frame_of_split hp
  obtain ⟨hres, hactive⟩ := h.waiting none _ _ hframe
  obtain ⟨hseg, hrest⟩ := path_split hp h.stack
  have hcur : (seffYield s.m).current_coroutine = parent s.m s.m.rdi :=
    congrArg Context.current_coroutine (context_seffYield s.m)
  have happly : apply a (.perform s.m.rdi (s.m.rsi, s.m.rdx) (callContext s.m)) =
      some (⟨p.2.2, Function.update a.captured s.m.rdi (some (p.1, callContext s.m))⟩,
        request (seffYield s.m)) := by
    rw [apply, hp, request, context_seffYield, hres, (result_seffYield s.m).1,
      (result_seffYield s.m).2]
    rfl
  have hd := distinct_apply (o := (.perform s.m.rdi (s.m.rsi, s.m.rdx) (callContext s.m) :
    CoroutineOp)) h.distinct trivial happly
  refine ⟨_, happly, sim_op h hd happly (ne_null_of_frame h hframe) nofun
    (fun j _ => (not_mem_of_split h.distinct hp).2.2 j) (fun g hg => ?_) ?_ ?_ ?_ ?_ ?_ rfl⟩
  · exact ⟨coroutines_seffYield hg, Function.update_of_ne hg .., Function.update_of_ne hg ..⟩
  · simp only [yieldStep, hcur, parent_yield]
    exact hrest
  · exact fun x c hg => absurd hg (not_frame_of_captured hd (Function.update_self ..))
  · intro l c hc
    simp only [Function.update_self, Option.some.injEq, Prod.mk.injEq] at hc
    obtain ⟨rfl, rfl⟩ := hc
    refine ⟨suspended_seffYield s.m, ?_, proper_of_userCode hret⟩
    simp only [yieldStep, parent_yield]
    exact hseg
  · simp [yieldStep]
  · simp only [yieldStep, context_seffYield, hres]
    exact h.proper_frames none _ _ hframe

theorem sim_exit (ndebug : Bool) (h : Sim code s a) (hmem : s.m.rdi ∈ names a.stack) : ∃ a',
    apply a (.exit s.m.rdi (s.m.rsi, s.m.rdx)) = some (a', request (seffExit ndebug s.m)) ∧
      Sim code (exitStep ndebug s s.m).1 a' := by
  obtain ⟨p, hp⟩ := splitAt_of_mem hmem
  have hframe := frame_of_split hp
  obtain ⟨hres, hactive⟩ := h.waiting none _ _ hframe
  obtain ⟨-, hrest⟩ := path_split hp h.stack
  obtain ⟨-, hnot, hout⟩ := not_mem_of_split h.distinct hp
  have hcur : (seffExit ndebug s.m).current_coroutine = parent s.m s.m.rdi :=
    congrArg Context.current_coroutine (context_seffExit ndebug s.m)
  have happly : apply a (.exit s.m.rdi (s.m.rsi, s.m.rdx)) =
      some (⟨p.2.2, a.captured⟩, request (seffExit ndebug s.m)) := by
    rw [apply, hp, request, context_seffExit, hres, (result_seffExit ndebug s.m).1,
      (result_seffExit ndebug s.m).2]
    rfl
  have hd := distinct_apply (o := (.exit s.m.rdi (s.m.rsi, s.m.rdx) : CoroutineOp)) h.distinct
    trivial happly
  have hnone : a.captured s.m.rdi = none := by
    cases hc : a.captured s.m.rdi with
    | none => rfl
    | some q => exact absurd hframe (not_frame_of_captured h.distinct hc)
  refine ⟨_, happly, sim_op h hd happly (ne_null_of_frame h hframe) nofun (fun j _ => hout j)
    (fun g hg => ?_) ?_ ?_ ?_ ?_ ?_ rfl⟩
  · exact ⟨coroutines_seffExit ndebug hg, Function.update_of_ne hg .., rfl⟩
  · simp only [exitStep, hcur, parent_exit]
    exact hrest
  · intro x c hg
    cases x with
    | none => exact absurd (List.mem_map_of_mem hg) hnot
    | some j =>
      have hmem' : s.m.rdi ∈ group a (some j) := mem_group (x := some j) hg
      exact absurd hmem' (hout j)
  · intro l c hc
    rw [hnone] at hc
    cases hc
  · simp [exitStep, hnone]
  · simp only [exitStep, context_seffExit, hres]
    exact h.proper_frames none _ _ hframe

theorem sim_resume (h : Sim code s a) (hret : userCode code (s.m.memory s.m.rsp) = true)
    (hstatus : s.status s.m.rdi = .fresh ∨ s.status s.m.rdi = .suspended) : ∃ a',
    apply a (.resume s.m.rdi s.m.rsi (callContext s.m)) =
        some (a', value (seffResumeUnwrapped s.m)) ∧
      Sim code ⟨seffResumeUnwrapped s.m, Function.update s.status s.m.rdi .active, s.entered⟩
        a' := by
  obtain ⟨⟨l, c⟩, hc⟩ := Option.isSome_iff_exists.mp ((h.status s.m.rdi).mpr hstatus)
  obtain ⟨hsus, hpath⟩ := h.captured _ l c hc
  have hnot := fun x c' => not_frame_of_captured h.distinct hc (x := x) (c := c')
  have hself : s.m.rdi ∈ group a (some s.m.rdi) := by
    rw [group_some hc]
    exact List.mem_append_right _ (List.mem_singleton_self _)
  have hnull : s.m.rdi ≠ NULL := by
    intro he
    rw [he, h.null] at hstatus
    simp at hstatus
  have hcur : (seffResumeUnwrapped s.m).current_coroutine = c.current_coroutine :=
    congrArg Context.current_coroutine ((context_seffResumeUnwrapped s.m).trans hsus)
  have hparent : parent (seffResumeUnwrapped s.m) s.m.rdi = s.m.current_coroutine :=
    congrArg Context.current_coroutine (resumer_seffResumeUnwrapped s.m)
  have hparents : ∀ g, g ≠ s.m.rdi → parent (seffResumeUnwrapped s.m) g = parent s.m g := by
    intro g hg
    rw [parent, parent, coroutines_seffResumeUnwrapped hg]
  have happly : apply a (.resume s.m.rdi s.m.rsi (callContext s.m)) =
      some (⟨l ++ (s.m.rdi, callContext s.m) :: a.stack, Function.update a.captured s.m.rdi none⟩,
        value (seffResumeUnwrapped s.m)) := by
    rw [apply, hc, value, context_seffResumeUnwrapped, hsus, result_seffResumeUnwrapped]
    rfl
  have hd := distinct_apply (o := (.resume s.m.rdi s.m.rsi (callContext s.m) : CoroutineOp))
    h.distinct trivial happly
  refine ⟨_, happly, sim_op h hd happly hnull (fun g v c he => by cases he; rfl)
    (fun j hj hmem => h.distinct.2 (some s.m.rdi) (some j) (fun he => hj (Option.some.inj he).symm)
      hself hmem) (fun g hg => ?_) ?_ ?_ ?_ ?_ ?_ rfl⟩
  · exact ⟨coroutines_seffResumeUnwrapped hg, Function.update_of_ne hg ..,
      Function.update_of_ne hg ..⟩
  · have hl : ∀ g ∈ names l, g ≠ s.m.rdi := by
      rintro g hg rfl
      obtain ⟨⟨g, c'⟩, hmem, rfl⟩ := List.mem_map.mp hg
      refine hnot (some s.m.rdi) c' ?_
      rw [frames, hc]
      exact hmem
    have hs : ∀ g ∈ names a.stack, g ≠ s.m.rdi := by
      rintro g hg rfl
      obtain ⟨⟨g, c'⟩, hmem, rfl⟩ := List.mem_map.mp hg
      exact hnot none c' hmem
    have hnames : names (l ++ (s.m.rdi, callContext s.m) :: a.stack) =
        names l ++ s.m.rdi :: names a.stack := by
      simp [names]
    simp only [hcur, hnames, path_append, List.headD_cons, LinkedLists.Path, hparent, true_and]
    exact ⟨path_congr hpath fun g hg => hparents g (hl g hg),
      path_congr h.stack fun g hg => hparents g (hs g hg)⟩
  · intro x c' hmem
    obtain ⟨y, hy⟩ | ⟨v, he⟩ := mem_frames_apply happly hmem
    · exact absurd hy (hnot y c')
    · cases he
      exact ⟨resumer_seffResumeUnwrapped s.m, Function.update_self .., proper_of_userCode hret⟩
  · intro l' c' hc'
    simp at hc'
  · simp
  · simp only [context_seffResumeUnwrapped, hsus]
    exact h.proper_captured _ l c hc

theorem not_mem_group (h : Sim code s a) {k : Word} (hactive : s.status k ≠ .active)
    (hfresh : s.status k ≠ .fresh) (hsus : s.status k ≠ .suspended) (x : Option Word) :
    k ∉ group a x := by
  intro hmem
  cases x with
  | none =>
    obtain ⟨⟨k, c⟩, hf, rfl⟩ := List.mem_map.mp hmem
    exact hactive (h.waiting none k c hf).2
  | some j =>
    cases hj : a.captured j with
    | none => simp [group, hj] at hmem
    | some p =>
      rw [group_some hj, List.mem_append, List.mem_singleton] at hmem
      obtain hf | rfl := hmem
      · obtain ⟨⟨k, c⟩, hf', rfl⟩ := List.mem_map.mp hf
        refine hactive (h.waiting (some j) k c ?_).2
        rw [frames, hj]
        exact hf'
      · have hcap := (h.status k).mp (by rw [hj]; rfl)
        exact hcap.elim hfresh hsus

theorem sim_init (h : Sim code s a) {k : Word} (hnull : k ≠ NULL) (hk : s.status k = .unborn)
    (fn arg frame_size stack : Word) : ∃ a', (∀ x, k ∉ group a x) ∧
    apply a (.create k (startContext code k fn arg frame_size stack) : CoroutineOp) =
      some (a', none) ∧
      Sim code ⟨seffCoroutineInitSized code k fn arg frame_size stack s.m,
        Function.update s.status k .fresh, s.entered⟩ a' := by
  have hnew := not_mem_group h (by simp [hk]) (by simp [hk])
    (by simp [hk] : s.status k ≠ .suspended)
  have hparent : parent (seffCoroutineInitSized code k fn arg frame_size stack s.m) = parent s.m :=
    funext fun g => parent_init code k fn arg frame_size stack s.m g
  let c := startContext code k fn arg frame_size stack
  have happly : apply a (.create k c : CoroutineOp) =
      some ({ a with captured := Function.update a.captured k (some ([], c)) }, none) := rfl
  have hd := distinct_apply (o := (.create k c : CoroutineOp)) h.distinct hnew happly
  refine ⟨_, hnew, happly, sim_op h hd happly hnull nofun (fun j _ => hnew (some j))
    (fun g hg => ?_) ?_ ?_ ?_ ?_ h.proper rfl⟩
  · exact ⟨Function.update_of_ne hg .., Function.update_of_ne hg .., Function.update_of_ne hg ..⟩
  · simp only [hparent]
    exact h.stack
  · exact fun x c' hg => absurd hg (not_frame_of_captured hd (Function.update_self ..))
  · intro l c' hc'
    simp only [Function.update_self, Option.some.injEq, Prod.mk.injEq] at hc'
    obtain ⟨rfl, rfl⟩ := hc'
    exact ⟨suspended_init .., rfl, fun _ => ⟨rfl, hnull⟩⟩
  · simp

theorem sim_discard (h : Sim code s a) {k : Word}
    (hk : s.status k = .fresh ∨ s.status k = .suspended) : ∃ a',
    apply a (.discard k : CoroutineOp) = some (a', none) ∧
      Sim code { s with status := Function.update s.status k .discarded } a' := by
  obtain ⟨⟨l, c⟩, hc⟩ := Option.isSome_iff_exists.mp ((h.status k).mpr hk)
  have hself : k ∈ group a (some k) := by
    rw [group_some hc]
    exact List.mem_append_right _ (List.mem_singleton_self _)
  have hnull : k ≠ NULL := by
    rintro rfl
    rw [h.null] at hk
    simp at hk
  have happly : apply a (.discard k : CoroutineOp) =
      some ({ a with captured := Function.update a.captured k none }, none) := rfl
  have hd := distinct_apply (o := (.discard k : CoroutineOp)) h.distinct trivial happly
  refine ⟨_, happly, sim_op h hd happly hnull nofun (fun j hj hmem => h.distinct.2 (some k) (some j)
    (fun he => hj (Option.some.inj he).symm) hself hmem) (fun g hg => ?_) h.stack ?_ ?_ ?_ h.proper
    rfl⟩
  · exact ⟨rfl, Function.update_of_ne hg .., Function.update_of_ne hg ..⟩
  · intro x c' hmem
    obtain ⟨y, hy⟩ | ⟨v, he⟩ := mem_frames_apply happly hmem
    · exact absurd hy (not_frame_of_captured h.distinct hc)
    · cases he
  · intro l' c' hc'
    simp at hc'
  · simp

end Libseff.CoroutineSim
