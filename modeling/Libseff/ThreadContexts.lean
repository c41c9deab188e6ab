import Libseff.CoroutineContexts
import Libseff.ThreadHandlers

namespace Libseff.ThreadContexts

open LinkedLists TransitionRuns ShallowHandlers CoroutineMachine CoroutineRuns CoroutineSim
  CoroutineRefine CoroutineHandlers CoroutineContexts ThreadHandlers

variable {τ : Type}

structure Registers where
  rax : Word
  rbx : Word
  rcx : Word
  rdx : Word
  rsi : Word
  rdi : Word
  rbp : Word
  rsp : Word
  r9 : Word
  r10 : Word
  r11 : Word
  r12 : Word
  r13 : Word
  r14 : Word
  r15 : Word
  rip : Word
  stack_top : Word
  current_coroutine : Word
  system_stack : Word

def registers (m : Machine) : Registers :=
  ⟨m.rax, m.rbx, m.rcx, m.rdx, m.rsi, m.rdi, m.rbp, m.rsp, m.r9, m.r10, m.r11, m.r12, m.r13,
    m.r14, m.r15, m.rip, m.stack_top, m.current_coroutine, m.system_stack⟩

def machine (r : Registers) (memory : Word → Word) (coroutines : Word → Coroutine) : Machine :=
  ⟨r.rax, r.rbx, r.rcx, r.rdx, r.rsi, r.rdi, r.rbp, r.rsp, r.r9, r.r10, r.r11, r.r12, r.r13,
    r.r14, r.r15, r.rip, r.stack_top, r.current_coroutine, r.system_stack, memory, coroutines⟩

/-- The threads of a process, with the memory and the coroutine objects that they
share. -/
structure Process (τ : Type) where
  registers : τ → Registers
  memory : Word → Word
  coroutines : Word → Coroutine
  status : Word → Status
  entered : Word → Option Context

def thread (s : Process τ) (t : τ) : State :=
  ⟨machine (s.registers t) s.memory s.coroutines, s.status, s.entered⟩

def observedAt (tr : List (τ × Event)) : List (τ × CoroutineOp × Option CoroutineDelivery) :=
  tr.filterMap fun p => p.2.map fun q => (p.1, q)

section Steps

variable [DecidableEq τ]

def after (s : Process τ) (t : τ) (u : State) : Process τ :=
  ⟨Function.update s.registers t (registers u.m), u.m.memory, u.m.coroutines, u.status, u.entered⟩

/-- Every thread starts outside of the coroutines. A coroutine may be resumed by
any of them. -/
def processSystem (τ : Type) [DecidableEq τ] (code : Code) (ndebug : Bool) :
    System (Process τ) (τ × Action) (τ × Event) where
  init s := ∀ t, (coroutineSystem code ndebug).init (thread s t)
  may s p := may code (thread s p.1) p.2
  step s p := (step code ndebug (thread s p.1) p.2).map fun q => (after s p.1 q.1, p.1, q.2)

variable {code : Code} {ndebug : Bool} {s : Process τ} {t : τ} {s' : State}
  {a : Threads τ Word Context} {act : Action} {e : Event}

@[simp]
theorem thread_after_self (s : Process τ) (t : τ) (u : State) : thread (after s t u) t = u := by
  simp [thread, after, machine, registers]

theorem thread_after_of_ne (s : Process τ) {t u : τ} (hu : u ≠ t) (s' : State) :
    thread (after s t s') u =
      ⟨machine (s.registers u) s'.m.memory s'.m.coroutines, s'.status, s'.entered⟩ := by
  simp [thread, after, hu]

omit [DecidableEq τ] in
theorem observedAt_append (tr : List (τ × Event)) (t : τ) (e : Event) :
    observedAt (tr ++ [(t, e)]) = observedAt tr ++ (e.map fun q => (t, q)).toList := by
  cases e <;> simp [observedAt]

omit [DecidableEq τ] in
theorem create_of_event {s s' : State} {k : Word} {c : Context} {d : Option CoroutineDelivery}
    (hs : step code ndebug s act = some (s', some (.create k c, d))) :
    ∃ fn arg frame_size stack, act = .init k fn arg frame_size stack := by
  generalize he : (some (.create k c, d) : Event) = e at hs
  cases step_cases hs with
  | init k fn arg frame_size stack =>
    cases he
    exact ⟨fn, arg, frame_size, stack, rfl⟩
  | user | resume | yield | exit | performDefault | perform | throw | discard | prelude
  | preludeReturn => cases he

omit [DecidableEq τ] in
theorem unchanged {s s' : State} (hs : Transition code ndebug s s' e) (g : Word)
    (hg : ∀ o d, e = some (o, d) → g ≠ subject o) :
    s'.m.coroutines g = s.m.coroutines g ∧ s'.status g = s.status g := by
  cases hs with
  | silent hco hst => exact ⟨congrFun hco g, congrFun hst g⟩
  | create k =>
    have hk : g ≠ k := hg _ _ rfl
    exact ⟨Function.update_of_ne hk .., Function.update_of_ne hk ..⟩
  | resume =>
    have hk : g ≠ s.m.rdi := hg _ _ rfl
    exact ⟨coroutines_seffResumeUnwrapped hk, Function.update_of_ne hk ..⟩
  | yield m hco =>
    have hk : g ≠ m.rdi := hg _ _ rfl
    exact ⟨(coroutines_seffYield hk).trans (congrFun hco g), Function.update_of_ne hk ..⟩
  | exit m hco =>
    have hk : g ≠ m.rdi := hg _ _ rfl
    exact ⟨(coroutines_seffExit ndebug hk).trans (congrFun hco g), Function.update_of_ne hk ..⟩
  | discard k => exact ⟨rfl, Function.update_of_ne (hg _ _ rfl) ..⟩

omit [DecidableEq τ] in
theorem active_of_stack (h : ∀ t, Sim code (thread s t) (view a t)) {g : Word}
    (hg : g ∈ names (a.stack t)) : s.status g = .active := by
  obtain ⟨⟨g, c⟩, hf, rfl⟩ := List.mem_map.mp hg
  exact ((h t).waiting none g c hf).2

omit [DecidableEq τ] in
theorem subject_elsewhere (h : ∀ t, Sim code (thread s t) (view a t)) (hapart : Apart a)
    (hm : may code (thread s t) act) {o : CoroutineOp} {d : Option CoroutineDelivery}
    (hs : step code ndebug (thread s t) act = some (s', some (o, d)))
    {b : Handlers Word Context} (happly : apply (view a t) o = some (b, d)) {u : τ} (hu : u ≠ t)
    {g : Word} (hg : g ∈ names (a.stack u)) : g ≠ subject o := by
  have hactive := active_of_stack h hg
  rintro rfl
  cases o with
  | create k c =>
    obtain ⟨fn, arg, frame_size, stack, rfl⟩ := create_of_event hs
    cases hactive.symm.trans hm.2
  | resume k v c =>
    obtain ⟨p, hp, -⟩ := Option.map_eq_some_iff.mp happly
    refine (hapart.distinct u).2 none (some k) nofun hg ?_
    rw [group_some (a := view a u) hp]
    exact List.mem_append_right _ (List.mem_singleton_self k)
  | perform k x c =>
    obtain ⟨p, hp, -⟩ := Option.map_eq_some_iff.mp happly
    exact hapart.disjoint u t hu hg (mem_group_of_split hp)
  | exit k x =>
    obtain ⟨p, hp, -⟩ := Option.map_eq_some_iff.mp happly
    exact hapart.disjoint u t hu hg (mem_group_of_split hp)
  | discard k =>
    obtain rfl := discard_of_event hs
    obtain hst | hst := hm
    · cases hactive.symm.trans hst
    · cases hactive.symm.trans hst

theorem sim_other {u : τ} (hu : Sim code (thread s u) (view a u)) {b : Handlers Word Context}
    (ht : Sim code s' b) (hut : u ≠ t)
    (hdisj : ∀ k, (names (a.stack u)).Disjoint (group b (some k)))
    (hsame : ∀ g ∈ names (a.stack u),
      s'.m.coroutines g = s.coroutines g ∧ s'.status g = s.status g) :
    Sim code (thread (after s t s') u) ⟨a.stack u, b.captured⟩ := by
  rw [thread_after_of_ne s hut]
  refine ⟨distinct_restack ht.distinct (hu.distinct.1 none) hdisj, ht.null, ?_, ?_, ht.captured,
    ht.status, ?_, ht.proper_captured, hu.proper, ht.entered⟩
  · refine path_congr hu.stack fun g hg => ?_
    exact congrArg Coroutine.parent_coroutine (hsame g hg).1
  · intro x g c hmem
    cases x with
    | none =>
      obtain ⟨hco, hst⟩ := hsame g (List.mem_map_of_mem (f := Prod.fst) hmem)
      obtain ⟨hres, hactive⟩ := hu.waiting none g c hmem
      exact ⟨(resumer_congr hco).trans hres, hst.trans hactive⟩
    | some k => exact ht.waiting (some k) g c hmem
  · intro x g c hmem
    cases x with
    | none => exact hu.proper_frames none g c hmem
    | some k => exact ht.proper_frames (some k) g c hmem

def ThreadPerforms (a : Threads τ Word Context) (t : τ) (e : Event) (a' : Threads τ Word Context) :
    Prop :=
  match e with
  | none => a' = a
  | some (o, d) => (∀ k c, o = .create k c → ∀ u x, k ∉ group (view a u) x) ∧
    ∃ b, apply (view a t) o = some (b, d) ∧ a' = put a t b

theorem run_performs {os : List (τ × CoroutineOp × Option CoroutineDelivery)}
    {a' : Threads τ Word Context}
    (h : Run (threadHandlers τ Word Context (Word × Word) Word) os a)
    (hp : ThreadPerforms a t e a') :
    Run (threadHandlers τ Word Context (Word × Word) Word)
      (os ++ (e.map fun q => (t, q)).toList) a' := by
  cases e with
  | none =>
    obtain rfl := hp
    simpa using h
  | some e =>
    obtain ⟨o, d⟩ := e
    obtain ⟨hcreate, b, happly, rfl⟩ := hp
    refine Run.next h (a := (t, o)) ?_ ?_
    · cases o with
      | create k c => exact hcreate k c rfl
      | resume | perform | exit | discard => trivial
    · simp [threadHandlers, happly]

theorem process_step (h : ∀ t, Sim code (thread s t) (view a t)) (hapart : Apart a)
    (hm : may code (thread s t) act)
    (hs : step code ndebug (thread s t) act = some (s', e)) :
    ∃ a', (∀ u, Sim code (thread (after s t s') u) (view a' u)) ∧ ThreadPerforms a t e a' := by
  obtain ⟨b, hsim, hperf⟩ := sim_step (h t) hm hs
  have hmove := step_transition hs
  cases e with
  | none =>
    obtain rfl := hperf
    refine ⟨a, fun u => ?_, rfl⟩
    by_cases hu : u = t
    · subst hu
      rwa [thread_after_self]
    · refine sim_other (h u) hsim hu (fun k => (hapart.distinct u).2 none (some k) nofun) ?_
      exact fun g _ => unchanged hmove g nofun
  | some e =>
    obtain ⟨o, d⟩ := e
    obtain ⟨-, happly⟩ := hperf
    have hcreate : ∀ k c, o = .create k c → ∀ u x, k ∉ group (view a u) x := by
      rintro k c rfl u x
      obtain ⟨fn, arg, frame_size, stack, rfl⟩ := create_of_event hs
      have hunborn : s.status k = .unborn := hm.2
      exact not_mem_group (h u) (fun he => by cases hunborn.symm.trans he)
        (fun he => by cases hunborn.symm.trans he) (fun he => by cases hunborn.symm.trans he) x
    refine ⟨put a t b, fun u => ?_, hcreate, b, happly, rfl⟩
    by_cases hu : u = t
    · subst hu
      rwa [thread_after_self, view_put_self]
    · rw [view_put_of_ne a hu]
      refine sim_other (h u) hsim hu (fun k => hapart.other hcreate happly hu (some k)) ?_
      intro g hg
      refine unchanged hmove g fun o' d' he => ?_
      cases he
      exact subject_elsewhere h hapart hm hs happly hu hg

/-- Every run of the threads is a run of the handlers on as many threads. -/
theorem process_refines {tr : List (τ × Event)}
    (h : Run (processSystem τ code ndebug) tr s) :
    ∃ a, Run (threadHandlers τ Word Context (Word × Word) Word) (observedAt tr) a ∧
      ∀ t, Sim code (thread s t) (view a t) := by
  refine Run.invariant (fun tr s =>
    ∃ a, Run (threadHandlers τ Word Context (Word × Word) Word) (observedAt tr) a ∧
      ∀ t, Sim code (thread s t) (view a t)) ?_ ?_ h
  · exact fun s hinit => ⟨_, Run.start rfl, fun t => sim_start (hinit t)⟩
  · rintro tr s ⟨t, act⟩ s' ⟨t', e⟩ ⟨a, hrun, hsim⟩ hm hs
    obtain ⟨⟨u, e'⟩, hstep, he⟩ := Option.map_eq_some_iff.mp hs
    cases he
    obtain ⟨a', hsim', hperf⟩ := process_step hsim (run_traced hrun).1 hm hstep
    refine ⟨a', ?_, hsim'⟩
    rw [observedAt_append]
    exact run_performs hrun hperf

theorem process_left {tr : List (τ × Event)} (h : Run (processSystem τ code ndebug) tr s) :
    ∀ t, Left code (together (observedAt tr)) (thread s t) := by
  refine Run.invariant (fun tr s => ∀ t, Left code (together (observedAt tr)) (thread s t)) ?_ ?_ h
  · intro s hinit t
    exact run_left (Run.start (hinit t))
  · rintro tr s ⟨t, act⟩ s' ⟨t', e⟩ hleft hm hs u
    obtain ⟨⟨s', e'⟩, hstep, he⟩ := Option.map_eq_some_iff.mp hs
    cases he
    have hnext := left_step (hleft t) (step_transition hstep)
    have htogether : together (observedAt (tr ++ [(t, e')])) =
        together (observedAt tr) ++ e'.toList := by
      rw [observedAt_append]
      cases e' <;> simp [together]
    rw [htogether]
    exact left_silent hnext rfl rfl

def segmentOf (a : Threads τ Word Context) (k : Word) : List Word :=
  (a.captured k).elim [] fun p => names p.1

omit [DecidableEq τ] in
theorem captured_of_suspended (h : Sim code (thread s t) (view a t)) {k : Word}
    (hk : Suspended (thread s t) k) : ∃ p, a.captured k = some p ∧ segmentOf a k = names p.1 ∧
      group (view a t) (some k) = segmentOf a k ++ [k] := by
  obtain ⟨p, hp⟩ := Option.isSome_iff_exists.mp ((h.status k).mpr hk)
  have hp : a.captured k = some p := hp
  have hseg : segmentOf a k = names p.1 := by
    rw [segmentOf, hp]
    rfl
  exact ⟨p, hp, hseg, hseg ▸ group_some hp⟩

theorem eq_nil_of_path {next : Word → Word} {l : List Word} (h : Path next NULL NULL l)
    (hnull : NULL ∉ l) : l = [] := by
  cases l with
  | nil => rfl
  | cons b l => exact absurd (h.1 ▸ List.mem_cons_self) hnull

omit [DecidableEq τ] in
theorem stack_eq_nil (h : Sim code (thread s t) (view a t))
    (hcur : (s.registers t).current_coroutine = NULL) : a.stack t = [] := by
  have hstack : Path (parent (thread s t).m) NULL NULL (names (a.stack t)) := hcur ▸ h.stack
  exact List.map_eq_nil_iff.mp (eq_nil_of_path hstack (activeChain_of_sim h).2.2)

omit [DecidableEq τ] in
theorem returns_to_resumer {os : List (τ × CoroutineOp × Option CoroutineDelivery)}
    (h : ∀ t, Sim code (thread s t) (view a t)) (htraced : Traced os a) {k : Word}
    {x : Word × Word} {m : Machine}
    {f : List (Word × Context) × Context × List (Word × Context) → Handlers Word Context}
    {b : Handlers Word Context}
    (happly : (splitAt k (a.stack t)).map (fun p => (f p, some (Delivery.request p.2.1 x))) =
      some (b, request m)) :
    s.status k = .active ∧ lastContext (resumeOf k) (together os) = some (context m) ∧
      (m.rax, m.rdx) = x ∧ (m.current_coroutine = NULL → lastResumer k os = some t) := by
  obtain ⟨p, hp, he⟩ := Option.map_eq_some_iff.mp happly
  simp only [request, Prod.mk.injEq, Option.some.injEq, Delivery.request.injEq] at he
  obtain ⟨-, hc, hx⟩ := he
  have hframe : (k, p.2.1) ∈ frames (view a t) none := frame_of_split hp
  obtain ⟨hres, hactive⟩ := (h t).waiting none _ _ hframe
  refine ⟨hactive, ?_, hx.symm, fun hcur => ?_⟩
  · rw [← hc]
    exact htraced.waiting t none _ _ hframe
  · have hrest := (path_split hp (h t).stack).2
    have hparent : parent (thread s t).m k = NULL := by
      have hpc : p.2.1.current_coroutine = NULL := (congrArg Context.current_coroutine hc).trans hcur
      rw [← hpc, ← hres]
      rfl
    rw [hparent] at hrest
    have hnull : NULL ∉ names p.2.2 := by
      intro hmem
      refine (activeChain_of_sim (h t)).2.2 ?_
      rw [view_stack, names_split hp]
      exact List.mem_append_right _ hmem
    have hnil : p.2.2 = [] := List.map_eq_nil_iff.mp (eq_nil_of_path hrest hnull)
    refine htraced.bottom t k p.2.1 ?_
    rw [splitAt_eq hp, hnil, List.getLast?_append]
    rfl

/-- Coroutines that migrate between threads lose no machine state. -/
theorem threads_run {tr : List (τ × Event)} (h : Run (processSystem τ code ndebug) tr s) :
    (∃ (chain : τ → List Word) (segment : Word → List Word),
      (∀ t, ActiveChain (thread s t).m (chain t) ∧ ∀ k ∈ chain t, s.status k = .active) ∧
      (∀ t u, t ≠ u → (chain t).Disjoint (chain u)) ∧
      ∀ t k, Suspended (thread s t) k → Segment (thread s t).m k (segment k) ∧
        (segment k ++ [k]).Disjoint (chain t) ∧
        ∀ j, Suspended (thread s t) j → j ≠ k →
          (segment j ++ [j]).Disjoint (segment k ++ [k])) ∧
    (∀ t act s' k x d, may code (thread s t) act →
      ((∃ c, step code ndebug (thread s t) act = some (s', some (.perform k x c, d))) ∨
        step code ndebug (thread s t) act = some (s', some (.exit k x, d))) →
      s.status k = .active ∧
      lastContext (resumeOf k) (together (observedAt tr)) = some (context s'.m) ∧
      (s'.m.rax, s'.m.rdx) = x ∧
      (s'.m.current_coroutine = NULL → lastResumer k (observedAt tr) = some t)) ∧
    (∀ t act s' k v c d, may code (thread s t) act →
      step code ndebug (thread s t) act = some (s', some (.resume k v c, d)) →
      (s.status k = .suspended →
        lastContext (performOf k) (together (observedAt tr)) = some (context s'.m) ∧
          s'.m.rax = v) ∧
      (s.status k = .fresh → ∃ fn arg frame_size stack,
        lastContext (createOf k) (together (observedAt tr)) =
          some (startContext code k fn arg frame_size stack) ∧
        context s'.m = startContext code k fn arg frame_size stack)) := by
  obtain ⟨a, hrun, hsim⟩ := process_refines h
  obtain ⟨hapart, htraced⟩ := run_traced hrun
  refine ⟨⟨fun t => names (a.stack t), segmentOf a,
    fun t => ⟨activeChain_of_sim (hsim t), fun k => active_of_stack hsim⟩, hapart.disjoint,
    fun t k hk => ?_⟩, ?_, ?_⟩
  · obtain ⟨p, hp, hseg, hgroup⟩ := captured_of_suspended (hsim t) hk
    rw [← hgroup]
    refine ⟨hseg ▸ segment_of_sim (hsim t) hp, (hapart.distinct t).2 (some k) none nofun, ?_⟩
    intro j hj hjk
    obtain ⟨q, -, -, hgroup'⟩ := captured_of_suspended (hsim t) hj
    rw [← hgroup']
    exact (hapart.distinct t).2 (some j) (some k) fun he => hjk (Option.some.inj he)
  · intro t act s' k x d hm hs
    obtain ⟨c, hs⟩ | hs := hs
    · have hmove := step_transition hs
      cases hmove with
      | yield m =>
        obtain ⟨b, -, -, happly⟩ := sim_step (hsim t) hm hs
        exact returns_to_resumer hsim htraced happly
    · have hmove := step_transition hs
      cases hmove with
      | exit m =>
        obtain ⟨b, -, -, happly⟩ := sim_step (hsim t) hm hs
        exact returns_to_resumer hsim htraced happly
  · intro t act s' k v c d hm hs
    have hleft := process_left h t
    have hmove := step_transition hs
    cases hmove with
    | resume =>
      refine ⟨fun hst => ?_, fun hst => ?_⟩
      · rw [context_seffResumeUnwrapped]
        exact ⟨hleft.suspended _ hst, result_seffResumeUnwrapped _⟩
      · obtain ⟨hcreate, fn, arg, frame_size, stack, hstart⟩ := hleft.fresh _ hst
        rw [hstart] at hcreate
        refine ⟨fn, arg, frame_size, stack, hcreate, ?_⟩
        rw [context_seffResumeUnwrapped, hstart]

end Steps

/-- `0x1000` is captured on thread 0 with `0x2000` inside, and goes on on thread 1:
there `0x2000` yields to the context in which thread 0 has resumed it. -/
theorem threads_run_migrated : ∃ tr s, Run (processSystem (Fin 2) exampleCode true) tr s ∧
    (lastResumer 0x2000 (observedAt tr), (seffYield (thread s 1).m).current_coroutine) =
      (some 0, 0x1000) ∧
    s.status 0x2000 = .active ∧ lastContext (resumeOf 0x2000) (together (observedAt tr)) =
      some (context (seffYield (thread s 1).m)) := by
  obtain ⟨tr, s, h, he⟩ := Run.exists_of_exec (S := processSystem (Fin 2) exampleCode true)
    (fun s p (h : allowed exampleCode (thread s p.1) p.2 = true) => may_of_allowed h)
    (nestedYield.map (fun act => (0, act)) ++
      [(1, .user { idle with rdi := 0x1000, rsi := 5, rsp := 0x9000, rip := 0x700 }),
        (1, .resume), (1, .user { idle with rdi := 0x2000, rsp := 0x20100, rip := 0x602 })])
    (s := ⟨fun _ => registers idle, idle.memory, idle.coroutines, fun _ => .unborn, fun _ => none⟩)
    (fun _ => ⟨rfl, rfl, fun _ => rfl, fun _ => rfl⟩)
    (fun p => ((lastResumer 0x2000 (observedAt p.2),
      (seffYield (thread p.1 1).m).current_coroutine), (thread p.1 1).m.rdi,
      allowed exampleCode (thread p.1 1) .yield, userCode exampleCode (thread p.1 1).m.rip))
    (b := ((some 0, 0x1000), 0x2000, true, true)) (by decide +kernel)
  simp only [Prod.mk.injEq] at he
  obtain ⟨hmigrated, hrdi, hmay, hrip⟩ := he
  obtain ⟨hactive, hcontext, -⟩ := (threads_run h).2.1 1 .yield (yieldStep (thread s 1)
    (thread s 1).m).1 (thread s 1).m.rdi _ _ (may_of_allowed hmay) (.inl ⟨_, if_pos hrip⟩)
  rw [hrdi] at hactive hcontext
  exact ⟨tr, s, h, Prod.ext hmigrated.1 hmigrated.2, hactive, hcontext⟩

end Libseff.ThreadContexts
