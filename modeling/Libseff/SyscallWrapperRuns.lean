import Libseff.SyscallWrappers

namespace Libseff.SyscallWrapperRuns

open LinkedLists TransitionRuns ShallowHandlers CoroutineMachine CoroutineRuns CoroutineSim
  CoroutineRefine CoroutineHandlers ResumeGuards CoroutineStacks SyscallWrappers

/-- Inside a wrapped call the calls run in place; only the outermost one can have
gone to the system stack. -/
def Nested : List Call → Prop
  | [] => True
  | c :: calls => (c.start = none ∧ c.limit = 0 ∧ Nested calls) ∨ (c.start ≠ none ∧ calls = [])

structure Shape (k stack_top : Word) (calls : List Call) : Prop where
  null : k = NULL → stack_top = 0 ∧ ∀ c ∈ calls, c.start = none
  zero : calls ≠ [] → stack_top = 0
  nested : Nested calls

structure Inv (code : Code) (s : SyscallWrappers.State) (a : Handlers Word Context) : Prop where
  sim : Sim code s.base a
  shape : Shape s.base.m.current_coroutine s.base.m.stack_top s.calls
  shapes : ∀ g c, Live a g c → Shape c.current_coroutine c.stack_top (s.saved g)
  cells : ∀ calls ∈ onChain a s.calls s.saved, ∀ c ∈ calls, c.start ≠ none →
    c.rsp = s.paused_coroutine_stack ∧ c.limit = s.paused_coroutine_stack_top ∧
      c.start = some s.base.m.system_stack ∧
      s.base.m.memory (s.base.m.system_stack - 8) = c.back
  groups : ∀ k, ∀ calls ∈ inGroup a s.saved k, ∀ c ∈ calls, c.start = none
  stack : s.base.m.current_coroutine ≠ NULL → 8 ≤ s.base.m.system_stack.toNat

variable {code : Code} {ndebug : Bool}

section Machine

theorem system_stack_seffYield (m : Machine) : (seffYield m).system_stack = m.system_stack := by
  simp [seffYield, swapRegisters, swapStack, setResumePoint, setCoroutine, popR11]

theorem system_stack_seffExit (m : Machine) :
    (seffExit ndebug m).system_stack = m.system_stack := by
  cases ndebug <;> simp [seffExit, swapRegisters, setResumePoint, setCoroutine]

theorem system_stack_seffResumeUnwrapped (m : Machine) :
    (seffResumeUnwrapped m).system_stack =
      if m.current_coroutine ≠ NULL then m.system_stack else m.rsp + 8 := by
  simp [seffResumeUnwrapped, swapRegisters, swapStack, setResumePoint, setCoroutine, popR11]

variable {s s' : CoroutineRuns.State} {act : CoroutineRuns.Action} {e : CoroutineRuns.Event}

theorem system_stack_step (hs : CoroutineRuns.step code ndebug s act = some (s', e)) :
    s'.m.system_stack = s.m.system_stack ∧
        (∀ k v c d, e = some (.resume k v c, d) → s.m.current_coroutine ≠ NULL) ∨
      act = .resume ∧ e ≠ none ∧ s.m.current_coroutine = NULL ∧
        s'.m.system_stack = s.m.rsp + 8 := by
  cases step_cases hs with
  | resume =>
    have hsys := system_stack_seffResumeUnwrapped s.m
    by_cases hcur : s.m.current_coroutine = NULL
    · rw [if_neg (not_not_intro hcur)] at hsys
      exact .inr ⟨rfl, by simp, hcur, hsys⟩
    · rw [if_pos hcur] at hsys
      exact .inl ⟨hsys, fun _ _ _ _ _ => hcur⟩
  | init | user | discard | performDefault | prelude => exact .inl ⟨rfl, by simp⟩
  | yield => exact .inl ⟨system_stack_seffYield _, by simp [yieldStep]⟩
  | perform _ _ _ hm =>
    subst hm
    exact .inl ⟨system_stack_seffYield _, by simp [yieldStep]⟩
  | exit | preludeReturn => exact .inl ⟨system_stack_seffExit _, by simp [exitStep]⟩
  | throw _ _ _ hm =>
    subst hm
    exact .inl ⟨system_stack_seffExit _, by simp [exitStep]⟩

end Machine

variable {s s' : SyscallWrappers.State} {a : Handlers Word Context}

theorem stack_of_null {s : CoroutineRuns.State} (h : Sim code s a)
    (hcur : s.m.current_coroutine = NULL) : names a.stack = [] := by
  obtain ⟨hpath, -, hnull⟩ := activeChain_of_sim h
  cases hn : names a.stack with
  | nil => rfl
  | cons b l =>
    rw [hn] at hpath hnull
    exact absurd (hcur.symm.trans hpath.1) fun he => hnull (he ▸ List.mem_cons_self)

theorem step_base {act : CoroutineRuns.Action}
    (hact : ∀ k fn arg frame_size stack, act ≠ .init k fn arg frame_size stack) :
    SyscallWrappers.step code ndebug s (.base act) =
      (CoroutineRuns.step code ndebug s.base act).map fun p =>
        ({ s with
          base := p.1, calls := (switch s.calls s.saved p.2).1,
          saved := (switch s.calls s.saved p.2).2 }, p.2) := by
  cases act with
  | init k fn arg frame_size stack => exact absurd rfl (hact k fn arg frame_size stack)
  | user | resume | yield | exit | perform | throw | prelude | preludeReturn | discard => rfl

structure MayBase (code : Code) (ndebug : Bool) (s : SyscallWrappers.State)
    (act : CoroutineRuns.Action) : Prop where
  may : CoroutineRuns.may code s.base act
  not_discard : ∀ k, act ≠ .discard k
  user : ∀ m, act = .user m → m.stack_top = s.base.m.stack_top
  resume : act = .resume → s.base.m.rsp.toNat + 8 < 2 ^ 64
  keeps : ∀ base e, CoroutineRuns.step code ndebug s.base act = some (base, e) →
    KeepsReturn s base.m
  captures : ∀ base h x c d, CoroutineRuns.step code ndebug s.base act =
    some (base, some (.perform h x c, d)) → Captures s h

theorem may_base {act : CoroutineRuns.Action}
    (hm : SyscallWrappers.may code ndebug s (.base act)) : MayBase code ndebug s act := by
  cases act with
  | discard => exact hm.elim
  | init | user | resume | yield | exit | perform | throw | prelude | preludeReturn =>
    obtain ⟨hmay, huser, hresume, hstep⟩ := hm
    exact ⟨hmay, by simp, huser, hresume, fun base e hs => (hstep base e hs).1,
      fun base h x c d hs => (hstep base _ hs).2 h x c d rfl⟩

theorem ne_null_of_start (h : Inv code s a) {calls : List Call}
    (hcalls : calls ∈ onChain a s.calls s.saved) {c : Call} (hc : c ∈ calls)
    (hstart : c.start ≠ none) : s.base.m.current_coroutine ≠ NULL := by
  intro hcur
  rw [onChain, stack_of_null h.sim hcur] at hcalls
  obtain rfl := List.mem_singleton.mp hcalls
  exact hstart ((h.shape.null hcur).2 c hc)

theorem inv_silent (h : Inv code s a) {base : CoroutineRuns.State} (hsim : Sim code base a)
    (hcur : base.m.current_coroutine = s.base.m.current_coroutine)
    (htop : base.m.stack_top = s.base.m.stack_top)
    (hsys : base.m.system_stack = s.base.m.system_stack) (hkeeps : KeepsReturn s base.m) :
    Inv code { s with base := base } a := by
  refine ⟨hsim, ?_, h.shapes, fun calls hcalls c hc hstart => ?_, h.groups, ?_⟩
  · simp only [hcur, htop]
    exact h.shape
  · simp only [hsys, hkeeps (ne_null_of_start h hcalls hc hstart)]
    exact h.cells calls hcalls c hc hstart
  · simp only [hcur, hsys]
    exact h.stack

theorem inv_switch (h : Inv code s a) {act : CoroutineRuns.Action} {base : CoroutineRuns.State}
    {a' : Handlers Word Context} {o : CoroutineOp} {d : CoroutineDelivery}
    (hb : CoroutineRuns.step code ndebug s.base act = some (base, some (o, some d)))
    (hbase : MayBase code ndebug s act)
    (hsim : Sim code base a') (hm : handlers.may a o) (ho : ∀ k, o ≠ .discard k)
    (happly : apply a o = some (a', some d)) (hd : d.context = context base.m)
    (hsaves : ∀ c, saves o = some c → c.current_coroutine = s.base.m.current_coroutine ∧
      c.stack_top = s.base.m.stack_top) :
    Inv code { s with
      base := base, calls := (switch s.calls s.saved (some (o, some d))).1,
      saved := (switch s.calls s.saved (some (o, some d))).2 } a' := by
  have hdistinct := h.sim.distinct
  obtain ⟨hrun, hlive⟩ := switch_all h.sim hm ho happly hd hsaves h.shape h.shapes
  have hsystem := system_stack_step hb
  refine ⟨hsim, hrun, hlive, fun calls hcalls c hc hstart => ?_, fun k calls hcalls c hc => ?_,
    fun hne => ?_⟩
  · obtain hold | ⟨k, v, x, rfl, hgroup⟩ := onChain_switch happly hcalls
    · have hne := ne_null_of_start h hold hc hstart
      obtain ⟨hsys, -⟩ | ⟨-, -, hcur, -⟩ := hsystem
      · rw [hsys, hbase.keeps base _ hb hne]
        exact h.cells calls hold c hc hstart
      · exact absurd hcur hne
    · exact absurd (h.groups k calls hgroup c hc) hstart
  · obtain hold | ⟨y, x, p, rfl, hp, hcases⟩ := inGroup_switch hdistinct happly hcalls
    · exact h.groups k calls hold c hc
    · obtain ⟨hpending, hwaiting⟩ := hbase.captures base k y x d hb
      obtain rfl | hmem := hcases
      · exact hpending c hc
      · obtain ⟨g, hg, rfl⟩ := List.mem_map.mp hmem
        exact hwaiting _ (path_split hp h.sim.stack).1 g hg c hc
  · obtain ⟨hsys, hresume⟩ | ⟨hact, -, -, hsys⟩ := hsystem
    · simp only [hsys]
      refine h.stack fun hcur => ?_
      have hstack : a.stack = [] := List.map_eq_nil_iff.mp (stack_of_null h.sim hcur)
      cases o with
      | create | discard => cases happly
      | resume k v c => exact hresume k v c _ rfl hcur
      | perform | exit =>
        rw [ShallowHandlers.apply, hstack] at happly
        cases happly
    · simp only [hsys]
      have hrsp := hbase.resume hact
      bv_omega

theorem inv_base (h : Inv code s a) {act : CoroutineRuns.Action} {e : CoroutineRuns.Event}
    (hm : SyscallWrappers.may code ndebug s (.base act))
    (hact : ∀ k fn arg frame_size stack, act ≠ .init k fn arg frame_size stack)
    (hs : SyscallWrappers.step code ndebug s (.base act) = some (s', e)) :
    ∃ a', Inv code s' a' := by
  rw [step_base hact] at hs
  obtain ⟨⟨base, e⟩, hb, he⟩ := Option.map_eq_some_iff.mp hs
  cases he
  have hbase := may_base hm
  obtain ⟨a', hsim, hperf⟩ := sim_step h.sim hbase.may hb
  cases step_kind hb with
  | init k fn arg frame_size stack he => exact absurd he (hact k fn arg frame_size stack)
  | discard k he => exact absurd he (hbase.not_discard k)
  | silent hcur htop =>
    obtain rfl := hperf
    have hsys : base.m.system_stack = s.base.m.system_stack := by
      obtain ⟨hsys, -⟩ | ⟨-, hne, -⟩ := system_stack_step hb
      · exact hsys
      · exact absurd rfl hne
    refine ⟨a', inv_silent h hsim hcur ?_ hsys (hbase.keeps base _ hb)⟩
    obtain htop | ⟨m, rfl, htop⟩ := htop
    · exact htop
    · exact htop.trans (hbase.user m rfl)
  | switch o d hd hsaves =>
    obtain ⟨hmay, happly⟩ := hperf
    have ho : ∀ k, o ≠ .discard k := by
      rintro k rfl
      exact hbase.not_discard k (discard_of_event hb)
    exact ⟨a', inv_switch h hb hbase hsim hmay ho happly hd hsaves⟩

theorem inv_init (h : Inv code s a) {k fn arg frame_size stack : Word} {e : CoroutineRuns.Event}
    (hm : SyscallWrappers.may code ndebug s (.base (.init k fn arg frame_size stack)))
    (hs : SyscallWrappers.step code ndebug s (.base (.init k fn arg frame_size stack)) =
      some (s', e)) :
    ∃ a', Inv code s' a' := by
  obtain ⟨⟨base, e⟩, hb, he⟩ := Option.map_eq_some_iff.mp hs
  cases he
  have hmay := (may_base hm).may
  obtain ⟨a', hsim, hperf⟩ := sim_step h.sim hmay hb
  simp only [CoroutineRuns.step] at hb
  split at hb
  case isFalse => cases hb
  cases hb
  obtain ⟨hmay', happly⟩ := hperf
  have hsaved : ∀ x, ∀ g ∈ group a x, Function.update s.saved k [] g = s.saved g := by
    intro x g hg
    refine Function.update_of_ne (fun hgk => ?_) _ _
    exact status_of_group h.sim hg (hgk ▸ hmay.2)
  refine ⟨a', hsim, h.shape, ?_, ?_, ?_, h.stack⟩
  · intro g c hlive
    obtain ⟨hg, hold⟩ | ⟨hg, hc⟩ := live_apply h.sim.distinct hmay' (by simp) happly hlive
    · have hg : g ≠ k := hg
      simp only [Function.update_of_ne hg]
      exact h.shapes g c hold
    · obtain rfl : k = g := hg.symm
      cases hc
      simp only [Function.update_self]
      exact ⟨fun hnull => absurd hnull hmay.1, fun hne => absurd rfl hne, trivial⟩
  · cases happly
    intro calls hcalls
    refine h.cells calls ?_
    obtain rfl | hmem := List.mem_cons.mp hcalls
    · exact List.mem_cons_self
    · obtain ⟨g, hg, he⟩ := List.mem_map.mp hmem
      rw [← he]
      simp only [hsaved none g hg]
      exact List.mem_cons_of_mem _ (List.mem_map_of_mem hg)
  · cases happly
    intro j calls hcalls c hc
    obtain ⟨g, hg, rfl⟩ := List.mem_map.mp hcalls
    by_cases hj : j = k
    · subst hj
      rw [group_update_some] at hg
      obtain rfl := List.mem_singleton.mp hg
      simp only [Function.update_self] at hc
      cases hc
    · rw [group_update_of_ne a _ _ (by simp) (by simpa using hj)] at hg
      simp only [hsaved (some j) g hg] at hc
      exact h.groups j _ (List.mem_map_of_mem hg) c hc

theorem inv_machine (h : Inv code s a) {m : Machine} {paused top : Word} {calls : List Call}
    (hco : m.coroutines = s.base.m.coroutines)
    (hcur : m.current_coroutine = s.base.m.current_coroutine)
    (hsys : m.system_stack = s.base.m.system_stack) (hproper : Proper code (context m))
    (hshape : Shape s.base.m.current_coroutine m.stack_top calls)
    (hcells : ∀ l ∈ onChain a calls s.saved, ∀ c ∈ l, c.start ≠ none →
      c.rsp = paused ∧ c.limit = top ∧ c.start = some s.base.m.system_stack ∧
        m.memory (s.base.m.system_stack - 8) = c.back) :
    Inv code ⟨{ s.base with m := m }, paused, top, calls, s.saved⟩ a := by
  refine ⟨sim_user h.sim hco hcur hproper, ?_, h.shapes, ?_, h.groups, ?_⟩
  · simp only [hcur]
    exact hshape
  · simp only [hsys]
    exact hcells
  · simp only [hcur, hsys]
    exact h.stack

theorem calls_of_limit {k stack_top : Word} {calls : List Call} (h : Shape k stack_top calls)
    (htop : stack_top ≠ 0) : calls = [] := by
  by_contra hne
  exact htop (h.zero hne)

theorem shape_limit {k stack_top limit : Word} {calls : List Call} (h : Shape k stack_top calls)
    (htop : stack_top ≠ 0) : Shape k limit calls :=
  ⟨fun hnull => absurd (h.null hnull).1 htop, fun hne => absurd (calls_of_limit h htop) hne,
    h.nested⟩

theorem running_of_onChain (h : Sim code s.base a) {g : Word} {c : Call} (hg : g ∈ names a.stack)
    (hc : c ∈ s.saved g) : SyscallWrappers.Running s c := by
  obtain ⟨hpath, -, hnull⟩ := activeChain_of_sim h
  exact .inr ⟨g, reaches_of_mem hpath hnull hg, hc⟩

theorem running_of_mem (h : Sim code s.base a) {calls : List Call}
    (hcalls : calls ∈ onChain a s.calls s.saved) {c : Call} (hc : c ∈ calls) :
    SyscallWrappers.Running s c := by
  obtain rfl | hmem := List.mem_cons.mp hcalls
  · exact .inl hc
  · obtain ⟨g, hg, rfl⟩ := List.mem_map.mp hmem
    exact running_of_onChain h hg hc

theorem onChain_of_running (h : Sim code s.base a) {c : Call}
    (hc : SyscallWrappers.Running s c) : ∃ calls ∈ onChain a s.calls s.saved, c ∈ calls := by
  obtain hc | ⟨g, ⟨fuel, hreach⟩, hc⟩ := hc
  · exact ⟨_, List.mem_cons_self, hc⟩
  · exact ⟨_, List.mem_cons_of_mem _ (List.mem_map_of_mem (mem_names_of_reaches h.stack hreach)),
      hc⟩

theorem inv_wrapper (h : Inv code s a) {fn : Word} (back : Word) (hfn : userCode code fn = true)
    (halone : s.base.m.stack_top ≠ 0 → ∀ c, SyscallWrappers.Running s c → c.start = none) :
    Inv code (wrapper s fn back) a := by
  by_cases htop : s.base.m.stack_top = 0
  · have hw : wrapper s fn back = ⟨{ s.base with m := { s.base.m with
        rax := s.base.m.stack_top, rip := fn } }, s.paused_coroutine_stack,
        s.paused_coroutine_stack_top, ⟨s.base.m.rsp, s.base.m.stack_top, back, none⟩ :: s.calls,
        s.saved⟩ := if_pos htop
    rw [hw]
    refine inv_machine h rfl rfl rfl (proper_of_userCode hfn) ⟨fun hnull => ⟨htop, ?_⟩,
      fun _ => htop, .inl ⟨rfl, htop, h.shape.nested⟩⟩ ?_
    · intro c hc
      obtain rfl | hc := List.mem_cons.mp hc
      · rfl
      · exact (h.shape.null hnull).2 c hc
    · intro l hl c hc hstart
      obtain rfl | hl := List.mem_cons.mp hl
      · obtain rfl | hc := List.mem_cons.mp hc
        · exact absurd rfl hstart
        · exact h.cells _ List.mem_cons_self c hc hstart
      · exact h.cells l (List.mem_cons_of_mem _ hl) c hc hstart
  · have hw : wrapper s fn back = ⟨{ s.base with m := { push { s.base.m with
        rax := s.base.m.stack_top, rsp := s.base.m.system_stack, stack_top := 0 } back with
        rip := fn } }, s.base.m.rsp, s.base.m.stack_top,
        ⟨s.base.m.rsp, s.base.m.stack_top, back, some s.base.m.system_stack⟩ :: s.calls,
        s.saved⟩ := if_neg htop
    have hne : s.base.m.current_coroutine ≠ NULL := fun hnull => htop (h.shape.null hnull).1
    rw [hw, calls_of_limit h.shape htop]
    refine inv_machine h rfl rfl rfl (proper_of_userCode hfn) ⟨fun hnull => absurd hnull hne,
      fun _ => rfl, .inr ⟨by simp, rfl⟩⟩ ?_
    intro l hl c hc hstart
    obtain rfl | hl := List.mem_cons.mp hl
    · obtain rfl := List.mem_singleton.mp hc
      exact ⟨rfl, rfl, rfl, Function.update_self ..⟩
    · obtain ⟨g, hg, rfl⟩ := List.mem_map.mp hl
      exact absurd (halone htop c (running_of_onChain h.sim hg hc)) hstart

theorem inv_return (h : Inv code s a) (huser : userCode code s.base.m.rip = true)
    (hm : SyscallWrappers.may code ndebug s .wrapperReturn) :
    ∃ s' c calls, returnStep s = some s' ∧ s.calls = c :: calls ∧ Inv code s' a ∧
      s'.base.m.rsp = c.rsp + 8 ∧ s'.base.m.stack_top = c.limit := by
  obtain ⟨c, calls, hcalls, hdirect, hcaller⟩ := hm
  have hshape := h.shape
  have hzero : s.base.m.stack_top = 0 := hshape.zero (by rw [hcalls]; simp)
  have hrest : ∀ l ∈ onChain a calls s.saved, ∀ x ∈ l, x.start ≠ none →
      x.rsp = s.paused_coroutine_stack ∧ x.limit = s.paused_coroutine_stack_top ∧
        x.start = some s.base.m.system_stack ∧
        s.base.m.memory (s.base.m.system_stack - 8) = x.back := by
    intro l hl x hx
    obtain rfl | hl := List.mem_cons.mp hl
    · exact h.cells s.calls List.mem_cons_self x (by rw [hcalls]; exact List.mem_cons_of_mem c hx)
    · exact h.cells l (List.mem_cons_of_mem _ hl) x hx
  have hnested := hshape.nested
  rw [hcalls] at hnested
  obtain ⟨hnone, hlimit, hnested⟩ | ⟨hsome, rfl⟩ := hnested
  · refine ⟨{ s with calls := calls }, c, calls, ?_, hcalls, ?_, hdirect hnone,
      hzero.trans hlimit.symm⟩
    · rw [returnStep, hcalls]
      simp only [hnone]
    · refine inv_machine h rfl rfl rfl (proper_of_userCode huser) ⟨fun hnull => ⟨hzero, ?_⟩,
        fun _ => hzero, hnested⟩ hrest
      intro x hx
      exact (hshape.null hnull).2 x (by rw [hcalls]; exact List.mem_cons_of_mem c hx)
  · obtain ⟨hrsp, hlimit, hstart, hback⟩ :=
      h.cells _ List.mem_cons_self c (by rw [hcalls]; simp) hsome
    refine ⟨{ wrapperReturn s with calls := [] }, c, [], ?_, hcalls, ?_, ?_, hlimit.symm⟩
    · rw [returnStep, hcalls]
      simp only [hstart]
      exact if_pos hback
    · refine inv_machine h rfl rfl rfl (proper_of_userCode (hcaller hsome))
        ⟨fun hnull => ?_, fun hne => absurd rfl hne, trivial⟩ hrest
      exact absurd ((hshape.null hnull).2 c (by rw [hcalls]; simp)) hsome
    · rw [hrsp]
      rfl

theorem inv_step (h : Inv code s a) {act : SyscallWrappers.Action} {e : CoroutineRuns.Event}
    (hm : SyscallWrappers.may code ndebug s act) (halone : Alone s act)
    (hs : SyscallWrappers.step code ndebug s act = some (s', e)) : ∃ a', Inv code s' a' := by
  cases act with
  | base act =>
    by_cases hact : ∃ k fn arg frame_size stack, act = .init k fn arg frame_size stack
    · obtain ⟨k, fn, arg, frame_size, stack, rfl⟩ := hact
      exact inv_init h hm hs
    · simp only [not_exists] at hact
      exact inv_base h hm hact hs
  | grow limit r8 callee =>
    simp only [SyscallWrappers.step] at hs
    split at hs
    case isFalse => cases hs
    rename_i huser
    cases hs
    refine ⟨a, inv_machine h rfl rfl rfl (proper_of_userCode huser) (shape_limit h.shape hm.1) ?_⟩
    intro l hl c hc hstart
    exact absurd (halone rfl hm.1 c (running_of_mem h.sim hl hc)) hstart
  | shrink limit =>
    simp only [SyscallWrappers.step] at hs
    split at hs
    case isFalse => cases hs
    rename_i huser
    cases hs
    exact ⟨a, inv_machine h rfl rfl rfl (proper_of_userCode huser) (shape_limit h.shape hm.1)
      h.cells⟩
  | wrapper fn back =>
    simp only [SyscallWrappers.step] at hs
    split at hs
    case isFalse => cases hs
    cases hs
    exact ⟨a, inv_wrapper h back hm (halone rfl)⟩
  | wrapperReturn =>
    simp only [SyscallWrappers.step] at hs
    split at hs
    case isFalse => cases hs
    rename_i huser
    obtain ⟨s1, he, hs⟩ := Option.map_eq_some_iff.mp hs
    cases hs
    obtain ⟨s2, -, -, hs2, -, hinv, -⟩ := inv_return h huser hm
    cases hs2.symm.trans he
    exact ⟨a, hinv⟩

theorem run_inv {tr : List CoroutineRuns.Event}
    (h : Run ((wrapperSystem code ndebug).restrict Alone) tr s) : ∃ a, Inv code s a := by
  refine Run.invariant (fun _ s => ∃ a, Inv code s a) ?_ ?_ h
  · rintro s ⟨hinit, htop, hcalls⟩
    refine ⟨_, sim_start hinit, ⟨fun _ => ⟨htop, ?_⟩, fun _ => htop, ?_⟩, ?_, ?_, ?_, ?_⟩
    · simp [hcalls]
    · rw [hcalls]
      trivial
    · rintro g c (⟨x, hmem⟩ | ⟨l, hl⟩)
      · cases x <;> cases hmem
      · cases hl
    · intro l hl c hc
      obtain rfl := List.mem_singleton.mp hl
      rw [hcalls] at hc
      cases hc
    · intro k l hl
      cases hl
    · exact fun hne => absurd hinit.1 hne
  · rintro _ s act s' e ⟨a, hinv⟩ hm hs
    exact inv_step hinv hm.1 hm.2 hs

/-- In runs where each wrapped call that goes to the system stack is alone there and
no stack grows meanwhile, every wrapped call returns with its `rsp` and limit, and
the next one to start finds no frames below it if and only if it is alone too. -/
theorem wrappers_iff {tr : List CoroutineRuns.Event}
    (h : Run ((wrapperSystem code ndebug).restrict Alone) tr s) :
    Reentrant code ndebug s ↔ (s.base.m.stack_top ≠ 0 →
      ∀ c, SyscallWrappers.Running s c → c.start = none) := by
  obtain ⟨a, hinv⟩ := run_inv h
  constructor
  · intro hre htop c hc
    by_contra hstart
    obtain ⟨calls, hcalls, hmem⟩ := onChain_of_running hinv.sim hc
    obtain ⟨-, -, hsys, -⟩ := hinv.cells calls hcalls c hmem hstart
    have hstack := hinv.stack (ne_null_of_start hinv hcalls hmem hstart)
    refine hre.starts htop c hc _ hsys ?_
    bv_omega
  · intro halone
    refine ⟨fun c calls hcalls huser hm => ?_, fun htop c hc start hstart => ?_⟩
    · obtain ⟨s', c', calls', hs, hcalls', -, hreturn⟩ := inv_return hinv huser hm
      cases hcalls.symm.trans hcalls'
      refine ⟨s', none, ?_, hreturn⟩
      rw [SyscallWrappers.step, if_pos huser, hs]
      rfl
    · rw [halone htop c hc] at hstart
      cases hstart

theorem foldl_push (ws : List Word) (m : Machine) {x : Word}
    (hx : ∀ i, i < ws.length → x ≠ m.rsp - BitVec.ofNat 64 (8 * (i + 1))) :
    (ws.foldl push m).memory x = m.memory x := by
  induction ws generalizing m with
  | nil => rfl
  | cons w ws ih =>
    rw [List.foldl_cons, ih (push m w) fun i hi => ?_]
    · exact Function.update_of_ne (hx 0 (Nat.succ_pos _)) _ _
    · have hne := hx (i + 1) (Nat.succ_lt_succ hi)
      have haddress : (push m w).rsp - BitVec.ofNat 64 (8 * (i + 1)) =
          m.rsp - BitVec.ofNat 64 (8 * (i + 1 + 1)) := by
        simp only [push]
        bv_omega
      rwa [haddress]

/-- A stack that grows overwrites the first return address on the system stack. -/
theorem morestack_overwrites (m : Machine) (limit r8 : Word) {callee : List Word}
    (hlen : 8 * (callee.length + 10) < 2 ^ 64) :
    (morestack m limit r8 callee).memory (m.system_stack - 8) = m.rbp := by
  have hwords : savedWords m r8 ++ callee = m.rbp :: ((savedWords m r8).tail ++ callee) := rfl
  simp only [morestack, hwords, List.foldl_cons]
  rw [foldl_push _ _ fun i hi => ?_]
  · exact Function.update_self ..
  · rw [List.length_append] at hi
    have hlength : (savedWords m r8).tail.length = 9 := rfl
    simp only [push]
    bv_omega

section Checks

variable (code : Code) (ndebug : Bool)

def keepsReturn (s : SyscallWrappers.State) (act : CoroutineRuns.Action) : Bool :=
  (CoroutineRuns.step code ndebug s.base act).all fun p => decide (KeepsReturn s p.1.m)

def allowedWrapper (s : SyscallWrappers.State) : SyscallWrappers.Action → Bool
  | .base (.user m) =>
    allowed code s.base (.user m) && keepsReturn code ndebug s (.user m) &&
      decide (m.stack_top = s.base.m.stack_top)
  | .base .resume =>
    allowed code s.base .resume && keepsReturn code ndebug s .resume &&
      decide (s.base.m.rsp.toNat + 8 < 2 ^ 64)
  | .base (.init k fn arg frame_size stack) =>
    allowed code s.base (.init k fn arg frame_size stack) &&
      keepsReturn code ndebug s (.init k fn arg frame_size stack)
  | .base .exit => allowed code s.base .exit && keepsReturn code ndebug s .exit
  | .base .prelude => allowed code s.base .prelude && keepsReturn code ndebug s .prelude
  | .base _ => false
  | .grow limit _ _ | .shrink limit => decide (s.base.m.stack_top ≠ 0 ∧ limit ≠ 0)
  | .wrapper fn _ => userCode code fn
  | .wrapperReturn =>
    match s.calls with
    | [] => false
    | c :: _ =>
      if c.start = none then decide (s.base.m.rsp = c.rsp + 8)
      else userCode code (s.base.m.memory s.paused_coroutine_stack)

def allowedAlone (k : Word) (s : SyscallWrappers.State) (act : SyscallWrappers.Action) : Bool :=
  allowedWrapper code ndebug s act && (!usesSystemStack act ||
    (s.calls.isEmpty && (s.saved k).isEmpty &&
      decide (s.base.m.current_coroutine = k ∧ parent s.base.m k = NULL)))

end Checks

theorem keeps_of_keepsReturn {act : CoroutineRuns.Action} (h : keepsReturn code ndebug s act = true)
    {base : CoroutineRuns.State} {e : CoroutineRuns.Event}
    (hs : CoroutineRuns.step code ndebug s.base act = some (base, e)) : KeepsReturn s base.m := by
  rw [keepsReturn, hs, Option.all_some] at h
  exact of_decide_eq_true h

theorem may_of_allowedWrapper {act : SyscallWrappers.Action}
    (h : allowedWrapper code ndebug s act = true) : SyscallWrappers.may code ndebug s act := by
  cases act with
  | base act =>
    have hquiet : ∀ (hact : act ≠ .yield) (hfuel : ∀ fuel, act ≠ .perform fuel)
        (hkeeps : keepsReturn code ndebug s act = true) (base : CoroutineRuns.State)
        (e : CoroutineRuns.Event), CoroutineRuns.step code ndebug s.base act = some (base, e) →
        KeepsReturn s base.m ∧ ∀ h x c d, e = some (.perform h x c, d) → Captures s h := by
      intro hact hfuel hkeeps base e hs
      refine ⟨keeps_of_keepsReturn hkeeps hs, ?_⟩
      rintro h x c d rfl
      obtain hy | ⟨fuel, hp⟩ := perform_of_event hs
      · exact absurd hy hact
      · exact absurd hp (hfuel fuel)
    cases act with
    | user m =>
      simp only [allowedWrapper, Bool.and_eq_true, decide_eq_true_eq] at h
      obtain ⟨⟨hallowed, hkeeps⟩, htop⟩ := h
      refine ⟨may_of_allowed hallowed, fun m' he => ?_, by simp, hquiet (by simp) (by simp) hkeeps⟩
      cases he
      exact htop
    | resume =>
      simp only [allowedWrapper, Bool.and_eq_true, decide_eq_true_eq] at h
      obtain ⟨⟨hallowed, hkeeps⟩, hrsp⟩ := h
      exact ⟨may_of_allowed hallowed, by simp, fun _ => hrsp, hquiet (by simp) (by simp) hkeeps⟩
    | init | exit | prelude =>
      simp only [allowedWrapper, Bool.and_eq_true] at h
      exact ⟨may_of_allowed h.1, by simp, by simp, hquiet (by simp) (by simp) h.2⟩
    | yield | perform | throw | preludeReturn | discard => cases h
  | grow | shrink =>
    simp only [allowedWrapper, decide_eq_true_eq] at h
    exact h
  | wrapper => exact h
  | wrapperReturn =>
    cases hcalls : s.calls with
    | nil => simp [allowedWrapper, hcalls] at h
    | cons c calls =>
      simp only [allowedWrapper, hcalls] at h
      refine ⟨c, calls, hcalls, fun hnone => ?_, fun hsome => ?_⟩
      · rw [if_pos hnone] at h
        exact of_decide_eq_true h
      · rwa [if_neg hsome] at h

theorem may_of_allowedAlone {k : Word} {act : SyscallWrappers.Action}
    (h : allowedAlone code ndebug k s act = true) :
    ((wrapperSystem code ndebug).restrict Alone).may s act := by
  simp only [allowedAlone, Bool.and_eq_true, Bool.or_eq_true, Bool.not_eq_true',
    List.isEmpty_iff, decide_eq_true_eq] at h
  obtain ⟨hallowed, hfree⟩ := h
  refine ⟨may_of_allowedWrapper hallowed, fun huses _ c hc => ?_⟩
  obtain hnot | ⟨⟨hcalls, hsaved⟩, hpath⟩ := hfree
  · rw [hnot] at huses
    cases huses
  · obtain hc | ⟨g, ⟨fuel, hreach⟩, hc⟩ := hc
    · rw [hcalls] at hc
      cases hc
    · have hk : Path (parent s.base.m) NULL s.base.m.current_coroutine [k] := hpath
      obtain rfl := List.mem_singleton.mp (mem_names_of_reaches hk hreach)
      rw [hsaved] at hc
      cases hc

def resumeFirst : List SyscallWrappers.Action :=
  [.base (.init 0x1000 0x500 7 256 0x10000), .base (.init 0x2000 0x600 8 256 0x20000),
    .base (.user { idle with rdi := 0x1000, rsp := 0x8000 }), .base .resume, .base .prelude,
    .base (.user { idle with
      rbp := 0x401, rsp := 0x10100, rip := 0x501, stack_top := 0x100a0 })]

def grownCall : List SyscallWrappers.Action :=
  [.grow 0x300a0 9 [0x30, 0x401],
    .base (.user { idle with rsp := 0x30100, rip := 0x501, stack_top := 0x300a0 }),
    .wrapper 0x700 0x401]

def nestedCall : List SyscallWrappers.Action :=
  [.wrapper 0x700 0x401,
    .base (.user { idle with rdi := 0x2000, rsp := 0x7f00, rip := 0x700 }), .base .resume,
    .base .prelude,
    .base (.user { idle with rsp := 0x20100, rip := 0x601, stack_top := 0x200a0 }),
    .wrapper 0x700 0x401, .base (.user { idle with rip := 0x701 }), .wrapperReturn,
    .base (.user { idle with rdi := 0x2000, rsp := 0x20100, rip := 0x602, stack_top := 0x200a0 }),
    .base .exit]

def start : SyscallWrappers.State :=
  ⟨⟨idle, fun _ => .unborn, fun _ => none⟩, 0, 0, [], fun _ => []⟩

theorem reentrant_wrappedCall : ∃ tr s,
    Run ((wrapperSystem exampleCode true).restrict Alone) tr s ∧
    s.calls.map (fun c => [c.rsp, c.limit]) = [[0x30100, 0x300a0]] ∧
    Reentrant exampleCode true s := by
  obtain ⟨tr, s, h, he⟩ := Run.exists_of_exec
    (S := (wrapperSystem exampleCode true).restrict Alone)
    (fun _ _ => may_of_allowedAlone (k := 0x1000)) (resumeFirst ++ grownCall) (s := start)
    ⟨⟨rfl, rfl, fun _ => rfl, fun _ => rfl⟩, rfl, rfl⟩
    (fun p => (p.1.calls.map (fun c => [c.rsp, c.limit]), p.1.base.m.stack_top))
    (b := ([[0x30100, 0x300a0]], 0)) (by decide +kernel)
  obtain ⟨hcalls, htop⟩ := Prod.mk.inj he
  exact ⟨tr, s, h, hcalls, (wrappers_iff h).mpr fun hlimit => absurd htop hlimit⟩

/-- After the nested call `0x1000` gets the stack and the limit of `0x2000`. -/
theorem not_reentrant : ¬ ∀ (code : Code) (ndebug : Bool) (tr : List CoroutineRuns.Event)
    (s : SyscallWrappers.State), Run (wrapperSystem code ndebug) tr s →
      Reentrant code ndebug s := by
  intro hall
  obtain ⟨tr, s, h, he⟩ := Run.exists_of_exec (S := wrapperSystem exampleCode true)
    (fun _ _ => may_of_allowedWrapper) (resumeFirst ++ nestedCall) (s := start)
    ⟨⟨rfl, rfl, fun _ => rfl, fun _ => rfl⟩, rfl, rfl⟩
    (fun p => (p.1.calls.map (fun c => c.rsp), userCode exampleCode p.1.base.m.rip,
      allowedWrapper exampleCode true p.1 .wrapperReturn,
      (SyscallWrappers.step exampleCode true p.1 .wrapperReturn).map fun q => q.1.base.m.rsp))
    (b := ([0x10100], true, true, some 0x20108)) (by decide +kernel)
  simp only [Prod.mk.injEq] at he
  obtain ⟨hcalls, huser, hallowed, hstep⟩ := he
  obtain ⟨c, hc, hrsp⟩ := List.map_eq_singleton_iff.mp hcalls
  obtain ⟨s', e, hs, hreturn, -⟩ := (hall _ _ tr s h).returns c [] hc huser
    (may_of_allowedWrapper hallowed)
  rw [hs, Option.map_some, hreturn, hrsp] at hstep
  exact absurd hstep (by decide)

end Libseff.SyscallWrapperRuns
