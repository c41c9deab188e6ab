import Libseff.CoroutineHandlers

namespace Libseff.CoroutineContexts

open TransitionRuns ShallowHandlers CoroutineMachine CoroutineRuns CoroutineSim CoroutineRefine
  CoroutineHandlers

/-- The context in which a coroutine waits to be resumed is the one in which it
was initialised, or the one of the last yield to it. -/
structure Left (code : Code) (os : List (CoroutineOp × Option CoroutineDelivery)) (s : State) :
    Prop where
  fresh : ∀ g, s.status g = .fresh → lastContext (createOf g) os = some (suspended s.m g) ∧
    ∃ fn arg frame_size stack, suspended s.m g = startContext code g fn arg frame_size stack
  suspended : ∀ g, s.status g = .suspended →
    lastContext (performOf g) os = some (suspended s.m g)

variable {code : Code} {ndebug : Bool} {s s' : State}

theorem left_silent {os : List (CoroutineOp × Option CoroutineDelivery)} (h : Left code os s)
    (hco : s'.m.coroutines = s.m.coroutines) (hst : s'.status = s.status) : Left code os s' := by
  refine ⟨fun g hg => ?_, fun g hg => ?_⟩
  · rw [suspended_congr (congrFun hco g)]
    exact h.fresh g (hst ▸ hg)
  · rw [suspended_congr (congrFun hco g)]
    exact h.suspended g (hst ▸ hg)

theorem left_op {os : List (CoroutineOp × Option CoroutineDelivery)} {o : CoroutineOp}
    {d : Option CoroutineDelivery} (h : Left code os s) {k : Word}
    (hother : ∀ g, g ≠ k → s'.m.coroutines g = s.m.coroutines g ∧ s'.status g = s.status g ∧
      createOf g o = none ∧ performOf g o = none)
    (hfresh : s'.status k = .fresh → createOf k o = some (suspended s'.m k) ∧
      ∃ fn arg frame_size stack, suspended s'.m k = startContext code k fn arg frame_size stack)
    (hsus : s'.status k = .suspended → performOf k o = some (suspended s'.m k)) :
    Left code (os ++ [(o, d)]) s' := by
  refine ⟨fun g hg => ?_, fun g hg => ?_⟩
  · rw [lastContext_append]
    by_cases hgk : g = k
    · subst hgk
      obtain ⟨hcreate, hstart⟩ := hfresh hg
      rw [hcreate]
      exact ⟨rfl, hstart⟩
    · obtain ⟨hco, hst, hcreate, -⟩ := hother g hgk
      rw [hcreate, suspended_congr hco]
      exact h.fresh g (hst ▸ hg)
  · rw [lastContext_append]
    by_cases hgk : g = k
    · subst hgk
      rw [hsus hg]
      rfl
    · obtain ⟨hco, hst, -, hperform⟩ := hother g hgk
      rw [hperform, suspended_congr hco]
      exact h.suspended g (hst ▸ hg)

theorem left_step {os : List (CoroutineOp × Option CoroutineDelivery)} (h : Left code os s)
    {e : Event} (hs : Transition code ndebug s s' e) : Left code (os ++ e.toList) s' := by
  cases hs with
  | silent hco hst =>
    rw [Option.toList_none, List.append_nil]
    exact left_silent h hco hst
  | create k fn arg frame_size stack =>
    refine left_op h (k := k) (fun g hg => ⟨Function.update_of_ne hg ..,
      Function.update_of_ne hg .., if_neg (Ne.symm hg), rfl⟩) ?_ ?_
    · intro _
      rw [suspended_init]
      exact ⟨if_pos rfl, fn, arg, frame_size, stack, rfl⟩
    · intro hst
      simp at hst
  | resume =>
    refine left_op h (k := s.m.rdi) (fun g hg => ⟨coroutines_seffResumeUnwrapped hg,
      Function.update_of_ne hg .., rfl, rfl⟩) ?_ ?_
    · intro hst
      simp at hst
    · intro hst
      simp at hst
  | yield m hco =>
    refine left_op h (k := m.rdi) (fun g hg => ⟨?_, Function.update_of_ne hg .., rfl, ?_⟩) ?_ ?_
    · exact (coroutines_seffYield hg).trans (congrFun hco g)
    · exact if_neg (Ne.symm hg)
    · intro hst
      simp at hst
    · intro _
      simp only [performOf, if_true, suspended_seffYield]
  | exit m hco =>
    refine left_op h (k := m.rdi) (fun g hg => ⟨?_, Function.update_of_ne hg .., rfl, rfl⟩) ?_ ?_
    · exact (coroutines_seffExit ndebug hg).trans (congrFun hco g)
    · intro hst
      simp at hst
    · intro hst
      simp at hst
  | discard k =>
    refine left_op h (k := k) (fun g hg => ⟨rfl, Function.update_of_ne hg .., rfl, rfl⟩) ?_ ?_
    · intro hst
      simp at hst
    · intro hst
      simp at hst

theorem run_left {tr : List Event} (h : Run (coroutineSystem code ndebug) tr s) :
    Left code (observed tr) s := by
  refine Run.invariant (fun tr s => Left code (observed tr) s) ?_ ?_ h
  · intro s hinit
    refine ⟨fun g hg => ?_, fun g hg => ?_⟩
    · rw [hinit.2.2.1 g] at hg
      cases hg
    · rw [hinit.2.2.1 g] at hg
      cases hg
  · intro tr s act s' e hl _ hs
    rw [observed_append]
    exact left_step hl (step_transition hs)

theorem returns_to_resume {tr : List Event} (h : Run (coroutineSystem code ndebug) tr s)
    {act : Action} {k : Word} {x : Word × Word} {d : Option CoroutineDelivery}
    (hm : may code s act)
    (hs : (∃ c, step code ndebug s act = some (s', some (.perform k x c, d))) ∨
      step code ndebug s act = some (s', some (.exit k x, d))) :
    s.status k = .active ∧ lastContext (resumeOf k) (observed tr) = some (context s'.m) ∧
      (s'.m.rax, s'.m.rdx) = x := by
  obtain ⟨a, hrun, hsim⟩ := run_refines h
  have hreturn : ∀ {f : List (Word × Context) × Context × List (Word × Context) →
      Handlers Word Context} {a' : Handlers Word Context} {m : Machine},
      (splitAt k a.stack).map (fun p => (f p, some (Delivery.request p.2.1 x))) =
        some (a', request m) →
      s.status k = .active ∧ lastContext (resumeOf k) (observed tr) = some (context m) ∧
        (m.rax, m.rdx) = x := by
    intro f a' m happly
    obtain ⟨p, hp, he⟩ := Option.map_eq_some_iff.mp happly
    simp only [request, Prod.mk.injEq, Option.some.injEq, Delivery.request.injEq] at he
    obtain ⟨-, hc, hx⟩ := he
    rw [← hc]
    exact ⟨(hsim.waiting none _ _ (frame_of_split hp)).2,
      (run_traced hrun).2 none _ _ (frame_of_split hp), hx.symm⟩
  obtain ⟨c, hs⟩ | hs := hs
  · have hmove := step_transition hs
    cases hmove with
    | yield m =>
      obtain ⟨a', -, -, happly⟩ := sim_step hsim hm hs
      exact hreturn happly
  · have hmove := step_transition hs
    cases hmove with
    | exit m =>
      obtain ⟨a', -, -, happly⟩ := sim_step hsim hm hs
      exact hreturn happly

theorem enters_start {k fn arg frame_size stack : Word}
    (hc : context s.m = startContext code k fn arg frame_size stack) :
    (∀ act, act ≠ .prelude → step code ndebug s act = none) ∧
    ∃ s', step code ndebug s .prelude = some (s', none) ∧ s'.m.rip = fn ∧ s'.m.rdi = arg ∧
      s'.m.current_coroutine = k ∧ s'.m.stack_top = stack + 160 ∧ (s'.m.rsp + 8) % 16 = 0 ∧
      s'.m.memory s'.m.rsp = code.prelude_return := by
  have hrip : s.m.rip = code.coroutine_prelude := congrArg Context.ip hc
  have huser : userCode code s.m.rip = false := by simp [userCode, hrip]
  refine ⟨fun act hact => ?_, _, if_pos hrip, congrArg Context.r15 hc, congrArg Context.r14 hc,
    congrArg Context.current_coroutine hc, ?_, ?_, Function.update_self ..⟩
  · cases act with
    | prelude => exact absurd rfl hact
    | preludeReturn =>
      simp only [step, hrip, if_neg code.prelude_ne]
    | init | user | resume | yield | exit | perform | throw | discard =>
      simp only [step, huser, Bool.false_eq_true, if_false]
  · exact (congrArg Context.stack_top hc).trans (startContext_stack_top ..)
  · have hrsp : s.m.rsp = (startContext code k fn arg frame_size stack).rsp :=
      congrArg Context.rsp hc
    simp only [coroutinePrelude, push, BitVec.sub_add_cancel, hrsp]
    exact startContext_aligned ..

theorem contexts_run {tr : List Event} (h : Run (coroutineSystem code ndebug) tr s) :
    (∀ act s' k x d, may code s act →
      ((∃ c, step code ndebug s act = some (s', some (.perform k x c, d))) ∨
        step code ndebug s act = some (s', some (.exit k x, d))) →
      s.status k = .active ∧ lastContext (resumeOf k) (observed tr) = some (context s'.m) ∧
        (s'.m.rax, s'.m.rdx) = x) ∧
    (∀ act s' k v c d, may code s act →
      step code ndebug s act = some (s', some (.resume k v c, d)) → s.status k = .suspended →
      lastContext (performOf k) (observed tr) = some (context s'.m) ∧ s'.m.rax = v) ∧
    (∀ act s' k v c d, may code s act →
      step code ndebug s act = some (s', some (.resume k v c, d)) → s.status k = .fresh →
      ∃ fn arg frame_size stack,
        lastContext (createOf k) (observed tr) =
          some (startContext code k fn arg frame_size stack) ∧
        context s'.m = startContext code k fn arg frame_size stack ∧
        (∀ b, b ≠ .prelude → step code ndebug s' b = none) ∧
        ∃ u, step code ndebug s' .prelude = some (u, none) ∧ u.m.rip = fn ∧ u.m.rdi = arg ∧
          u.m.current_coroutine = k ∧ u.m.stack_top = stack + 160 ∧ (u.m.rsp + 8) % 16 = 0 ∧
          u.m.memory u.m.rsp = code.prelude_return) ∧
    (∀ s' e, step code ndebug s .preludeReturn = some (s', e) →
      ∃ d, e = some (.exit s.m.current_coroutine (RETURN_EFFECT_ID, s.m.rax), d)) := by
  have hleft := run_left h
  refine ⟨fun act s' k x d hm hs => returns_to_resume h hm hs, ?_, ?_, ?_⟩
  · intro act s' k v c d hm hs hst
    have hmove := step_transition hs
    cases hmove with
    | resume =>
      rw [context_seffResumeUnwrapped]
      exact ⟨hleft.suspended _ hst, result_seffResumeUnwrapped s.m⟩
  · intro act s' k v c d hm hs hst
    have hmove := step_transition hs
    cases hmove with
    | resume =>
      obtain ⟨hcreate, fn, arg, frame_size, stack, hstart⟩ := hleft.fresh _ hst
      have hc : context (seffResumeUnwrapped s.m) =
          startContext code s.m.rdi fn arg frame_size stack := by
        rw [context_seffResumeUnwrapped, hstart]
      rw [hstart] at hcreate
      exact ⟨fn, arg, frame_size, stack, hcreate, hc, enters_start hc⟩
  · intro s' e hs
    obtain ⟨a, -, hsim⟩ := run_refines h
    cases step_cases hs with
    | preludeReturn hrip =>
      have hr13 := (hsim.proper (by simp [userCode, context, hrip])).1
      exact ⟨_, by rw [← show s.m.r13 = s.m.current_coroutine from hr13]; rfl⟩

/-- The yield of `0x2000` to `0x1000` returns when `0x1000` is resumed with `0x99`. -/
theorem contexts_run_nested : ∃ tr s, Run (coroutineSystem exampleCode true) tr s ∧
    [s.m.rdi, s.m.rsi] = [0x1000, 0x99] ∧
    lastContext (performOf s.m.rdi) (observed tr) = some (context (seffResumeUnwrapped s.m)) ∧
    (seffResumeUnwrapped s.m).rax = s.m.rsi := by
  obtain ⟨tr, s, h, he⟩ := Run.exists_of_exec (S := coroutineSystem exampleCode true)
    (fun _ _ => may_of_allowed)
    (nestedYield ++ [.user { idle with rdi := 0x1000, rsi := 0x99, rsp := 0x8000, rip := 0x402 }])
    (s := ⟨idle, fun _ => .unborn, fun _ => none⟩) ⟨rfl, rfl, fun _ => rfl, fun _ => rfl⟩
    (fun p => ([p.1.m.rdi, p.1.m.rsi], userCode exampleCode p.1.m.rip,
      userCode exampleCode (p.1.m.memory p.1.m.rsp), p.1.status p.1.m.rdi))
    (b := ([0x1000, 0x99], true, true, .suspended)) (by decide +kernel)
  simp only [Prod.mk.injEq] at he
  obtain ⟨hregs, hrip, hret, hst⟩ := he
  exact ⟨tr, s, h, hregs,
    (contexts_run h).2.1 .resume _ _ _ _ _ ⟨hret, .inr hst⟩ (if_pos hrip) hst⟩

end Libseff.CoroutineContexts
