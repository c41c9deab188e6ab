import Libseff.CoroutineSim
import Mathlib.Data.List.ReduceOption

namespace Libseff.CoroutineRefine

open LinkedLists TransitionRuns ShallowHandlers CoroutineMachine CoroutineRuns CoroutineSim

abbrev handlers :
    System (Handlers Word Context) CoroutineOp (CoroutineOp × Option CoroutineDelivery) :=
  shallowHandlers Word Context (Word × Word) Word

def Performs (a : Handlers Word Context) (e : Event) (a' : Handlers Word Context) : Prop :=
  match e with
  | none => a' = a
  | some (o, d) => handlers.may a o ∧ apply a o = some (a', d)

variable {code : Code} {ndebug : Bool} {s s' : State} {a : Handlers Word Context}

theorem sim_prelude (h : Sim code s a) (hrip : s.m.rip = code.coroutine_prelude) :
    Sim code ⟨coroutinePrelude code s.m, s.status, Function.update s.entered
      s.m.current_coroutine (some (callContext (coroutinePrelude code s.m)))⟩ a := by
  have hproper := h.proper (by simp [userCode, context, hrip])
  have hsim := sim_user h (m := coroutinePrelude code s.m) rfl rfl fun _ => hproper
  refine ⟨hsim.distinct, hsim.null, hsim.stack, hsim.waiting, hsim.captured, hsim.status,
    hsim.proper_frames, hsim.proper_captured, hsim.proper, fun k c hc => ?_⟩
  by_cases hk : k = s.m.current_coroutine
  · subst hk
    simp only [Function.update_self, Option.some.injEq] at hc
    subst hc
    exact hproper
  · simp only [Function.update_of_ne hk] at hc
    exact h.entered k c hc

theorem sim_preludeReturn (ndebug : Bool) (h : Sim code s a)
    (hrip : s.m.rip = code.prelude_return) : ∃ a',
    apply a (.exit s.m.r13 (RETURN_EFFECT_ID, s.m.rax)) =
      some (a', request (seffExit ndebug (preludeReturn s.m))) ∧
    Sim code (exitStep ndebug s (preludeReturn s.m)).1 a' := by
  obtain ⟨hr13, hnull⟩ := h.proper (by simp [userCode, context, hrip])
  have hsim := sim_user h (m := preludeReturn s.m) rfl rfl fun _ => ⟨hr13, hnull⟩
  have hmem : s.m.r13 ∈ names a.stack := by
    have hstack := h.stack
    cases hn : names a.stack with
    | nil =>
      rw [hn] at hstack
      exact absurd hstack hnull
    | cons g l =>
      rw [hn] at hstack
      have hg : s.m.r13 = g := hr13.trans hstack.1
      exact hg ▸ List.mem_cons_self
  exact sim_exit ndebug hsim hmem

theorem sim_step (h : Sim code s a) {act : Action} {e : Event} (hm : may code s act)
    (hs : step code ndebug s act = some (s', e)) : ∃ a', Sim code s' a' ∧ Performs a e a' := by
  cases step_cases hs with
  | init k fn arg frame_size stack =>
    obtain ⟨a', hnew, happly, hsim⟩ := sim_init h hm.1 hm.2 fn arg frame_size stack
    exact ⟨a', hsim, hnew, happly⟩
  | user m =>
    refine ⟨a, sim_user h rfl rfl fun hc => ?_, rfl⟩
    have hret : m.rip = code.prelude_return := by
      simpa [userCode, context, hm.1] using hc
    obtain ⟨c, hc, habi⟩ := hm.2 hret
    obtain ⟨hr13, hnull⟩ := h.entered _ c hc
    exact ⟨habi.2.2.2.1.trans hr13, hnull⟩
  | resume =>
    obtain ⟨a', happly, hsim⟩ := sim_resume h hm.1 hm.2
    exact ⟨a', hsim, trivial, happly⟩
  | yield =>
    obtain ⟨fuel, hreach⟩ := hm.2
    obtain ⟨a', happly, hsim⟩ := sim_yield h hm.1 (mem_names_of_reaches h.stack hreach)
    exact ⟨a', hsim, trivial, happly⟩
  | exit =>
    obtain ⟨fuel, hreach⟩ := hm
    obtain ⟨a', happly, hsim⟩ := sim_exit ndebug h (mem_names_of_reaches h.stack hreach)
    exact ⟨a', hsim, trivial, happly⟩
  | performDefault => exact ⟨a, h, rfl⟩
  | @perform fuel handler hlocate hne m hcall =>
    subst hcall
    have hsim := sim_user h (m := { s.m with rdi := handler, rsi := s.m.rdi, rdx := s.m.rsi })
      rfl rfl h.proper
    obtain ⟨a', happly, hsim⟩ := sim_yield hsim hm (mem_names_of_locate h.stack hlocate hne)
    exact ⟨a', hsim, trivial, happly⟩
  | @throw fuel handler hlocate hne m hcall =>
    subst hcall
    have hsim := sim_user h (m := { s.m with rdi := handler, rsi := s.m.rdi, rdx := s.m.rsi })
      rfl rfl h.proper
    obtain ⟨a', happly, hsim⟩ := sim_exit ndebug hsim (mem_names_of_locate h.stack hlocate hne)
    exact ⟨a', hsim, trivial, happly⟩
  | discard k =>
    obtain ⟨a', happly, hsim⟩ := sim_discard h hm
    exact ⟨a', hsim, trivial, happly⟩
  | prelude hrip => exact ⟨a, sim_prelude h hrip, rfl⟩
  | preludeReturn hrip =>
    obtain ⟨a', happly, hsim⟩ := sim_preludeReturn ndebug h hrip
    exact ⟨a', hsim, trivial, happly⟩

theorem sim_start (hinit : (coroutineSystem code ndebug).init s) :
    Sim code s ⟨[], fun _ => none⟩ where
  distinct := (run_traced (Run.start (S := handlers) rfl)).1
  null := hinit.2.2.1 NULL
  stack := hinit.1
  waiting x g c hmem := by cases x <;> cases hmem
  captured k l c hk := by cases hk
  status k := by simp [hinit.2.2.1 k]
  proper_frames x g c hmem := by cases x <;> cases hmem
  proper_captured k l c hk := by cases hk
  proper := proper_of_userCode hinit.2.1
  entered k c hc := by
    rw [hinit.2.2.2 k] at hc
    cases hc

theorem observed_append (tr : List Event) (e : Event) :
    observed (tr ++ [e]) = observed tr ++ e.toList := by
  rw [observed, observed, List.reduceOption_append, List.reduceOption_singleton]

/-- Every run of the machine is a run of the handlers, with the same operations
and the same deliveries. -/
theorem run_refines {tr : List Event} (h : Run (coroutineSystem code ndebug) tr s) :
    ∃ a, Run handlers (observed tr) a ∧ Sim code s a := by
  refine Run.invariant (fun tr s => ∃ a, Run handlers (observed tr) a ∧ Sim code s a) ?_ ?_ h
  · exact fun s hinit => ⟨_, Run.start rfl, sim_start hinit⟩
  · rintro tr s act s' e ⟨a, hrun, hsim⟩ hm hs
    obtain ⟨a', hsim', hperf⟩ := sim_step hsim hm hs
    refine ⟨a', ?_, hsim'⟩
    rw [observed_append]
    cases e with
    | none =>
      obtain rfl := hperf
      simpa using hrun
    | some e =>
      obtain ⟨o, d⟩ := e
      obtain ⟨hmay, happly⟩ := hperf
      refine Run.next hrun (a := o) hmay ?_
      simp [shallowHandlers, happly]

end Libseff.CoroutineRefine
