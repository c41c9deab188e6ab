import Libseff.CoroutineContexts

namespace Libseff.ResumeGuards

open LinkedLists TransitionRuns ShallowHandlers CoroutineMachine CoroutineRuns CoroutineSim
  CoroutineRefine CoroutineContexts

section Guards

variable (code : Code) (ndebug : Bool)

/-- The obligations of programs that look at the `state` field before a resume.
They release no coroutine. -/
def mayGuarded (s : State) : Action → Prop
  | .resume =>
    userCode code (s.m.memory s.m.rsp) = true ∧ s.status s.m.rdi ≠ .unborn ∧
      (s.m.coroutines s.m.rdi).state = .paused
  | .discard _ => False
  | act => may code s act

def guardedSystem : System State Action Event :=
  { coroutineSystem code ndebug with may := mayGuarded code }

def resumed (s : State) : State :=
  ⟨seffResumeUnwrapped s.m, Function.update s.status s.m.rdi .active, s.entered⟩

/-- After the operations `os` a resume of `rdi` enters its start function for the
first time, or goes on behind the yield that was the last thing done to it. -/
structure ResumesRightly (os : List (CoroutineOp × Option CoroutineDelivery)) (s : State) :
    Prop where
  continues :
    (∃ fn arg frame_size stack,
      lastOp s.m.rdi os = some (.create s.m.rdi
        (startContext code s.m.rdi fn arg frame_size stack)) ∧
      context (resumed s).m = startContext code s.m.rdi fn arg frame_size stack ∧
      ∃ u, step code ndebug (resumed s) .prelude = some (u, none) ∧ u.m.rip = fn ∧
        u.m.rdi = arg) ∨
    ∃ x, lastOp s.m.rdi os = some (.perform s.m.rdi x (context (resumed s).m))
  off_chain : ¬ OnChain s.m s.m.rdi

end Guards

/-- A resume does not name a coroutine that was resumed since the last yield to
it: one that runs, was captured inside another one, or was thrown away. -/
def NotRunning (s : State) (act : Action) : Prop := act = .resume → s.status s.m.rdi ≠ .active

def statusAfter : CoroutineOp → Status
  | .create .. => .fresh
  | .resume .. => .active
  | .perform .. => .suspended
  | .exit .. => .finished
  | .discard _ => .discarded

structure Stated (s : State) : Prop where
  finished : ∀ k, s.status k = .finished → (s.m.coroutines k).state = .finished
  kept : ∀ k, s.status k ≠ .discarded

variable {code : Code} {ndebug : Bool} {s s' : State}

theorem status_transition {e : Event} (hs : Transition code ndebug s s' e) :
    s'.status = e.elim s.status fun p =>
      Function.update s.status (subject p.1) (statusAfter p.1) := by
  cases hs with
  | silent hco hst => exact hst
  | create | resume | yield | exit | discard => rfl

theorem status_eq {tr : List Event} (h : Run (coroutineSystem code ndebug) tr s) (k : Word) :
    s.status k = (lastOp k (observed tr)).elim .unborn statusAfter := by
  refine Run.invariant (fun tr s => s.status k = (lastOp k (observed tr)).elim .unborn statusAfter)
    ?_ ?_ h
  · intro s hinit
    exact hinit.2.2.1 k
  intro tr s act s' e hi _ hs
  rw [status_transition (step_transition hs), observed_append]
  cases e with
  | none => rwa [Option.toList_none, List.append_nil, Option.elim_none]
  | some p =>
    rw [Option.toList_some, lastOp_append, Option.elim_some]
    by_cases hk : subject p.1 = k
    · subst hk
      rw [if_pos rfl, Function.update_self, Option.elim_some]
    · rwa [if_neg hk, Function.update_of_ne (Ne.symm hk)]

theorem stated_step (h : Stated s) {act : Action} {e : Event} (hm : mayGuarded code s act)
    (hs : step code ndebug s act = some (s', e)) : Stated s' := by
  have hkeep : ∀ (k : Word) (x : Status), x ≠ .finished → x ≠ .discarded →
      s'.status = Function.update s.status k x →
      (∀ g, g ≠ k → (s'.m.coroutines g).state = (s.m.coroutines g).state) → Stated s' := by
    intro k x hfin hdis hst hco
    refine ⟨fun g hg => ?_, fun g => ?_⟩
    · rw [hst] at hg
      by_cases hgk : g = k
      · subst hgk
        rw [Function.update_self] at hg
        exact absurd hg hfin
      · rw [Function.update_of_ne hgk] at hg
        rw [hco g hgk]
        exact h.finished g hg
    · rw [hst]
      by_cases hgk : g = k
      · subst hgk
        rwa [Function.update_self]
      · rw [Function.update_of_ne hgk]
        exact h.kept g
  have hmove := step_transition hs
  cases hmove with
  | silent hco hst =>
    refine ⟨fun k hk => ?_, fun k => hst ▸ h.kept k⟩
    rw [hco]
    exact h.finished k (hst ▸ hk)
  | create k fn arg frame_size stack =>
    refine hkeep k .fresh (by simp) (by simp) rfl fun g hg => ?_
    simp only [seffCoroutineInitSized, Function.update_of_ne hg]
  | resume =>
    exact hkeep s.m.rdi .active (by simp) (by simp) rfl fun g _ => state_seffResumeUnwrapped s.m g
  | yield m hco =>
    refine hkeep m.rdi .suspended (by simp) (by simp) rfl fun g _ => ?_
    rw [state_seffYield, hco]
  | exit m hco =>
    refine ⟨fun g hg => ?_, fun g => ?_⟩
    · by_cases hgk : g = m.rdi
      · rw [hgk]
        exact state_seffExit ndebug m
      · simp only [Function.update_of_ne hgk] at hg
        rw [coroutines_seffExit ndebug hgk, hco]
        exact h.finished g hg
    · by_cases hgk : g = m.rdi
      · simp [hgk]
      · simp only [Function.update_of_ne hgk]
        exact h.kept g
  | discard k =>
    obtain rfl := discard_of_event hs
    exact hm.elim

theorem waits_of_paused (h : Stated s) {k : Word} (hborn : s.status k ≠ .unborn)
    (hpaused : (s.m.coroutines k).state = .paused) (hactive : s.status k ≠ .active) :
    s.status k = .fresh ∨ s.status k = .suspended := by
  cases hst : s.status k with
  | fresh => exact .inl rfl
  | suspended => exact .inr rfl
  | unborn => exact absurd hst hborn
  | active => exact absurd hst hactive
  | discarded => exact absurd hst (h.kept k)
  | finished =>
    rw [h.finished k hst] at hpaused
    cases hpaused

theorem may_of_guarded (h : Stated s) {act : Action} (hm : mayGuarded code s act)
    (hrun : NotRunning s act) : may code s act := by
  cases act with
  | resume => exact ⟨hm.1, waits_of_paused h hm.2.1 hm.2.2 (hrun rfl)⟩
  | discard => exact hm.elim
  | init | user | yield | exit | perform | throw | prelude | preludeReturn => exact hm

/-- As long as no running coroutine is resumed, the `state` field keeps the
programs to their obligations. -/
theorem run_guarded {tr : List Event}
    (h : Run ((guardedSystem code ndebug).restrict NotRunning) tr s) :
    Run (coroutineSystem code ndebug) tr s ∧ Stated s := by
  induction h with
  | start hinit =>
    refine ⟨Run.start hinit, fun k hk => ?_, fun k hk => ?_⟩
    · rw [hinit.2.2.1 k] at hk
      cases hk
    · rw [hinit.2.2.1 k] at hk
      cases hk
  | next _ hm hs ih =>
    obtain ⟨hrun, hstated⟩ := ih
    exact ⟨Run.next hrun (may_of_guarded hstated hm.1 hm.2) hs, stated_step hstated hm.1 hs⟩

theorem lastOp_of_status {tr : List Event} (h : Run (coroutineSystem code ndebug) tr s) {k : Word} :
    (s.status k = .fresh → lastOp k (observed tr) = some (.create k (suspended s.m k))) ∧
    (s.status k = .suspended →
      ∃ x, lastOp k (observed tr) = some (.perform k x (suspended s.m k))) := by
  have hleft := run_left h
  have heq := status_eq h k
  have hcreate : ∀ o : CoroutineOp, subject o ≠ k → createOf k o = none := by
    rintro (⟨j, c⟩ | _ | _ | _ | _) ho
    · exact if_neg ho
    all_goals rfl
  have hperform : ∀ o : CoroutineOp, subject o ≠ k → performOf k o = none := by
    rintro (_ | _ | ⟨j, x, c⟩ | _ | _) ho
    · rfl
    · rfl
    · exact if_neg ho
    all_goals rfl
  cases ho : lastOp k (observed tr) with
  | none =>
    rw [ho, Option.elim_none] at heq
    simp [heq]
  | some o =>
    rw [ho, Option.elim_some] at heq
    have hk := subject_of_lastOp ho
    cases o with
    | create j c =>
      obtain rfl : j = k := hk
      refine ⟨fun hst => ?_, fun hst => by rw [heq] at hst; cases hst⟩
      have hc := lastContext_of_lastOp hcreate ho (if_pos rfl)
      cases hc.symm.trans (hleft.fresh j hst).1
      rfl
    | perform j x c =>
      obtain rfl : j = k := hk
      refine ⟨fun hst => (by rw [heq] at hst; cases hst), fun hst => ⟨x, ?_⟩⟩
      have hc := lastContext_of_lastOp hperform ho (if_pos rfl)
      cases hc.symm.trans (hleft.suspended j hst)
      rfl
    | resume | exit | discard => simp [heq, statusAfter]

theorem not_onChain {tr : List Event} (h : Run (coroutineSystem code ndebug) tr s) {k : Word}
    (hk : s.status k ≠ .active) : ¬ OnChain s.m k := by
  rintro ⟨fuel, hreach⟩
  obtain ⟨a, -, hsim⟩ := run_refines h
  obtain ⟨⟨g, c⟩, hmem, rfl⟩ := List.mem_map.mp (mem_names_of_reaches hsim.stack hreach)
  exact hk (hsim.waiting none g c hmem).2

/-- A resume that the `state` field lets through does the right thing if and
only if the coroutine was not resumed since the last yield to it. -/
theorem guard_iff {tr : List Event}
    (h : Run ((guardedSystem code ndebug).restrict NotRunning) tr s)
    (hm : mayGuarded code s .resume) :
    ResumesRightly code ndebug (observed tr) s ↔ s.status s.m.rdi ≠ .active := by
  obtain ⟨hrun, hstated⟩ := run_guarded h
  have hcontext : context (resumed s).m = suspended s.m s.m.rdi := context_seffResumeUnwrapped s.m
  constructor
  · intro hright hactive
    have heq := status_eq hrun s.m.rdi
    rw [hactive] at heq
    obtain ⟨fn, arg, frame_size, stack, hlast, -⟩ | ⟨x, hlast⟩ := hright.continues
    · rw [hlast] at heq
      cases heq
    · rw [hlast] at heq
      cases heq
  · intro hactive
    refine ⟨?_, not_onChain hrun hactive⟩
    obtain hst | hst := waits_of_paused hstated hm.2.1 hm.2.2 hactive
    · left
      have hlast := (lastOp_of_status hrun).1 hst
      obtain ⟨-, fn, arg, frame_size, stack, hstart⟩ := (run_left hrun).fresh _ hst
      rw [hstart] at hlast hcontext
      obtain ⟨-, u, hu, hrip, hrdi, -⟩ := enters_start hcontext
      exact ⟨fn, arg, frame_size, stack, hlast, hcontext, u, hu, hrip, hrdi⟩
    · right
      rw [hcontext]
      exact (lastOp_of_status hrun).2 hst

def isPaused : CoroutineState → Bool
  | .paused => true
  | .finished | .running => false

def allowedGuarded (code : Code) (s : State) : Action → Bool
  | .resume =>
    userCode code (s.m.memory s.m.rsp) && decide (s.status s.m.rdi ≠ .unborn) &&
      isPaused (s.m.coroutines s.m.rdi).state && decide (s.status s.m.rdi ≠ .active)
  | .discard _ => false
  | act => allowed code s act

theorem paused_of_isPaused {x : CoroutineState} (h : isPaused x = true) : x = .paused := by
  cases x with
  | paused => rfl
  | finished | running => cases h

theorem guarded_of_allowed {act : Action} (h : allowedGuarded code s act = true) :
    mayGuarded code s act ∧ NotRunning s act := by
  cases act with
  | resume =>
    simp only [allowedGuarded, Bool.and_eq_true, decide_eq_true_eq] at h
    obtain ⟨⟨⟨hret, hborn⟩, hpaused⟩, hactive⟩ := h
    exact ⟨⟨hret, hborn, paused_of_isPaused hpaused⟩, fun _ => hactive⟩
  | discard => cases h
  | init | user | yield | exit | perform | throw | prelude | preludeReturn =>
    have hmay : may code s _ := may_of_allowed (by simpa only [allowedGuarded] using h)
    exact ⟨hmay, by simp [NotRunning]⟩

theorem run_paused (acts : List Action) (st : Status) (onChain : Bool) (hst : st ≠ .unborn)
    (he : (exec ((guardedSystem exampleCode true).restrict NotRunning) (allowedGuarded exampleCode)
      ⟨idle, fun _ => .unborn, fun _ => none⟩ acts).map
        (fun p => (userCode exampleCode (p.1.m.memory p.1.m.rsp),
          isPaused (p.1.m.coroutines p.1.m.rdi).state, p.1.status p.1.m.rdi,
          reaches p.1.m p.1.m.rdi 8 p.1.m.current_coroutine)) = some (true, true, st, onChain)) :
    ∃ tr s, Run ((guardedSystem exampleCode true).restrict NotRunning) tr s ∧
      mayGuarded exampleCode s .resume ∧ s.status s.m.rdi = st ∧
      reaches s.m s.m.rdi 8 s.m.current_coroutine = onChain := by
  obtain ⟨tr, s, h, he⟩ := Run.exists_of_exec
    (S := (guardedSystem exampleCode true).restrict NotRunning)
    (fun _ _ => guarded_of_allowed) acts ⟨rfl, rfl, fun _ => rfl, fun _ => rfl⟩ _ he
  simp only [Prod.mk.injEq] at he
  obtain ⟨hret, hpaused, hs, hreach⟩ := he
  exact ⟨tr, s, h, ⟨hret, hs ▸ hst, paused_of_isPaused hpaused⟩, hs, hreach⟩

/-- `0x1000` has captured `0x2000` and is resumed again. -/
theorem guard_captured : ∃ tr s,
    Run ((guardedSystem exampleCode true).restrict NotRunning) tr s ∧
    s.status s.m.rdi = .suspended ∧ ResumesRightly exampleCode true (observed tr) s := by
  obtain ⟨tr, s, h, hm, hst, -⟩ := run_paused
    (nestedYield ++ [.user { idle with rdi := 0x1000, rsi := 0x99, rsp := 0x8000, rip := 0x402 }])
    .suspended false (by decide) (by decide +kernel)
  exact ⟨tr, s, h, hst, (guard_iff h hm).mpr (by rw [hst]; decide)⟩

/-- A coroutine resumes itself: its `state` still reads `PAUSED`. -/
theorem not_guarded : ¬ ∀ (code : Code) (ndebug : Bool) (tr : List Event) (s : State),
    Run (guardedSystem code ndebug) tr s → mayGuarded code s .resume →
      ResumesRightly code ndebug (observed tr) s := by
  intro hall
  obtain ⟨tr, s, h, hm, -, hreach⟩ := run_paused
    [.init 0x1000 0x500 7 256 0x10000, .user { idle with rdi := 0x1000, rsp := 0x8000 }, .resume,
      .prelude, .user { idle with rdi := 0x1000, rsp := 0x10100, rip := 0x501 }]
    .active true (by decide) (by decide +kernel)
  exact (hall _ _ tr s (Run.of_restrict h) hm).off_chain ⟨8, hreach⟩

end Libseff.ResumeGuards
