import Libseff.SegmentChains
import Libseff.StackGrowth

namespace Libseff.StackGrowthRuns

open LinkedLists TransitionRuns ShallowHandlers CoroutineMachine CoroutineRuns CoroutineSim
  CoroutineRefine ResumeGuards CoroutineStacks SegmentChains StackGrowth
open StackSegments (Heap fresh prevOf)
open SegmentRelease (release_spec)

def growths (k : Word) : List ℕ → List Growth
  | a :: b :: l => ⟨k, a, b⟩ :: growths k (b :: l)
  | _ => []

variable {code : Code} {ndebug : Bool} {min_segment_size : ℕ}

structure Holds (s : StackGrowth.State) (frames : Word → List ℕ) (tr : List StackGrowth.Event)
    (k stack_top : Word) (pending : List Growth) : Prop where
  null : k = NULL → stack_top = 0 ∧ pending = []
  limit : k ≠ NULL → (s.frame_ptr k, stack_top) ∈ limits tr ∧
    pending = growths k (s.frame_ptr k :: frames k)

structure Inv (code : Code) (tr : List StackGrowth.Event) (s : StackGrowth.State)
    (a : Handlers Word Context) (frames cached : Word → List ℕ) : Prop where
  sim : Sim code s.base a
  chains : Chains (fun k => s.base.status k ≠ .unborn) s.heap (chainOf s.frame_ptr frames cached)
  running : Holds s frames tr s.base.m.current_coroutine s.base.m.stack_top s.pending
  live : ∀ g c, Live a g c → Holds s frames tr c.current_coroutine c.stack_top (s.saved g)

theorem limits_append (tr : List StackGrowth.Event) (e : StackGrowth.Event) :
    limits (tr ++ [e]) = limits tr ++ e.limit.toList := by
  cases h : e.limit <;> simp [limits, h]

theorem Holds.congr {s s' : StackGrowth.State} {frames frames' : Word → List ℕ}
    {tr : List StackGrowth.Event} {k stack_top : Word} {pending : List Growth}
    (h : Holds s frames tr k stack_top pending) (e : StackGrowth.Event)
    (hk : k ≠ NULL → s'.frame_ptr k = s.frame_ptr k ∧ frames' k = frames k) :
    Holds s' frames' (tr ++ [e]) k stack_top pending := by
  refine ⟨h.null, fun hne => ?_⟩
  obtain ⟨hptr, hframes⟩ := hk hne
  obtain ⟨hmem, hpending⟩ := h.limit hne
  rw [hptr, hframes, limits_append]
  exact ⟨List.mem_append_left _ hmem, hpending⟩

variable {tr : List StackGrowth.Event} {s s' : StackGrowth.State} {a : Handlers Word Context}
  {frames cached : Word → List ℕ}

theorem inv_switch (h : Inv code tr s a frames cached) {base : CoroutineRuns.State}
    {a' : Handlers Word Context} {o : CoroutineOp} {d : CoroutineDelivery}
    (hsim : Sim code base a') (hm : handlers.may a o) (ho : ∀ k, o ≠ .discard k)
    (happly : apply a o = some (a', some d)) (hd : d.context = context base.m)
    (hsaves : ∀ c, saves o = some c → c.current_coroutine = s.base.m.current_coroutine ∧
      c.stack_top = s.base.m.stack_top)
    (hborn : ∀ k, base.status k ≠ .unborn → s.base.status k ≠ .unborn) :
    Inv code (tr ++ [⟨some (o, some d), none⟩]) ⟨base, s.heap, s.frame_ptr,
      (switch s.pending s.saved (some (o, some d))).1,
      (switch s.pending s.saved (some (o, some d))).2⟩ a' frames cached := by
  obtain ⟨hrun, hlive⟩ := switch_all h.sim hm ho happly hd hsaves h.running h.live
  exact ⟨hsim, h.chains.mono hborn, hrun.congr _ fun _ => ⟨rfl, rfl⟩,
    fun g c hg => (hlive g c hg).congr _ fun _ => ⟨rfl, rfl⟩⟩

theorem inv_silent (h : Inv code tr s a frames cached) {base : CoroutineRuns.State}
    (hsim : Sim code base a) (hcur : base.m.current_coroutine = s.base.m.current_coroutine)
    (htop : base.m.stack_top = s.base.m.stack_top) (hst : base.status = s.base.status) :
    Inv code (tr ++ [⟨none, none⟩]) ⟨base, s.heap, s.frame_ptr, s.pending, s.saved⟩ a frames
      cached := by
  refine ⟨hsim, h.chains.mono fun k hk => hst ▸ hk, ?_, fun g c hlive => ?_⟩
  · simp only [hcur, htop]
    exact h.running.congr _ fun _ => ⟨rfl, rfl⟩
  · exact (h.live g c hlive).congr _ fun _ => ⟨rfl, rfl⟩

theorem step_base {act : CoroutineRuns.Action}
    (hact : ∀ k fn arg frame_size stack, act ≠ .init k fn arg frame_size stack) :
    StackGrowth.step code ndebug min_segment_size s (.base act) =
      (CoroutineRuns.step code ndebug s.base act).map fun p =>
        (⟨p.1, s.heap, s.frame_ptr, (switch s.pending s.saved p.2).1,
          (switch s.pending s.saved p.2).2⟩, ⟨p.2, none⟩) := by
  cases act with
  | init k fn arg frame_size stack => exact absurd rfl (hact k fn arg frame_size stack)
  | user | resume | yield | exit | perform | throw | prelude | preludeReturn | discard => rfl

theorem may_base {act : CoroutineRuns.Action} (hm : StackGrowth.may code s (.base act)) :
    CoroutineRuns.may code s.base act ∧ (∀ k, act ≠ .discard k) ∧
      ∀ m, act = .user m → m.stack_top = s.base.m.stack_top := by
  cases act with
  | init => exact ⟨hm.1, by simp, by simp⟩
  | user m =>
    refine ⟨hm.1, by simp, fun m' he => ?_⟩
    cases he
    exact hm.2
  | discard => exact hm.elim
  | resume | yield | exit | perform | throw | prelude | preludeReturn =>
    exact ⟨hm, by simp, by simp⟩

theorem inv_base (h : Inv code tr s a frames cached) {act : CoroutineRuns.Action}
    {e : StackGrowth.Event} (hm : StackGrowth.may code s (.base act))
    (hact : ∀ k fn arg frame_size stack, act ≠ .init k fn arg frame_size stack)
    (hs : StackGrowth.step code ndebug min_segment_size s (.base act) = some (s', e)) :
    ∃ a', Inv code (tr ++ [e]) s' a' frames cached := by
  rw [step_base hact] at hs
  obtain ⟨⟨base, e⟩, hb, he⟩ := Option.map_eq_some_iff.mp hs
  cases he
  obtain ⟨hmay, hdiscard, huser⟩ := may_base hm
  obtain ⟨a', hsim, hperf⟩ := sim_step h.sim hmay hb
  have hst := status_transition (step_transition hb)
  cases step_kind hb with
  | init k fn arg frame_size stack he => exact absurd he (hact k fn arg frame_size stack)
  | discard k he => exact absurd he (hdiscard k)
  | silent hcur htop =>
    obtain rfl := hperf
    refine ⟨a', inv_silent h hsim hcur ?_ hst⟩
    obtain htop | ⟨m, rfl, htop⟩ := htop
    · exact htop
    · exact htop.trans (huser m rfl)
  | switch o d hd hsaves =>
    obtain ⟨hmay', happly⟩ := hperf
    have ho : ∀ k, o ≠ .discard k := by
      rintro k rfl
      exact hdiscard k (discard_of_event hb)
    refine ⟨a', inv_switch h hsim hmay' ho happly hd hsaves fun k hk => ?_⟩
    by_cases hko : k = subject o
    · rw [hko]
      exact status_of_live h.sim (live_delivery happly)
    · simp only [hst, Option.elim_some, Function.update_of_ne hko] at hk
      exact hk

theorem inv_init (h : Inv code tr s a frames cached) {k fn arg frame_size stack : Word}
    {e : StackGrowth.Event} (hm : StackGrowth.may code s (.base (.init k fn arg frame_size stack)))
    (hs : StackGrowth.step code ndebug min_segment_size s
      (.base (.init k fn arg frame_size stack)) = some (s', e)) :
    ∃ a' frames' cached', Inv code (tr ++ [e]) s' a' frames' cached' := by
  obtain ⟨⟨base, e⟩, hb, he⟩ := Option.map_eq_some_iff.mp hs
  cases he
  obtain ⟨hmay, hf⟩ := hm
  obtain ⟨a', hsim, hperf⟩ := sim_step h.sim hmay hb
  simp only [CoroutineRuns.step] at hb
  split at hb
  case isFalse => cases hb
  cases hb
  obtain ⟨hmay', happly⟩ := hperf
  have hother : ∀ g, s.base.status g ≠ .unborn → g ≠ k := by
    rintro g hg rfl
    exact hg hmay.2
  refine ⟨a', Function.update frames k [], Function.update cached k [], hsim, ?_, ?_, ?_⟩
  · refine chains_init h.chains hf (fun g hg hst => ?_) _
    simpa only [Function.update_of_ne hg] using hst
  · refine h.running.congr _ fun hne => ?_
    have hk := hother _ (status_of_current h.sim hne)
    exact ⟨Function.update_of_ne hk _ _, Function.update_of_ne hk _ _⟩
  · intro g c hlive
    obtain ⟨hg, hold⟩ | ⟨hg, hc⟩ := live_apply h.sim.distinct hmay' (by simp) happly hlive
    · have hg : g ≠ k := hg
      simp only [Function.update_of_ne hg]
      refine (h.live g c hold).congr _ fun hne => ?_
      have hk := hother _ (owner_of_live h.sim hold hne).2
      exact ⟨Function.update_of_ne hk _ _, Function.update_of_ne hk _ _⟩
    · obtain rfl : k = g := hg.symm
      cases hc
      refine ⟨fun hnull => absurd hnull hmay.1, fun _ => ?_⟩
      have htop := congrArg Context.stack_top
        (suspended_init code k fn arg frame_size stack s.base.m)
      simp only [startContext, Function.update_self, limits_append, growths]
      refine ⟨List.mem_append_right _ (List.mem_singleton.mpr ?_), trivial⟩
      exact Prod.ext rfl htop.symm

theorem inv_grow (h : Inv code tr s a frames cached) {segment : ℕ} (hf : fresh s.heap segment)
    (htop : s.base.m.stack_top ≠ 0) (frame_size param_size : ℕ) :
    ∃ s' e frames' cached', grow min_segment_size s segment frame_size param_size = some (s', e) ∧
      Inv code (tr ++ [e]) s' a frames' cached' := by
  have hne : s.base.m.current_coroutine ≠ NULL := fun hnull => htop (h.running.null hnull).1
  obtain ⟨f, t, hs, hchains⟩ := chains_allocate h.chains (status_of_current h.sim hne) hf
    min_segment_size frame_size param_size
  have hgrow : grow min_segment_size s segment frame_size param_size =
      some (⟨setStackTop s.base (BitVec.ofNat 64 (SegmentLimits.morestackLimit f)), f.heap,
        Function.update s.frame_ptr s.base.m.current_coroutine f.frame_ptr,
        ⟨s.base.m.current_coroutine, f.frame_ptr, s.frame_ptr s.base.m.current_coroutine⟩ ::
          s.pending, s.saved⟩,
        ⟨none, some (f.frame_ptr, BitVec.ofNat 64 (SegmentLimits.morestackLimit f))⟩) := by
    rw [grow, hs]
    rfl
  refine ⟨_, _, _, _, hgrow, sim_user h.sim rfl rfl h.sim.proper, hchains, ?_, ?_⟩
  · refine ⟨fun hnull => absurd hnull hne, fun _ => ?_⟩
    obtain ⟨-, hpending⟩ := h.running.limit hne
    simp only [setStackTop, Function.update_self, limits_append, growths]
    exact ⟨List.mem_append_right _ List.mem_cons_self, by rw [hpending]⟩
  · intro g c hlive
    refine (h.live g c hlive).congr _ fun hc => ?_
    have hk := (owner_of_live h.sim hlive hc).1
    exact ⟨Function.update_of_ne hk _ _, Function.update_of_ne hk _ _⟩

theorem inv_shrink (h : Inv code tr s a frames cached) {g : Growth} {gs : List Growth}
    (hpending : s.pending = g :: gs) :
    ∃ s' e frames' cached', shrink s = some (s', e) ∧ Inv code (tr ++ [e]) s' a frames' cached' ∧
      g.coroutine = s.base.m.current_coroutine ∧
      g.segment = s.frame_ptr s.base.m.current_coroutine ∧
      g.prev = prevOf s.heap (s.frame_ptr s.base.m.current_coroutine) ∧
      g.prev ≠ StackSegments.NULL ∧
      s'.frame_ptr = Function.update s.frame_ptr s.base.m.current_coroutine g.prev ∧
      s'.pending = gs := by
  have hne : s.base.m.current_coroutine ≠ NULL := by
    intro hnull
    rw [(h.running.null hnull).2] at hpending
    cases hpending
  obtain ⟨-, hgrowths⟩ := h.running.limit hne
  rw [hpending] at hgrowths
  cases hframes : frames s.base.m.current_coroutine with
  | nil =>
    rw [hframes] at hgrowths
    cases hgrowths
  | cons y l =>
    rw [hframes] at hgrowths
    cases hgrowths
    have hseg := h.chains.segments _ (status_of_current h.sim hne)
    rw [chainOf, hframes] at hseg
    obtain ⟨hprev, hy, hs⟩ := release_spec hseg
    have hshrink : shrink s = some (⟨setStackTop s.base (BitVec.ofNat 64
        (StackSegments.addSize y StackSegments.sizeofSegment)), s.heap,
        Function.update s.frame_ptr s.base.m.current_coroutine y, s.pending.tail, s.saved⟩,
        ⟨none, some (y, BitVec.ofNat 64
          (StackSegments.addSize y StackSegments.sizeofSegment))⟩) := by
      rw [shrink, hs]
      rfl
    refine ⟨_, _, _, _, hshrink, ⟨sim_user h.sim rfl rfl h.sim.proper,
      chains_release h.chains hframes, ?_, fun g c hlive => ?_⟩, rfl, rfl, hprev.symm, hy, rfl,
      by rw [hpending]; rfl⟩
    · refine ⟨fun hnull => absurd hnull hne, fun _ => ?_⟩
      simp only [setStackTop, Function.update_self, limits_append]
      exact ⟨List.mem_append_right _ List.mem_cons_self, by rw [hpending]; rfl⟩
    · refine (h.live g c hlive).congr _ fun hc => ?_
      have hk := (owner_of_live h.sim hlive hc).1
      exact ⟨Function.update_of_ne hk _ _, Function.update_of_ne hk _ _⟩

theorem inv_step (h : Inv code tr s a frames cached) {act : StackGrowth.Action}
    {e : StackGrowth.Event} (hm : StackGrowth.may code s act)
    (hs : StackGrowth.step code ndebug min_segment_size s act = some (s', e)) :
    ∃ a' frames' cached', Inv code (tr ++ [e]) s' a' frames' cached' := by
  cases act with
  | base act =>
    by_cases hact : ∃ k fn arg frame_size stack, act = .init k fn arg frame_size stack
    · obtain ⟨k, fn, arg, frame_size, stack, rfl⟩ := hact
      exact inv_init h hm hs
    · simp only [not_exists] at hact
      obtain ⟨a', hinv⟩ := inv_base h hm hact hs
      exact ⟨a', frames, cached, hinv⟩
  | grow segment frame_size param_size =>
    simp only [StackGrowth.step] at hs
    split at hs
    case isFalse => cases hs
    obtain ⟨s1, e1, frames', cached', hgrow, hinv⟩ := inv_grow h hm.1 hm.2 frame_size param_size
    cases hgrow.symm.trans hs
    exact ⟨a, frames', cached', hinv⟩
  | shrink =>
    simp only [StackGrowth.step] at hs
    split at hs
    case isFalse => cases hs
    obtain ⟨g, gs, hpending⟩ := List.exists_cons_of_ne_nil hm
    obtain ⟨s1, e1, frames', cached', hshrink, hinv, -⟩ := inv_shrink h hpending
    cases hshrink.symm.trans hs
    exact ⟨a, frames', cached', hinv⟩

theorem run_inv (h : Run (growthSystem code ndebug min_segment_size) tr s) :
    ∃ a frames cached, Inv code tr s a frames cached := by
  refine Run.invariant (fun tr s => ∃ a frames cached, Inv code tr s a frames cached) ?_ ?_ h
  · rintro s ⟨hinit, htop, hpending⟩
    refine ⟨_, fun _ => [], fun _ => [], sim_start hinit, ?_, ⟨fun _ => ⟨htop, hpending⟩, ?_⟩, ?_⟩
    · exact ⟨fun k hk => absurd (hinit.2.2.1 k) hk, fun j k hj => absurd (hinit.2.2.1 j) hj⟩
    · exact fun hne => absurd hinit.1 hne
    · rintro g c (⟨x, hmem⟩ | ⟨l, hl⟩)
      · cases x <;> cases hmem
      · cases hl
  · rintro tr s act s' e ⟨a, frames, cached, hinv⟩ hm hs
    exact inv_step hinv hm hs

/-- At every point of a run the limit is 0 outside of coroutines and otherwise
one that was computed for the current segment of the current coroutine, and a
release removes the segment that the matching allocation has installed. This is
for sizes that do not wrap around, where `SegmentBlocks` has the same functions. -/
theorem growth_run (h : Run (growthSystem code ndebug min_segment_size) tr s) :
    (s.base.m.current_coroutine = NULL → s.base.m.stack_top = 0) ∧
    (s.base.m.current_coroutine ≠ NULL →
      (s.frame_ptr s.base.m.current_coroutine, s.base.m.stack_top) ∈ limits tr) ∧
    (∀ segment frame_size param_size, userCode code s.base.m.rip = true →
      StackGrowth.may code s (.grow segment frame_size param_size) → ∃ s' e,
        StackGrowth.step code ndebug min_segment_size s (.grow segment frame_size param_size) =
          some (s', e)) ∧
    ∀ g gs, s.pending = g :: gs → userCode code s.base.m.rip = true → ∃ s' e,
      StackGrowth.step code ndebug min_segment_size s .shrink = some (s', e) ∧
      g.coroutine = s.base.m.current_coroutine ∧
      g.segment = s.frame_ptr s.base.m.current_coroutine ∧
      g.prev = prevOf s.heap (s.frame_ptr s.base.m.current_coroutine) ∧
      g.prev ≠ StackSegments.NULL ∧
      s'.frame_ptr = Function.update s.frame_ptr s.base.m.current_coroutine g.prev ∧
      s'.pending = gs := by
  obtain ⟨a, frames, cached, hinv⟩ := run_inv h
  refine ⟨fun hnull => (hinv.running.null hnull).1, fun hne => (hinv.running.limit hne).1, ?_, ?_⟩
  · intro segment frame_size param_size huser hm
    obtain ⟨s', e, -, -, hgrow, -⟩ := inv_grow hinv hm.1 hm.2 frame_size param_size
    exact ⟨s', e, by rw [StackGrowth.step, if_pos huser, hgrow]⟩
  · intro g gs hpending huser
    obtain ⟨s', e, -, -, hshrink, -, hrest⟩ := inv_shrink hinv hpending
    exact ⟨s', e, by rw [StackGrowth.step, if_pos huser, hshrink], hrest⟩

def allowedGrowth (code : Code) (s : StackGrowth.State) : StackGrowth.Action → Bool
  | .base (.init k fn arg frame_size stack) =>
    allowed code s.base (.init k fn arg frame_size stack) &&
      decide (stack.toNat ≠ StackSegments.NULL) && (s.heap stack.toNat).isNone
  | .base (.user m) =>
    allowed code s.base (.user m) && decide (m.stack_top = s.base.m.stack_top)
  | .base (.discard _) => false
  | .base act => allowed code s.base act
  | .grow segment _ _ =>
    decide (segment ≠ StackSegments.NULL) && (s.heap segment).isNone &&
      decide (s.base.m.stack_top ≠ 0)
  | .shrink => !s.pending.isEmpty

theorem may_of_allowedGrowth {act : StackGrowth.Action} (h : allowedGrowth code s act = true) :
    StackGrowth.may code s act := by
  cases act with
  | base act =>
    cases act with
    | init =>
      simp only [allowedGrowth, Bool.and_eq_true, decide_eq_true_eq] at h
      obtain ⟨⟨hallowed, hne⟩, hnone⟩ := h
      exact ⟨may_of_allowed hallowed, hne, Option.isNone_iff_eq_none.mp hnone⟩
    | user =>
      simp only [allowedGrowth, Bool.and_eq_true, decide_eq_true_eq] at h
      exact ⟨may_of_allowed h.1, h.2⟩
    | discard => cases h
    | resume | yield | exit | perform | throw | prelude | preludeReturn =>
      have hmay : CoroutineRuns.may code s.base _ :=
        may_of_allowed (by simpa only [allowedGrowth] using h)
      exact hmay
  | grow =>
    simp only [allowedGrowth, Bool.and_eq_true, decide_eq_true_eq] at h
    obtain ⟨⟨hne, hnone⟩, htop⟩ := h
    exact ⟨⟨hne, Option.isNone_iff_eq_none.mp hnone⟩, htop⟩
  | shrink => simpa [allowedGrowth, StackGrowth.may] using h

def growAndSwitch : List StackGrowth.Action :=
  [.base (.init 0x1000 0x500 7 256 0x100), .base (.init 0x2000 0x600 8 256 0x400),
    .base (.user { idle with rdi := 0x1000, rsp := 0x8000 }), .base .resume, .base .prelude,
    .base (.user { idle with rip := 0x501, stack_top := 0x1a0 }), .grow 0x700 64 16,
    .base (.user { idle with rdi := 0x2000, rsp := 0x7d0, rip := 0x502, stack_top := 0x7a0 }),
    .base .resume, .base .prelude,
    .base (.user { idle with rdi := 0x1000, rsp := 0x500, rip := 0x601, stack_top := 0x4a0 }),
    .base .yield,
    .base (.user { idle with rdi := 0x1000, rsp := 0x8000, rip := 0x402 }), .base .resume,
    .base (.user { idle with rdi := 0x2000, rsp := 0x500, rip := 0x602, stack_top := 0x4a0 }),
    .base .yield,
    .base (.user { idle with rip := 0x503, stack_top := 0x7a0 })]

theorem growth_run_switched : ∃ tr s s' e, Run (growthSystem exampleCode true 0) tr s ∧
    StackGrowth.step exampleCode true 0 s .shrink = some (s', e) ∧
    s.base.m.current_coroutine = 0x1000 ∧ s.frame_ptr 0x1000 = 0x700 ∧
    s'.frame_ptr 0x1000 = 0x100 := by
  obtain ⟨tr, s, h, he⟩ := Run.exists_of_exec (S := growthSystem exampleCode true 0)
    (fun _ _ => may_of_allowedGrowth) growAndSwitch
    (s := ⟨⟨idle, fun _ => .unborn, fun _ => none⟩, fun _ => none, fun _ => 0, [], fun _ => []⟩)
    ⟨⟨rfl, rfl, fun _ => rfl, fun _ => rfl⟩, rfl, rfl⟩
    (fun p => (p.1.pending.map fun g => (g.segment, g.prev), p.1.base.m.current_coroutine,
      userCode exampleCode p.1.base.m.rip))
    (b := ([(0x700, 0x100)], 0x1000, true)) (by decide +kernel)
  simp only [Prod.mk.injEq] at he
  obtain ⟨hpending, hcur, huser⟩ := he
  obtain ⟨g, hg, hseg⟩ := List.map_eq_singleton_iff.mp hpending
  obtain ⟨hsegment, hprev⟩ := Prod.mk.inj hseg
  obtain ⟨s', e, hs, -, hptr, -, -, hframe, -⟩ := (growth_run h).2.2.2 g [] hg huser
  rw [hcur] at hptr hframe
  refine ⟨tr, s, s', e, h, hs, hcur, hptr.symm.trans hsegment, ?_⟩
  rw [hframe, Function.update_self, hprev]

end Libseff.StackGrowthRuns
