import Libseff.CoroutineRefine

namespace Libseff.CoroutineHandlers

open LinkedLists TransitionRuns ShallowHandlers CoroutineMachine CoroutineRuns CoroutineSim
  CoroutineRefine

/-- Following `parent_coroutine` from the current coroutine visits `l`, without
repetition, and ends at `NULL`. -/
def ActiveChain (m : Machine) (l : List Word) : Prop :=
  Path (parent m) NULL m.current_coroutine l ∧ l.Nodup ∧ NULL ∉ l

/-- Following `parent_coroutine` from the coroutine that `k` was left in visits
`l` and then reaches `k`, without repetition. -/
def Segment (m : Machine) (k : Word) (l : List Word) : Prop :=
  Path (parent m) k (m.coroutines k).resume_point.current_coroutine l ∧ (l ++ [k]).Nodup ∧
    NULL ∉ l ++ [k]

def Suspended (s : State) (k : Word) : Prop := s.status k = .fresh ∨ s.status k = .suspended

variable {code : Code} {ndebug : Bool} {s s' : State} {a : Handlers Word Context}

theorem activeChain_of_sim (h : Sim code s a) : ActiveChain s.m (names a.stack) := by
  refine ⟨h.stack, h.distinct.1 none, fun hnull => ?_⟩
  obtain ⟨⟨g, c⟩, hmem, rfl⟩ := List.mem_map.mp hnull
  exact ne_null_of_frame (x := none) h hmem rfl

theorem segment_of_sim (h : Sim code s a) {k : Word} {p : List (Word × Context) × Context}
    (hk : a.captured k = some p) : Segment s.m k (names p.1) := by
  obtain ⟨hsus, hpath⟩ := h.captured k p.1 p.2 hk
  have hnodup := h.distinct.1 (some k)
  rw [group_some hk] at hnodup
  refine ⟨?_, hnodup, fun hnull => ?_⟩
  · rw [← hsus] at hpath
    exact hpath
  · obtain hmem | hmem := List.mem_append.mp hnull
    · obtain ⟨⟨g, c⟩, hmem, rfl⟩ := List.mem_map.mp hmem
      refine ne_null_of_frame (x := some k) (c := c) h ?_ rfl
      rw [frames, hk]
      exact hmem
    · obtain rfl := List.mem_singleton.mp hmem
      have hst := (h.status NULL).mp (by rw [hk]; rfl)
      rw [h.null] at hst
      simp at hst

theorem coroutines_refine {tr : List Event} (h : Run (coroutineSystem code ndebug) tr s) :
    ∃ a, Run handlers (observed tr) a ∧ ActiveChain s.m (names a.stack) ∧
      (∀ k, Suspended s k → Segment s.m k (names (frames a (some k))) ∧
        (names (frames a (some k)) ++ [k]).Disjoint (names a.stack)) ∧
      (∀ j k, Suspended s j → Suspended s k → j ≠ k →
        (names (frames a (some j)) ++ [j]).Disjoint (names (frames a (some k)) ++ [k])) ∧
      (∀ act s' h x c d, may code s act →
        step code ndebug s act = some (s', some (.perform h x c, d)) →
        ∃ l rest r, names a.stack = l ++ h :: rest ∧
          lastContext (resumeOf h) (observed tr) = some r ∧
          context s'.m = r ∧ (s'.m.rax, s'.m.rdx) = x ∧ ActiveChain s'.m rest ∧
          (s'.m.coroutines h).resume_point.current_coroutine = s.m.current_coroutine ∧
          Segment s'.m h l ∧ ∀ g, g ≠ h → s'.m.coroutines g = s.m.coroutines g) ∧
      (∀ act s' k v c d, may code s act →
        step code ndebug s act = some (s', some (.resume k v c, d)) →
        ActiveChain s'.m (names (frames a (some k)) ++ k :: names a.stack) ∧
          ∀ g, g ≠ k → s'.m.coroutines g = s.m.coroutines g) := by
  obtain ⟨a, hrun, hsim⟩ := run_refines h
  have hsome : ∀ k, Suspended s k → ∃ p, a.captured k = some p := fun k hk =>
    Option.isSome_iff_exists.mp ((hsim.status k).mpr hk)
  refine ⟨a, hrun, activeChain_of_sim hsim, fun k hk => ?_, fun j k hj hk hjk => ?_, ?_, ?_⟩
  · obtain ⟨p, hp⟩ := hsome k hk
    rw [frames_some hp, ← group_some hp]
    exact ⟨segment_of_sim hsim hp, hsim.distinct.2 (some k) none nofun⟩
  · obtain ⟨p, hp⟩ := hsome j hj
    obtain ⟨q, hq⟩ := hsome k hk
    rw [frames_some hp, frames_some hq, ← group_some hp, ← group_some hq]
    exact hsim.distinct.2 (some j) (some k) fun he => hjk (Option.some.inj he)
  · intro act s' g x c d hm hs
    have hmove := step_transition hs
    cases hmove with
    | yield m hco hcur =>
      obtain ⟨a', hsim', -, happly⟩ := sim_step hsim hm hs
      obtain ⟨p, hp, he⟩ := Option.map_eq_some_iff.mp happly
      simp only [request, Prod.mk.injEq, Option.some.injEq, Delivery.request.injEq] at he
      obtain ⟨rfl, hc, hx⟩ := he
      refine ⟨names p.1, names p.2.2, p.2.1, ?_, (run_traced hrun).2 none _ _ (frame_of_split hp),
        hc.symm, Prod.ext hx.1.symm hx.2.symm, activeChain_of_sim hsim', ?_, ?_, ?_⟩
      · rw [names_split hp, List.append_assoc, List.singleton_append]
      · rw [← hcur]
        exact congrArg Context.current_coroutine (suspended_seffYield m)
      · exact segment_of_sim hsim' (p := (p.1, callContext m)) (Function.update_self ..)
      · intro j hj
        rw [coroutines_seffYield hj, hco]
  · intro act s' k v c d hm hs
    have hmove := step_transition hs
    cases hmove with
    | resume =>
      obtain ⟨a', hsim', -, happly⟩ := sim_step hsim hm hs
      obtain ⟨p, hp, he⟩ := Option.map_eq_some_iff.mp happly
      obtain ⟨rfl, -⟩ := Prod.mk.inj he
      have hchain := activeChain_of_sim hsim'
      refine ⟨?_, fun g hg => coroutines_seffResumeUnwrapped hg⟩
      rw [frames_some hp]
      simpa only [names, List.map_append, List.map_cons] using hchain

theorem coroutines_refine_nested : ∃ tr s a, Run (coroutineSystem exampleCode true) tr s ∧
    [s.m.rbx, s.m.rax, s.m.rdx, s.m.current_coroutine,
      (s.m.coroutines 0x1000).resume_point.current_coroutine, parent s.m 0x2000] =
      [3, 0x77, 0x88, NULL, 0x2000, 0x1000] ∧
    Run handlers (observed tr) a ∧ Segment s.m 0x1000 (names (frames a (some 0x1000))) := by
  obtain ⟨tr, s, h, he⟩ := Run.exists_of_exec (S := coroutineSystem exampleCode true)
    (fun _ _ => may_of_allowed)
    nestedYield (s := ⟨idle, fun _ => .unborn, fun _ => none⟩) ⟨rfl, rfl, fun _ => rfl, fun _ => rfl⟩
    (fun p => ([p.1.m.rbx, p.1.m.rax, p.1.m.rdx, p.1.m.current_coroutine,
      (p.1.m.coroutines 0x1000).resume_point.current_coroutine, parent p.1.m 0x2000],
      p.1.status 0x1000))
    (b := ([3, 0x77, 0x88, NULL, 0x2000, 0x1000], .suspended)) (by decide +kernel)
  rw [Prod.mk.injEq] at he
  obtain ⟨a, hrun, -, hseg, -⟩ := coroutines_refine h
  exact ⟨tr, s, a, h, he.1, hrun, (hseg _ (.inr he.2)).1⟩

end Libseff.CoroutineHandlers
