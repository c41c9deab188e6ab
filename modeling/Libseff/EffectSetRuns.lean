import Libseff.CoroutineHandlers
import Libseff.EffectSets

namespace Libseff.EffectSetRuns

open LinkedLists TransitionRuns ShallowHandlers CoroutineMachine CoroutineRuns CoroutineSim
  CoroutineRefine CoroutineHandlers EffectSets

variable {υ : Type}

/-- `set` remembers how the set of the last resume of a coroutine was written
and the pointer that was passed. -/
structure State (υ : Type) where
  base : CoroutineRuns.State
  set : Word → EffectSet υ × Word

def step (code : Code) (ndebug : Bool) (s : State υ) (a : CoroutineRuns.Action × EffectSet υ) :
    Option (State υ × CoroutineRuns.Event) :=
  (CoroutineRuns.step code ndebug s.base a.1).map fun (base, e) =>
    (⟨base, match e with
      | some (.resume k _ _, _) => Function.update s.set k (a.2, s.base.m.rdx)
      | _ => s.set⟩, e)

def handlingSystem (code : Code) (ndebug : Bool) (υ : Type) :
    System (State υ) (CoroutineRuns.Action × EffectSet υ) CoroutineRuns.Event where
  init s := (coroutineSystem code ndebug).init s.base
  may s a := CoroutineRuns.may code s.base a.1
  step := step code ndebug

/-- In every state that is reached, the sets of the active chain mean what they
say as long as they are intact. -/
def SetsMeanWhatTheySay {code : Code} (ndebug : Bool) (L : Units υ code) : Prop :=
  ∀ tr s, Run (handlingSystem code ndebug υ) tr s → ∀ chain, ActiveChain s.base.m chain →
    (∀ k ∈ chain, Written L s.base.m (s.set k).2 (s.set k).1) →
    MeansWhatItSays code s.base.m (fun k => (s.set k).1) chain

variable {code : Code} {ndebug : Bool}

theorem run_base {tr : List CoroutineRuns.Event} {s : State υ}
    (h : Run (handlingSystem code ndebug υ) tr s) : Run (coroutineSystem code ndebug) tr s.base := by
  induction h with
  | start h => exact Run.start h
  | next _ hm hs ih =>
    obtain ⟨⟨base, e⟩, hb, he⟩ := Option.map_eq_some_iff.mp hs
    cases he
    exact Run.next ih hm hb

theorem handled_step {s s' : State υ} {a : CoroutineRuns.Action × EffectSet υ}
    {e : CoroutineRuns.Event}
    (h : ∀ k, s.base.status k = .active →
      (s.base.m.coroutines k).handled_effects = (s.set k).2)
    (hs : step code ndebug s a = some (s', e)) (k : Word) (hk : s'.base.status k = .active) :
    (s'.base.m.coroutines k).handled_effects = (s'.set k).2 := by
  obtain ⟨⟨base, e⟩, hb, he⟩ := Option.map_eq_some_iff.mp hs
  have hother : ∀ (g : Word) (x : Status), x ≠ .active →
      Function.update s.base.status g x k = .active → k ≠ g ∧ s.base.status k = .active := by
    rintro g x hx hupd
    by_cases hkg : k = g
    · subst hkg
      rw [Function.update_self] at hupd
      exact absurd hupd hx
    · rw [Function.update_of_ne hkg] at hupd
      exact ⟨hkg, hupd⟩
  cases step_transition hb with
  | silent hco hst =>
    cases he
    rw [hst] at hk
    rw [hco]
    exact h k hk
  | create g fn arg frame_size stack =>
    cases he
    obtain ⟨hkg, hactive⟩ := hother g _ (by simp) hk
    simp only [seffCoroutineInitSized, Function.update_of_ne hkg]
    exact h k hactive
  | resume =>
    cases he
    by_cases hkr : k = s.base.m.rdi
    · subst hkr
      simp only [Function.update_self]
      exact handled_seffResumeUnwrapped s.base.m
    · simp only [Function.update_of_ne hkr] at hk ⊢
      rw [coroutines_seffResumeUnwrapped hkr]
      exact h k hk
  | yield m hco hcur =>
    cases he
    obtain ⟨hkr, hactive⟩ := hother m.rdi _ (by simp) hk
    rw [coroutines_seffYield hkr, hco]
    exact h k hactive
  | exit m hco =>
    cases he
    obtain ⟨hkr, hactive⟩ := hother m.rdi _ (by simp) hk
    rw [coroutines_seffExit ndebug hkr, hco]
    exact h k hactive
  | discard g =>
    cases he
    exact h k (hother g _ (by simp) hk).2

theorem run_handled {tr : List CoroutineRuns.Event} {s : State υ}
    (h : Run (handlingSystem code ndebug υ) tr s) (k : Word) (hk : s.base.status k = .active) :
    (s.base.m.coroutines k).handled_effects = (s.set k).2 := by
  refine Run.invariant (fun _ s => ∀ k, s.base.status k = .active →
    (s.base.m.coroutines k).handled_effects = (s.set k).2) ?_ ?_ h k hk
  · intro s hinit k hactive
    rw [hinit.2.2.1 k] at hactive
    cases hactive
  · intro _ s a s' e hi _ hs
    exact handled_step hi hs

/-- The active chain of a state that is reached; its sets mean what they say if
and only if each `HANDLES_ALL` among them was written in `seff.c`. -/
theorem effectSets_iff {tr : List CoroutineRuns.Event} {s : State υ} (L : Units υ code)
    (h : Run (handlingSystem code ndebug υ) tr s) :
    ∃ chain, ActiveChain s.base.m chain ∧
      ((∀ k ∈ chain, Written L s.base.m (s.set k).2 (s.set k).1) →
        (MeansWhatItSays code s.base.m (fun k => (s.set k).1) chain ↔
          ∀ k ∈ chain, ∀ u, (s.set k).1 = .HANDLES_ALL u → u = L.seff)) := by
  obtain ⟨a, -, hsim⟩ := run_refines (run_base h)
  have hchain := activeChain_of_sim hsim
  refine ⟨names a.stack, hchain, fun hw => ?_⟩
  refine meansWhatItSays_iff hchain.1 hchain.2.2 fun k hk => ?_
  obtain ⟨⟨g, c⟩, hmem, rfl⟩ := List.mem_map.mp hk
  have hactive := (hsim.waiting none g c hmem).2
  rw [run_handled h g hactive]
  exact hw g hk

def exampleUnits : Units Bool exampleCode where
  handles_all_set u := if u then 0x20 else 0x28
  seff := true
  seff_set := rfl
  injective := by
    intro u v
    cases u <;> cases v <;> simp
  ne_null := by decide

def resumeAll (u : Bool) : List (CoroutineRuns.Action × EffectSet Bool) :=
  [(.init 0x1000 0x500 7 256 0x10000, .HANDLES_NONE),
    (.user { idle with
      rdi := 0x1000, rdx := exampleUnits.handles_all_set u, rsp := 0x8000
      memory := fun a => if a = 0x20 ∨ a = 0x28 then 0 else 0x401 }, .HANDLES_NONE),
    (.resume, .HANDLES_ALL u), (.prelude, .HANDLES_NONE)]

theorem run_resumeAll (u : Bool) : ∃ tr s, Run (handlingSystem exampleCode true Bool) tr s ∧
    ActiveChain s.base.m [0x1000] ∧
    (∀ k ∈ [0x1000], Written exampleUnits s.base.m (s.set k).2 (s.set k).1) ∧
    (s.set 0x1000).1 = .HANDLES_ALL u ∧ s.base.status 0x1000 = .active := by
  obtain ⟨tr, s, h, he⟩ := Run.exists_of_exec (S := handlingSystem exampleCode true Bool)
    (fun s a (ha : allowed exampleCode s.base a.1 = true) => may_of_allowed ha) (resumeAll u)
    (s := ⟨⟨idle, fun _ => .unborn, fun _ => none⟩, fun _ => (.HANDLES_NONE, NULL)⟩)
    ⟨rfl, rfl, fun _ => rfl, fun _ => rfl⟩
    (fun p => ([p.1.base.m.current_coroutine, parent p.1.base.m 0x1000,
      p.1.base.m.memory (exampleUnits.handles_all_set u)], p.1.set 0x1000, p.1.base.status 0x1000))
    (b := ([0x1000, NULL, 0], (.HANDLES_ALL u, exampleUnits.handles_all_set u), .active))
    (by cases u <;> decide +kernel)
  simp only [Prod.mk.injEq, List.cons.injEq, and_true] at he
  obtain ⟨⟨hcur, hparent, hmem⟩, hset, hactive⟩ := he
  refine ⟨tr, s, h, ⟨⟨hcur, hparent⟩, by simp, by decide⟩, ?_, congrArg Prod.fst hset, hactive⟩
  intro k hk
  obtain rfl := List.mem_singleton.mp hk
  rw [hset]
  exact ⟨rfl, hmem⟩

/-- With the `HANDLES_ALL` of `seff.c`, both lookups find every effect. -/
theorem effectSets_iff_of_seff : ∃ tr s, Run (handlingSystem exampleCode true Bool) tr s ∧
    (s.set 0x1000).1 = .HANDLES_ALL true ∧
    ∀ effect, effect ≠ RETURN_EFFECT_ID → ∃ n, ∀ fuel, n ≤ fuel →
      seffFindEffectIn exampleCode s.base.m fuel effect
        (s.base.m.coroutines 0x1000).handled_effects = some true ∧
      seffLocateHandler exampleCode s.base.m fuel effect = some 0x1000 := by
  obtain ⟨tr, s, h, hactive, hw, hset, -⟩ := run_resumeAll true
  obtain ⟨chain, hchain, hiff⟩ := effectSets_iff exampleUnits h
  obtain rfl : chain = [0x1000] := path_unique hchain.1 hactive.1 hchain.2.2 hactive.2.2
  obtain ⟨hfind, hlocate⟩ := (hiff hw).mpr fun k hk u hu => by
    obtain rfl := List.mem_singleton.mp hk
    cases hset.symm.trans hu
    rfl
  have hcontains : ∀ effect, contains effect (s.set 0x1000).1 = true := fun effect => by
    rw [hset]
    rfl
  refine ⟨tr, s, h, hset, fun effect heffect => ?_⟩
  obtain ⟨n, hn⟩ := hfind effect 0x1000 List.mem_cons_self
  obtain ⟨n', hn'⟩ := hlocate effect heffect
  refine ⟨n + n', fun fuel hfuel => ⟨?_, ?_⟩⟩
  · rw [hn fuel (by omega), hcontains]
  · rw [hn' fuel (by omega), innermost, List.find?_cons, hcontains]
    rfl

/-- In a coroutine that was resumed with the `HANDLES_ALL` of another unit. -/
theorem not_setsMeanWhatTheySay : ¬ SetsMeanWhatTheySay true exampleUnits := by
  intro hall
  obtain ⟨tr, s, h, hchain, hw, hset, hactive⟩ := run_resumeAll false
  have hmeans := hall tr s h [0x1000] hchain hw
  have hhandled : ∀ k ∈ [0x1000], Written exampleUnits s.base.m
      (s.base.m.coroutines k).handled_effects (s.set k).1 := by
    intro k hk
    have hwk := hw k hk
    obtain rfl := List.mem_singleton.mp hk
    rwa [run_handled h 0x1000 hactive]
  have hseff := (meansWhatItSays_iff hchain.1 hchain.2.2 hhandled).mp hmeans 0x1000 (by simp)
  exact absurd (hseff false hset) (by decide)

end Libseff.EffectSetRuns
