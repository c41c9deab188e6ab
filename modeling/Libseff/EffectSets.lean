import Libseff.CoroutineMachine
import Libseff.LinkedLists
import Mathlib.Data.List.Basic

namespace Libseff.EffectSets

open LinkedLists CoroutineMachine

variable {υ : Type} {code : Code}

/-- The translation units that include `seff.h`, each with its own
`_handles_all_set`; `seff` is the one of `seff.c`. -/
structure Units (υ : Type) (code : Code) where
  handles_all_set : υ → Word
  seff : υ
  seff_set : handles_all_set seff = code.handles_all
  injective : Function.Injective handles_all_set
  ne_null : ∀ u, handles_all_set u ≠ NULL

inductive EffectSet (υ : Type) where
  | HANDLES (effects : List Word)
  | HANDLES_NONE
  | HANDLES_ALL (unit : υ)
  deriving DecidableEq

/-- The set that `seff_resume_handling_all` passes. -/
def resumeHandlingAll (L : Units υ code) : EffectSet υ := .HANDLES_ALL L.seff

def contains (effect : Word) : EffectSet υ → Bool
  | .HANDLES effects => decide (effect ∈ effects)
  | .HANDLES_NONE => false
  | .HANDLES_ALL _ => true

def zeroTerminated (m : Machine) (p : Word) : List Word → Prop
  | [] => m.memory p = 0
  | effect :: effects => m.memory p = effect ∧ zeroTerminated m (p + 8) effects

/-- The pointer `p` is what the expression has evaluated to, and the object that
it points to is intact. -/
def Written (L : Units υ code) (m : Machine) (p : Word) : EffectSet υ → Prop
  | .HANDLES effects => p ≠ NULL ∧ (∀ u, p ≠ L.handles_all_set u) ∧
      (∀ effect ∈ effects, effect ≠ RETURN_EFFECT_ID) ∧ zeroTerminated m p effects
  | .HANDLES_NONE => p ≠ NULL ∧ (∀ u, p ≠ L.handles_all_set u) ∧ zeroTerminated m p []
  | .HANDLES_ALL u => p = L.handles_all_set u ∧ zeroTerminated m p []

def innermost (sets : Word → EffectSet υ) (effect : Word) (chain : List Word) : Word :=
  (chain.find? fun k => contains effect (sets k)).getD NULL

/-- On `chain`, the lookups find in every set what it was written with. -/
structure MeansWhatItSays (code : Code) (m : Machine) (sets : Word → EffectSet υ)
    (chain : List Word) : Prop where
  find : ∀ effect, ∀ k ∈ chain, ∃ n, ∀ fuel, n ≤ fuel →
    seffFindEffectIn code m fuel effect (m.coroutines k).handled_effects =
      some (contains effect (sets k))
  locate : ∀ effect, effect ≠ RETURN_EFFECT_ID → ∃ n, ∀ fuel, n ≤ fuel →
    seffLocateHandler code m fuel effect = some (innermost sets effect chain)

theorem scanEffects_eq {m : Machine} (effect handled : Word) {effects : List Word} {i : Word}
    (h : zeroTerminated m (handled + 8 * i) effects)
    (hne : ∀ e ∈ effects, e ≠ RETURN_EFFECT_ID) {fuel : ℕ} (hfuel : effects.length < fuel) :
    scanEffects m effect handled fuel i = some (decide (effect ∈ effects)) := by
  induction effects generalizing i fuel with
  | nil =>
    obtain ⟨fuel, rfl⟩ : ∃ n, fuel = n + 1 := ⟨fuel - 1, by omega⟩
    have hzero : m.memory (handled + 8 * i) = 0 := h
    rw [scanEffects, if_pos hzero]
    simp
  | cons e effects ih =>
    obtain ⟨h1, h2⟩ := h
    obtain ⟨fuel, rfl⟩ : ∃ n, fuel = n + 1 := ⟨fuel - 1, by omega⟩
    have hnext : handled + 8 * i + 8 = handled + 8 * (i + 1) := by
      rw [BitVec.mul_add, ← BitVec.add_assoc]
      rfl
    have hzero : e ≠ 0 := hne e List.mem_cons_self
    rw [scanEffects, h1, if_neg hzero]
    by_cases he : effect = e
    · simp [he]
    · rw [hnext] at h2
      rw [if_neg he, ih h2 (fun e' h' => hne e' (List.mem_cons_of_mem e h'))
        (by simpa using hfuel)]
      simp [he]

theorem findEffect_scan {L : Units υ code} {m : Machine} {handled : Word} {effects : List Word}
    (hnull : handled ≠ NULL) (hall : handled ≠ L.handles_all_set L.seff)
    (hne : ∀ e ∈ effects, e ≠ RETURN_EFFECT_ID) (h : zeroTerminated m handled effects)
    (effect : Word) {fuel : ℕ} (hfuel : effects.length < fuel) :
    seffFindEffectIn code m fuel effect handled = some (decide (effect ∈ effects)) := by
  rw [L.seff_set] at hall
  rw [seffFindEffectIn, if_neg hall, if_neg hnull]
  apply scanEffects_eq _ _ _ hne hfuel
  simpa using h

theorem findEffect_written {L : Units υ code} {m : Machine} {handled : Word} {S : EffectSet υ}
    (h : Written L m handled S) (hS : ∀ u, S = .HANDLES_ALL u → u = L.seff) (effect : Word) :
    ∃ n, ∀ fuel, n ≤ fuel →
      seffFindEffectIn code m fuel effect handled = some (contains effect S) := by
  cases S with
  | HANDLES effects =>
    obtain ⟨hnull, hall, hne, harr⟩ := h
    exact ⟨effects.length + 1, fun fuel hfuel => findEffect_scan hnull (hall _) hne harr effect hfuel⟩
  | HANDLES_NONE =>
    obtain ⟨hnull, hall, harr⟩ := h
    refine ⟨1, fun fuel hfuel => ?_⟩
    rw [findEffect_scan hnull (hall _) (by simp) harr effect hfuel]
    simp [contains]
  | HANDLES_ALL u =>
    obtain ⟨hp, -⟩ := h
    obtain rfl := hS u rfl
    refine ⟨0, fun fuel _ => ?_⟩
    rw [seffFindEffectIn, if_pos (hp.trans L.seff_set)]
    rfl

/-- `seff.c` takes the set of another unit for an empty array. -/
theorem findEffect_foreign {L : Units υ code} {m : Machine} {handled : Word} {u : υ}
    (h : Written L m handled (.HANDLES_ALL u)) (hu : u ≠ L.seff) (effect : Word) {fuel : ℕ}
    (hfuel : 0 < fuel) : seffFindEffectIn code m fuel effect handled = some false := by
  obtain ⟨rfl, harr⟩ := h
  have hall : L.handles_all_set u ≠ L.handles_all_set L.seff := fun he => hu (L.injective he)
  rw [findEffect_scan (L.ne_null u) hall (by simp) harr effect hfuel]
  simp

theorem locateFrom_eq {m : Machine} {sets : Word → EffectSet υ} {effect : Word}
    {chain : List Word} {k : Word}
    (hpath : Path (fun k => (m.coroutines k).parent_coroutine) NULL k chain)
    (hnull : NULL ∉ chain)
    (hfind : ∀ k ∈ chain, ∃ n, ∀ fuel, n ≤ fuel →
      seffFindEffectIn code m fuel effect (m.coroutines k).handled_effects =
        some (contains effect (sets k))) :
    ∃ n, ∀ fuel, n ≤ fuel →
      locateFrom code m effect fuel k = some (innermost sets effect chain) := by
  induction chain generalizing k with
  | nil =>
    obtain rfl : k = NULL := hpath
    refine ⟨1, fun fuel hfuel => ?_⟩
    obtain ⟨fuel, rfl⟩ : ∃ n, fuel = n + 1 := ⟨fuel - 1, by omega⟩
    rw [locateFrom, if_pos rfl]
    rfl
  | cons g chain ih =>
    obtain ⟨rfl, hpath⟩ := hpath
    have hk : k ≠ NULL := fun he => hnull (he ▸ List.mem_cons_self)
    obtain ⟨n1, h1⟩ := hfind k List.mem_cons_self
    obtain ⟨n2, h2⟩ := ih hpath (fun h => hnull (List.mem_cons_of_mem k h))
      fun j hj => hfind j (List.mem_cons_of_mem k hj)
    refine ⟨max n1 n2 + 1, fun fuel hfuel => ?_⟩
    obtain ⟨fuel, rfl⟩ : ∃ n, fuel = n + 1 := ⟨fuel - 1, by omega⟩
    rw [locateFrom, if_neg hk, h1 fuel (by omega), Option.bind_some]
    cases hc : contains effect (sets k) with
    | true => simp [innermost, hc]
    | false =>
      rw [if_neg (by simp), h2 fuel (by omega)]
      simp [innermost, hc]

theorem meansWhatItSays_iff {L : Units υ code} {m : Machine} {sets : Word → EffectSet υ}
    {chain : List Word}
    (hpath : Path (fun k => (m.coroutines k).parent_coroutine) NULL m.current_coroutine chain)
    (hnull : NULL ∉ chain)
    (hw : ∀ k ∈ chain, Written L m (m.coroutines k).handled_effects (sets k)) :
    MeansWhatItSays code m sets chain ↔
      ∀ k ∈ chain, ∀ u, sets k = .HANDLES_ALL u → u = L.seff := by
  constructor
  · intro h k hk u hS
    by_contra hu
    have hwk := hw k hk
    rw [hS] at hwk
    obtain ⟨n, hn⟩ := h.find RETURN_EFFECT_ID k hk
    have hright := hn (n + 1) (Nat.le_succ n)
    rw [findEffect_foreign hwk hu RETURN_EFFECT_ID (Nat.succ_pos n), hS] at hright
    cases hright
  · intro h
    have hfind := fun effect k hk => findEffect_written (hw k hk) (h k hk) effect
    refine ⟨hfind, fun effect heffect => ?_⟩
    simp only [seffLocateHandler, ne_eq, heffect, not_false_eq_true, if_true]
    exact locateFrom_eq hpath hnull (hfind effect)

end Libseff.EffectSets
