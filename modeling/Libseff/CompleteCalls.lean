import Libseff.AtomicObjects

namespace Libseff.CompleteCalls

open TransitionRuns AtomicObjects

variable {σ pc ρ op κ ω : Type*}

inductive Returns (f : σ → pc → Option (σ × Outcome pc ρ)) : σ → pc → σ → ρ → Prop
  | done {s s' : σ} {p : pc} {r : ρ} (h : f s p = some (s', .done r)) : Returns f s p s' r
  | run {s s' s'' : σ} {p p' : pc} {r : ρ} (h : f s p = some (s', .run p'))
      (hr : Returns f s' p' s'' r) : Returns f s p s'' r

variable {f : σ → pc → Option (σ × Outcome pc ρ)}

theorem returns_iff_of_run {s s' s'' : σ} {p p' : pc} {r : ρ} (h : f s p = some (s', .run p')) :
    Returns f s p s'' r ↔ Returns f s' p' s'' r := by
  constructor
  · intro hr
    cases hr with
    | done h' =>
      rw [h] at h'
      cases h'
    | run h' hr =>
      rw [h] at h'
      cases h'
      exact hr
  · exact Returns.run h

theorem returns_iff_of_done {s s' s'' : σ} {p : pc} {r r' : ρ} (h : f s p = some (s', .done r)) :
    Returns f s p s'' r' ↔ s'' = s' ∧ r' = r := by
  constructor
  · intro hr
    cases hr with
    | done h' =>
      rw [h] at h'
      cases h'
      exact ⟨rfl, rfl⟩
    | run h' hr =>
      rw [h] at h'
      cases h'
  · rintro ⟨rfl, rfl⟩
    exact Returns.done h

theorem Returns.lift {pc' ρ' : Type*} {g : σ → pc' → Option (σ × Outcome pc' ρ')}
    (embed : pc → pc') (result : ρ → ρ')
    (hrun : ∀ s s' p p', f s p = some (s', .run p') → g s (embed p) = some (s', .run (embed p')))
    (hdone : ∀ s s' p r, f s p = some (s', .done r) → g s (embed p) = some (s', .done (result r)))
    {s s' : σ} {p : pc} {r : ρ} (h : Returns f s p s' r) :
    Returns g s (embed p) s' (result r) := by
  induction h with
  | done h => exact .done (hdone _ _ _ _ h)
  | run h _ ih => exact .run (hrun _ _ _ _ h) ih

theorem Returns.unique {s s1 s2 : σ} {p : pc} {r1 r2 : ρ} (h1 : Returns f s p s1 r1)
    (h2 : Returns f s p s2 r2) : s1 = s2 ∧ r1 = r2 := by
  induction h1 with
  | done h =>
    obtain ⟨rfl, rfl⟩ := (returns_iff_of_done h).mp h2
    exact ⟨rfl, rfl⟩
  | run h _ ih => exact ih ((returns_iff_of_run h).mp h2)

/-- Complete calls one after the other, with the result of each call and what
can be seen of the state after it. -/
inductive Sequential (call : op → σ → σ → ρ → Prop) (view : σ → κ) :
    σ → List op → List (ρ × κ) → Prop
  | nil {s : σ} : Sequential call view s [] []
  | cons {s s' : σ} {o : op} {ops : List op} {r : ρ} {h : List (ρ × κ)} (hc : call o s s' r)
      (hs : Sequential call view s' ops h) :
      Sequential call view s (o :: ops) ((r, view s') :: h)

def history (O : AtomicObject ω op ρ) (a : ω) : List op → List (ρ × ω)
  | [] => []
  | o :: ops => ((O.apply o a).2, (O.apply o a).1) :: history O (O.apply o a).1 ops

/-- Calls that do on related states what the operations of an object do, as long
as the operations that remain are allowed, have its history and no other. -/
theorem sequential_iff_of_allowed {op' ρ' : Type*} {call : op → σ → σ → ρ → Prop} {view : σ → κ}
    (O : AtomicObject ω op' ρ') (erase : op → op') (result : ρ' → ρ) (contents : ω → κ)
    (R : σ → ω → Prop) (Allowed : ω → List op → Prop) (hview : ∀ s a, R s a → view s = contents a)
    (hunique : ∀ o s s1 s2 r1 r2, call o s s1 r1 → call o s s2 r2 → s1 = s2 ∧ r1 = r2)
    (hcall : ∀ s a o ops, R s a → Allowed a (o :: ops) →
      Allowed (O.apply (erase o) a).1 ops ∧ ∃ s', call o s s' (result (O.apply (erase o) a).2) ∧
        R s' (O.apply (erase o) a).1) {s : σ} {a : ω} (hR : R s a)
    (ops : List op) (hops : Allowed a ops) (h : List (ρ × κ)) :
    Sequential call view s ops h ↔
      h = (history O a (ops.map erase)).map (Prod.map result contents) := by
  induction ops generalizing s a h with
  | nil =>
    constructor
    · intro hs
      cases hs
      rfl
    · rintro rfl
      exact Sequential.nil
  | cons o ops ih =>
    obtain ⟨hops', s', hc, hR'⟩ := hcall s a o ops hR hops
    have hv := hview s' _ hR'
    constructor
    · intro hs
      cases hs with
      | cons hc' hs =>
        obtain ⟨rfl, rfl⟩ := hunique o s _ _ _ _ hc hc'
        rw [(ih hR' hops' _).mp hs, hv]
        rfl
    · rintro rfl
      have hs := Sequential.cons hc ((ih hR' hops' _).mpr rfl)
      rw [hv] at hs
      exact hs

theorem sequential_iff {op' ρ' : Type*} {call : op → σ → σ → ρ → Prop} {view : σ → κ}
    (O : AtomicObject ω op' ρ') (erase : op → op') (result : ρ' → ρ) (contents : ω → κ)
    (R : σ → ω → Prop) (hview : ∀ s a, R s a → view s = contents a)
    (hunique : ∀ o s s1 s2 r1 r2, call o s s1 r1 → call o s s2 r2 → s1 = s2 ∧ r1 = r2)
    (hcall : ∀ s a o, R s a → ∃ s', call o s s' (result (O.apply (erase o) a).2) ∧
      R s' (O.apply (erase o) a).1) {s : σ} {a : ω} (hR : R s a)
    (ops : List op) (h : List (ρ × κ)) :
    Sequential call view s ops h ↔
      h = (history O a (ops.map erase)).map (Prod.map result contents) :=
  sequential_iff_of_allowed O erase result contents R (fun _ _ => True) hview hunique
    (fun s a o _ hR _ => ⟨trivial, hcall s a o hR⟩) hR ops trivial h

end Libseff.CompleteCalls
