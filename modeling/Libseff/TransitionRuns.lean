import Mathlib.Data.List.Basic
import Mathlib.Algebra.GroupWithZero.Nat

namespace Libseff.TransitionRuns

/-- A program as a scheduler sees it: `step s a` performs the atomic step that
`a` selects and reports what can be observed of it, and `may` collects the
obligations of the clients of the program. -/
structure System (σ act ε : Type*) where
  init : σ → Prop
  may : σ → act → Prop
  step : σ → act → Option (σ × ε)

/-- Where a function is after one atomic step: before its next one, or back at
its caller. -/
inductive Outcome (pc ρ : Type*) where
  | run (p : pc)
  | done (r : ρ)

def Outcome.Meets {pc ρ : Type*} (P : pc → Prop) (Q : ρ → Prop) : Outcome pc ρ → Prop
  | .run p => P p
  | .done r => Q r

variable {σ act ε : Type*}

/-- A finite interleaving with the events observed along it, oldest first. -/
inductive Run (S : System σ act ε) : List ε → σ → Prop
  | start {s : σ} (h : S.init s) : Run S [] s
  | next {tr : List ε} {s s' : σ} {a : act} {e : ε} (h : Run S tr s) (hm : S.may s a)
      (hs : S.step s a = some (s', e)) : Run S (tr ++ [e]) s'

theorem Run.invariant {S : System σ act ε} (I : List ε → σ → Prop)
    (h0 : ∀ s, S.init s → I [] s)
    (hstep : ∀ tr s a s' e, I tr s → S.may s a → S.step s a = some (s', e) → I (tr ++ [e]) s')
    {tr : List ε} {s : σ} (h : Run S tr s) : I tr s := by
  induction h with
  | start h => exact h0 _ h
  | next _ hm hs ih => exact hstep _ _ _ _ _ ih hm hs

def System.restrict (S : System σ act ε) (C : σ → act → Prop) : System σ act ε :=
  { S with may := fun s a => S.may s a ∧ C s a }

theorem Run.of_restrict {S : System σ act ε} {C : σ → act → Prop} {tr : List ε} {s : σ}
    (h : Run (S.restrict C) tr s) : Run S tr s := by
  induction h with
  | start h => exact Run.start h
  | next _ hm hs ih => exact Run.next ih hm.1 hs

def System.relabel {ω : Type*} (S : System σ act ε) (f : σ → act → ω) : System σ act ω :=
  { init := S.init, may := S.may, step := fun s a => (S.step s a).map fun p => (p.1, f s a) }

theorem Run.of_relabel {ω : Type*} {S : System σ act ε} {f : σ → act → ω} {tr : List ω} {s : σ}
    (h : Run (S.relabel f) tr s) : ∃ tr', Run S tr' s := by
  induction h with
  | start h => exact ⟨[], Run.start h⟩
  | next _ hm hs ih =>
    obtain ⟨tr', hrun⟩ := ih
    obtain ⟨p, hp, he⟩ := Option.map_eq_some_iff.mp hs
    cases he
    exact ⟨_, Run.next hrun hm hp⟩

inductive Path (S : System σ act ε) (s : σ) : List ε → σ → Prop
  | refl : Path S s [] s
  | next {tr : List ε} {s' s'' : σ} {a : act} {e : ε} (h : Path S s tr s') (hm : S.may s' a)
      (hs : S.step s' a = some (s'', e)) : Path S s (tr ++ [e]) s''

theorem Path.single {S : System σ act ε} {s s' : σ} {a : act} {e : ε} (hm : S.may s a)
    (hs : S.step s a = some (s', e)) : Path S s [e] s' := Path.next Path.refl hm hs

theorem Run.append_path {S : System σ act ε} {tr tr' : List ε} {s s' : σ} (h : Run S tr s)
    (hp : Path S s tr' s') : Run S (tr ++ tr') s' := by
  induction hp with
  | refl => simpa using h
  | next _ hm hs ih =>
    rw [← List.append_assoc]
    exact Run.next ih hm hs

/-- Where every step makes a measure smaller by what it costs, all steps together
cost no more than it says at the start. -/
theorem Path.cost_le {S : System σ act ε} (I : σ → Prop) (μ : σ → ℕ) (cost : ε → ℕ)
    (hstep : ∀ s a s' e, I s → S.may s a → S.step s a = some (s', e) →
      I s' ∧ μ s' + cost e ≤ μ s)
    {s s' : σ} {tr : List ε} (h : I s) (hp : Path S s tr s') :
    I s' ∧ (tr.map cost).sum + μ s' ≤ μ s := by
  induction hp with
  | refl => exact ⟨h, Nat.le_of_eq (Nat.zero_add _)⟩
  | next _ hm hs ih =>
    obtain ⟨hi, hle⟩ := ih
    obtain ⟨hi', hlt⟩ := hstep _ _ _ _ hi hm hs
    refine ⟨hi', ?_⟩
    rw [List.map_append, List.sum_append_nat, List.map_singleton, List.sum_cons, List.sum_nil]
    omega

theorem Path.length_le {S : System σ act ε} (I : σ → Prop) (μ : σ → ℕ)
    (hstep : ∀ s a s' e, I s → S.may s a → S.step s a = some (s', e) → I s' ∧ μ s' < μ s)
    {s s' : σ} {tr : List ε} (h : I s) (hp : Path S s tr s') : I s' ∧ tr.length + μ s' ≤ μ s := by
  obtain ⟨hi, hle⟩ := Path.cost_le I μ (fun _ => 1) hstep h hp
  refine ⟨hi, ?_⟩
  rwa [List.map_const', List.sum_replicate_nat, Nat.mul_one] at hle

/-- A program whose every step answers to steps of another one does what the
other one can do. -/
theorem Run.simulate {τ act' ε' ω : Type*} {S : System σ act ε} {T : System τ act' ε'}
    (R : σ → τ → Prop) (seen : ε → List ω) (seen' : ε' → List ω)
    (hinit : ∀ s, S.init s → ∃ t, T.init t ∧ R s t)
    (hstep : ∀ s a s' e t tr, R s t → Run T tr t → S.may s a → S.step s a = some (s', e) →
      ∃ tr' t', Path T t tr' t' ∧ R s' t' ∧ tr'.flatMap seen' = seen e)
    {tr : List ε} {s : σ} (h : Run S tr s) :
    ∃ tr' t, Run T tr' t ∧ R s t ∧ tr'.flatMap seen' = tr.flatMap seen := by
  induction h with
  | start h =>
    obtain ⟨t, ht, hR⟩ := hinit _ h
    exact ⟨[], t, Run.start ht, hR, rfl⟩
  | next _ hm hs ih =>
    obtain ⟨tr1, t, hrun, hR, hseen⟩ := ih
    obtain ⟨tr2, t', hpath, hR', hseen'⟩ := hstep _ _ _ _ _ _ hR hrun hm hs
    refine ⟨tr1 ++ tr2, t', hrun.append_path hpath, hR', ?_⟩
    rw [List.flatMap_append, List.flatMap_append, List.flatMap_singleton, hseen, hseen']

/-- The run that a scheduler chooses, where `ok` checks the obligations of the
clients. -/
def exec (S : System σ act ε) (ok : σ → act → Bool) : σ → List act → Option (σ × List ε)
  | s, [] => some (s, [])
  | s, a :: as =>
    if ok s a then (S.step s a).bind fun p => (exec S ok p.1 as).map fun q => (q.1, p.2 :: q.2)
    else none

theorem Run.append_exec {S : System σ act ε} {ok : σ → act → Bool}
    (hok : ∀ s a, ok s a = true → S.may s a) {as : List act} {tr tr' : List ε} {s s' : σ}
    (h : Run S tr s) (he : exec S ok s as = some (s', tr')) : Run S (tr ++ tr') s' := by
  induction as generalizing tr s tr' with
  | nil =>
    simp only [exec, Option.some.injEq, Prod.mk.injEq] at he
    obtain ⟨rfl, rfl⟩ := he
    simpa using h
  | cons a as ih =>
    rw [exec] at he
    split at he
    · rename_i ha
      simp only [Option.bind_eq_some_iff, Option.map_eq_some_iff, Prod.mk.injEq] at he
      obtain ⟨⟨u, e⟩, hu, ⟨v, tr''⟩, hv, rfl, rfl⟩ := he
      simpa using ih (Run.next h (hok s a ha) hu) hv
    · cases he

theorem exec_append (S : System σ act ε) (ok : σ → act → Bool) (s : σ) (as as' : List act) :
    exec S ok s (as ++ as') =
      (exec S ok s as).bind fun p => (exec S ok p.1 as').map fun q => (q.1, p.2 ++ q.2) := by
  induction as generalizing s with
  | nil => simp [exec]
  | cons a as ih =>
    simp only [List.cons_append, exec]
    split
    · cases S.step s a with
      | none => rfl
      | some p =>
        simp only [Option.bind_some, ih]
        cases exec S ok p.1 as with
        | none => rfl
        | some q =>
          simp only [Option.bind_some, Option.map_some]
          cases exec S ok q.1 as' <;> rfl
    · rfl

theorem Path.append_exec {S : System σ act ε} {ok : σ → act → Bool}
    (hok : ∀ s a, ok s a = true → S.may s a) {as : List act} {tr tr' : List ε} {s s' s'' : σ}
    (h : Path S s tr s') (he : exec S ok s' as = some (s'', tr')) : Path S s (tr ++ tr') s'' := by
  induction as generalizing tr s' tr' with
  | nil =>
    simp only [exec, Option.some.injEq, Prod.mk.injEq] at he
    obtain ⟨rfl, rfl⟩ := he
    simpa using h
  | cons a as ih =>
    rw [exec] at he
    split at he
    · rename_i ha
      simp only [Option.bind_eq_some_iff, Option.map_eq_some_iff, Prod.mk.injEq] at he
      obtain ⟨⟨u, e⟩, hu, ⟨v, tr''⟩, hv, rfl, rfl⟩ := he
      simpa using ih (Path.next h (hok s' a ha) hu) hv
    · cases he

theorem Run.exists_of_exec {β : Type*} {S : System σ act ε} {ok : σ → act → Bool}
    (hok : ∀ s a, ok s a = true → S.may s a) (as : List act) {s : σ} (h : S.init s)
    (f : σ × List ε → β) {b : β} (he : (exec S ok s as).map f = some b) :
    ∃ tr s', Run S tr s' ∧ f (s', tr) = b := by
  obtain ⟨⟨s', tr⟩, hex, hb⟩ := Option.map_eq_some_iff.mp he
  have hrun := Run.append_exec hok (Run.start h) hex
  exact ⟨tr, s', hrun, hb⟩

theorem Run.exists_path_of_exec {β β' : Type*} {S : System σ act ε} {ok : σ → act → Bool}
    (hok : ∀ s a, ok s a = true → S.may s a) (as as' : List act) {s : σ} (h : S.init s)
    (f : σ × List ε → β) {b : β} (he : (exec S ok s as).map f = some b) (f' : σ × List ε → β')
    {b' : β'} (he' : (exec S ok s (as ++ as')).map f' = some b') :
    ∃ tr u tr' u', Run S tr u ∧ f (u, tr) = b ∧ Path S u tr' u' ∧ f' (u', tr ++ tr') = b' := by
  obtain ⟨⟨u, tr⟩, hu, hb⟩ := Option.map_eq_some_iff.mp he
  obtain ⟨⟨u', tr''⟩, hu', hb'⟩ := Option.map_eq_some_iff.mp he'
  rw [exec_append, hu, Option.bind_some] at hu'
  obtain ⟨⟨v, tr'⟩, hv, hp⟩ := Option.map_eq_some_iff.mp hu'
  cases hp
  have hrun := Run.append_exec hok (Run.start h) hu
  have hpath := Path.append_exec hok Path.refl hv
  exact ⟨tr, u, tr', v, hrun, hb, hpath, hb'⟩

end Libseff.TransitionRuns
