import Libseff.TransitionRuns

namespace Libseff.AtomicObjects

open TransitionRuns

/-- An object all of whose operations are single steps. -/
structure AtomicObject (ω op ρ : Type*) where
  init : ω
  apply : op → ω → ω × ρ

/-- Where a thread is in its call: the operation has not taken place, or its
result is still to be returned. -/
inductive Phase (op ρ : Type*) where
  | idle
  | pending (o : op)
  | done (r : ρ)

inductive HistoryEvent (ι op ρ : Type*) where
  | call (i : ι) (o : op)
  | ret (i : ι) (r : ρ)

variable {ω op ρ : Type*} {ι : Type*} [DecidableEq ι]

/-- A history of overlapping calls in which every operation takes place at one
point between its call and its return. -/
inductive Linearized (O : AtomicObject ω op ρ) :
    List (HistoryEvent ι op ρ) → ω → (ι → Phase op ρ) → Prop
  | start : Linearized O [] O.init (fun _ => .idle)
  | call {h : List (HistoryEvent ι op ρ)} {a : ω} {p : ι → Phase op ρ} {i : ι} (o : op)
      (hl : Linearized O h a p) (hp : p i = .idle) :
      Linearized O (h ++ [.call i o]) a (Function.update p i (.pending o))
  | point {h : List (HistoryEvent ι op ρ)} {a : ω} {p : ι → Phase op ρ} {i : ι} {o : op}
      (hl : Linearized O h a p) (hp : p i = .pending o) :
      Linearized O h (O.apply o a).1 (Function.update p i (.done (O.apply o a).2))
  | ret {h : List (HistoryEvent ι op ρ)} {a : ω} {p : ι → Phase op ρ} {i : ι} {r : ρ}
      (hl : Linearized O h a p) (hp : p i = .done r) :
      Linearized O (h ++ [.ret i r]) a (Function.update p i .idle)

theorem Linearized.point_ret {O : AtomicObject ω op ρ} {h : List (HistoryEvent ι op ρ)} {a : ω}
    {p : ι → Phase op ρ} {i : ι} {o : op} (hl : Linearized O h a p) (hp : p i = .pending o) :
    Linearized O (h ++ [.ret i (O.apply o a).2]) (O.apply o a).1 (Function.update p i .idle) := by
  have hpoint := Linearized.point hl hp
  have hret := Linearized.ret hpoint (Function.update_self ..)
  rwa [Function.update_idem] at hret

/-- A run is linearizable when every step of it answers to steps of the object. -/
theorem Linearized.of_run {σ act ε : Type*} {S : System σ act ε} {O : AtomicObject ω op ρ}
    (hist : ε → List (HistoryEvent ι op ρ)) (R : σ → ω → (ι → Phase op ρ) → Prop)
    (hinit : ∀ s, S.init s → R s O.init (fun _ => .idle))
    (hstep : ∀ s x s' e h a p, R s a p → Linearized O h a p → S.may s x →
      S.step s x = some (s', e) → ∃ a' p', R s' a' p' ∧ Linearized O (h ++ hist e) a' p')
    {tr : List ε} {s : σ} (hrun : Run S tr s) :
    ∃ a p, R s a p ∧ Linearized O (tr.flatMap hist) a p := by
  induction hrun with
  | start h => exact ⟨O.init, fun _ => .idle, hinit _ h, Linearized.start⟩
  | next _ hm hs ih =>
    obtain ⟨a, p, hR, hl⟩ := ih
    obtain ⟨a', p', hR', hl'⟩ := hstep _ _ _ _ _ a p hR hl hm hs
    refine ⟨a', p', hR', ?_⟩
    rw [List.flatMap_append, List.flatMap_singleton]
    exact hl'

inductive Moves (O : AtomicObject ω op ρ) (i : ι) : ω → (ι → Phase op ρ) →
    Option (HistoryEvent ι op ρ) → ω → (ι → Phase op ρ) → Prop
  | silent {a : ω} {p : ι → Phase op ρ} : Moves O i a p none a p
  | call {a : ω} {p : ι → Phase op ρ} (o : op) (hp : p i = .idle) :
      Moves O i a p (some (.call i o)) a (Function.update p i (.pending o))
  | point {a : ω} {p : ι → Phase op ρ} (o : op) (hp : p i = .pending o) :
      Moves O i a p none (O.apply o a).1 (Function.update p i (.done (O.apply o a).2))
  | ret {a : ω} {p : ι → Phase op ρ} (r : ρ) (hp : p i = .done r) :
      Moves O i a p (some (.ret i r)) a (Function.update p i .idle)
  | pointRet {a : ω} {p : ι → Phase op ρ} (o : op) (hp : p i = .pending o) :
      Moves O i a p (some (.ret i (O.apply o a).2)) (O.apply o a).1 (Function.update p i .idle)

end Libseff.AtomicObjects
