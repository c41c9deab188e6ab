import Libseff.LinkedLists
import Libseff.TransitionRuns

namespace Libseff.EffectRegistry

open LinkedLists TransitionRuns

def NULL : ℕ := 0

/-- The words of memory by their addresses, and `_seff_generated_ids`. -/
structure Registry where
  mem : ℕ → ℕ
  generated_ids : ℕ

def previous (c : ℕ) : ℕ := c

def handler (c : ℕ) : ℕ := c + 8

def next (c : ℕ) : ℕ := c + 16

def cellWords (c : ℕ) : List ℕ := [previous c, handler c, next c]

def store (r : Registry) (a v : ℕ) : Registry := { r with mem := Function.update r.mem a v }

def seffSetDefaultHandler (effect handler : ℕ) (r : Registry) : Registry × ℕ :=
  (store r effect handler, r.mem effect)

def seffGetDefaultHandler (effect : ℕ) (r : Registry) : ℕ := r.mem effect

/-- `newcell` is the block that `malloc` returns. -/
def seffAllocGenId (newcell : ℕ) (r : Registry) : Registry :=
  let r := store r (previous newcell) NULL
  let r := store r (handler newcell) NULL
  let r := store r (next newcell) r.generated_ids
  let r := store r (previous r.generated_ids) newcell
  { r with generated_ids := newcell }

def seffDeallocGenId (id : ℕ) (r : Registry) : Registry :=
  let back := r.mem (previous id)
  let forward := r.mem (next id)
  let r := if forward ≠ NULL then store r (previous forward) back else r
  if back ≠ NULL then store r (next back) forward else { r with generated_ids := forward }

/-- Where the program has `__seff_starting_struct` and the words of the effects
of `DEFINE_EFFECT`. -/
structure Layout where
  starting : ℕ
  isStatic : ℕ → Prop
  starting_ne : starting ≠ NULL
  static_ne : ¬ isStatic NULL
  disjoint : ∀ w ∈ cellWords starting, ¬ isStatic w

/-- `live` lists the blocks that `malloc` has given out and `free` has not had
back, newest first. -/
structure State where
  registry : Registry
  live : List ℕ

inductive Action where
  | alloc (newcell : ℕ)
  | dealloc (id : ℕ)
  | set (effect handler : ℕ)
  | get (effect : ℕ)

inductive Event where
  | alloc (id : ℕ)
  | dealloc (id : ℕ)
  | set (effect handler prev : ℕ)
  | get (effect handler : ℕ)

def cells (L : Layout) (live : List ℕ) : List ℕ := live ++ [L.starting]

def fresh (L : Layout) (live : List ℕ) (newcell : ℕ) : Prop :=
  newcell ≠ NULL ∧ ∀ w ∈ cellWords newcell, ¬ L.isStatic w ∧ ∀ c ∈ cells L live, w ∉ cellWords c

def isId (L : Layout) (s : State) (id : ℕ) : Prop := L.isStatic id ∨ id ∈ s.live

def mayRun (L : Layout) (s : State) : Action → Prop
  | .alloc newcell => fresh L s.live newcell
  | .dealloc id => id ∈ s.live
  | .set effect _ | .get effect => isId L s effect

def step (s : State) : Action → Option (State × Event)
  | .alloc newcell =>
    some (⟨seffAllocGenId newcell s.registry, newcell :: s.live⟩, .alloc newcell)
  | .dealloc id => some (⟨seffDeallocGenId id s.registry, s.live.erase id⟩, .dealloc id)
  | .set effect handler =>
    let (r, prev) := seffSetDefaultHandler effect handler s.registry
    some ({ s with registry := r }, .set effect handler prev)
  | .get effect => some (s, .get effect (seffGetDefaultHandler effect s.registry))

def isInit (L : Layout) (s : State) : Prop :=
  s.live = [] ∧ s.registry.generated_ids = L.starting ∧
    (∀ w ∈ cellWords L.starting, s.registry.mem w = NULL) ∧
    ∀ id, L.isStatic id → s.registry.mem id = NULL

def registrySystem (L : Layout) : System State Action Event where
  init := isInit L
  may := mayRun L
  step := step

/-- The handler that was set last for `id`, since it was allocated or defined. -/
def lastSet (id : ℕ) (tr : List Event) : ℕ :=
  tr.foldl (fun v e => match e with
    | .alloc id' => if id' = id then NULL else v
    | .set effect handler _ => if effect = id then handler else v
    | _ => v) NULL

def Registered (L : Layout) (s : State) : Prop :=
  s.registry.generated_ids = (cells L s.live).headD NULL ∧
    DoublyLinked (fun c => s.registry.mem (previous c)) (fun c => s.registry.mem (next c))
      NULL NULL (cells L s.live)

/-- What is promised of the handlers and of the registry along every run, up to
the step that comes next. -/
def IndependentHandlers (L : Layout) (S : System State Action Event) : Prop :=
  ∀ tr s, Run S tr s →
    Registered L s ∧
    (∀ id, isId L s id → seffGetDefaultHandler id s.registry = lastSet id tr) ∧
    ∀ a s' e, S.may s a → S.step s a = some (s', e) →
      (∀ id h, e = .get id h → h = lastSet id tr) ∧
      (∀ id h prev, e = .set id h prev → prev = lastSet id tr ∧
        s'.registry.generated_ids = s.registry.generated_ids ∧
        ∀ c ∈ cells L s.live, s'.registry.mem (previous c) = s.registry.mem (previous c) ∧
          s'.registry.mem (next c) = s.registry.mem (next c))

end Libseff.EffectRegistry
