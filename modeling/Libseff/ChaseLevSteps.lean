import Libseff.CircularArrays
import Libseff.TransitionRuns

namespace Libseff.ChaseLevSteps

open CircularArrays TransitionRuns

variable {ι α : Type}

/-- `cl_queue_t` and the arrays it has had: `array` is a pointer into `arrays`,
and a replaced array is leaked, so the thieves that still hold it can read it. -/
structure ClQueue (α : Type) where
  top : ℤ
  bottom : ℤ
  array : ℕ
  arrays : ℕ → CircularArray (QueueElt α)
  allocated : ℕ

def clQueueInit (log_size : ℕ) (junk : ℤ → QueueElt α) : ClQueue α :=
  ⟨0, 0, 0, fun _ => circularArrayNew log_size junk, 1⟩

def storeArrays (q : ClQueue α) (p : ℕ) (arr : CircularArray (QueueElt α)) : ClQueue α :=
  { q with arrays := Function.update q.arrays p arr }

/-- Each constructor is the access that `cl_queue_push` performs next, with the
locals that are set by then. -/
inductive Push (α : Type) where
  | loadBottom
  | loadTop (bottom : ℤ)
  | loadArray (bottom top : ℤ)
  | copyGet (bottom top : ℤ) (arr new : ℕ) (i : ℤ)
  | copySet (bottom top : ℤ) (arr new : ℕ) (i : ℤ) (elt : QueueElt α)
  | storeArray (bottom top : ℤ) (new : ℕ)
  | set (bottom top : ℤ) (arr : ℕ)
  | storeBottom (bottom top : ℤ)

/-- The loop test of `circular_array_resize`. -/
def copyNext (bottom top : ℤ) (arr new : ℕ) (i : ℤ) : Push α :=
  if i < bottom then .copyGet bottom top arr new i else .storeArray bottom top new

def clQueuePush (junk : ℤ → QueueElt α) (elt : α) (q : ClQueue α) :
    Push α → ClQueue α × Outcome (Push α) Unit
  | .loadBottom => (q, .run (.loadTop q.bottom))
  | .loadTop bottom => (q, .run (.loadArray bottom q.top))
  | .loadArray bottom top =>
    if bottom - top > (q.arrays q.array).size - 1 then
      ({ storeArrays q q.allocated (circularArrayGrow (q.arrays q.array) junk) with
          allocated := q.allocated + 1 },
        .run (copyNext bottom top q.array q.allocated top))
    else (q, .run (.set bottom top q.array))
  | .copyGet bottom top arr new i =>
    (q, .run (.copySet bottom top arr new i (caGet (q.arrays arr) i)))
  | .copySet bottom top arr new i v =>
    (storeArrays q new (caSet (q.arrays new) i v), .run (copyNext bottom top arr new (i + 1)))
  | .storeArray bottom top new => ({ q with array := new }, .run (.set bottom top new))
  | .set bottom top arr =>
    (storeArrays q arr (caSet (q.arrays arr) bottom (.task elt)), .run (.storeBottom bottom top))
  | .storeBottom bottom _ => ({ q with bottom := bottom + 1 }, .done ())

def clQueuePriorityPush (junk : ℤ → QueueElt α) (elt : α) (q : ClQueue α) :
    Push α → ClQueue α × Outcome (Push α) Unit :=
  clQueuePush junk elt q

inductive Pop (α : Type) where
  | loadBottom
  | loadArray (bottom : ℤ)
  | storeBottom (bottom : ℤ) (arr : ℕ)
  | loadTop (bottom : ℤ) (arr : ℕ)
  | get (bottom top : ℤ) (arr : ℕ)
  | cas (bottom top : ℤ) (elt : QueueElt α)
  | restore (bottom : ℤ) (elt : QueueElt α)

def clQueuePop (q : ClQueue α) : Pop α → ClQueue α × Outcome (Pop α) (QueueElt α)
  | .loadBottom => (q, .run (.loadArray (q.bottom - 1)))
  | .loadArray bottom => (q, .run (.storeBottom bottom q.array))
  | .storeBottom bottom arr => ({ q with bottom := bottom }, .run (.loadTop bottom arr))
  | .loadTop bottom arr =>
    if q.top ≤ bottom then (q, .run (.get bottom q.top arr)) else (q, .run (.restore bottom .EMPTY))
  | .get bottom top arr =>
    if top = bottom then (q, .run (.cas bottom top (caGet (q.arrays arr) bottom)))
    else (q, .done (caGet (q.arrays arr) bottom))
  | .cas bottom top elt =>
    if q.top = top then ({ q with top := top + 1 }, .run (.restore bottom elt))
    else (q, .run (.restore bottom .EMPTY))
  | .restore bottom elt => ({ q with bottom := bottom + 1 }, .done elt)

inductive Steal (α : Type) where
  | loadTop
  | loadBottom (top : ℤ)
  | loadArray (top : ℤ)
  | get (top : ℤ) (arr : ℕ)
  | cas (top : ℤ) (elt : QueueElt α)

def clQueueSteal (q : ClQueue α) : Steal α → ClQueue α × Outcome (Steal α) (QueueElt α)
  | .loadTop => (q, .run (.loadBottom q.top))
  | .loadBottom top => if top < q.bottom then (q, .run (.loadArray top)) else (q, .done .EMPTY)
  | .loadArray top => (q, .run (.get top q.array))
  | .get top arr => (q, .run (.cas top (caGet (q.arrays arr) top)))
  | .cas top elt =>
    if q.top = top then ({ q with top := top + 1 }, .done elt) else (q, .done .ABORT)

inductive Owner (α : Type) where
  | idle
  | push (elt : α) (pc : Push α)
  | pop (pc : Pop α)

inductive Thief (α : Type) where
  | idle
  | steal (pc : Steal α)

structure State (ι α : Type) where
  queue : ClQueue α
  owner : Owner α
  thief : ι → Thief α

inductive Action (ι α : Type) where
  | callPush (elt : α)
  | callPop
  | owner (junk : ℤ → QueueElt α)
  | callSteal (i : ι)
  | thief (i : ι)

inductive Result (α : Type) where
  | pushed (elt : α)
  | popped (elt : QueueElt α)
  | stolen (elt : QueueElt α)

/-- One step of the owner (`none`) or of a thief: the index it took by moving
`top` past it, and the result if it was the last step of a call. -/
structure Event (ι α : Type) where
  thread : Option ι
  took : Option ℤ
  result : Option (Result α)

def ownerPush (elt : α) :
    ClQueue α × Outcome (Push α) Unit → ClQueue α × Owner α × Option (Result α)
  | (q, .run pc) => (q, .push elt pc, none)
  | (q, .done _) => (q, .idle, some (.pushed elt))

def ownerPop :
    ClQueue α × Outcome (Pop α) (QueueElt α) → ClQueue α × Owner α × Option (Result α)
  | (q, .run pc) => (q, .pop pc, none)
  | (q, .done r) => (q, .idle, some (.popped r))

def ownerStep (junk : ℤ → QueueElt α) (q : ClQueue α) :
    Owner α → Option (ClQueue α × Owner α × Option (Result α))
  | .idle => none
  | .push elt pc => some (ownerPush elt (clQueuePush junk elt q pc))
  | .pop pc => some (ownerPop (clQueuePop q pc))

def thiefSteal :
    ClQueue α × Outcome (Steal α) (QueueElt α) → ClQueue α × Thief α × Option (Result α)
  | (q, .run pc) => (q, .steal pc, none)
  | (q, .done r) => (q, .idle, some (.stolen r))

def thiefStep (q : ClQueue α) : Thief α → Option (ClQueue α × Thief α × Option (Result α))
  | .idle => none
  | .steal pc => some (thiefSteal (clQueueSteal q pc))

def tookIndex (q q' : ClQueue α) : Option ℤ := if q.top = q'.top then none else some q.top

variable [DecidableEq ι]

def step (s : State ι α) : Action ι α → Option (State ι α × Event ι α)
  | .callPush elt =>
    match s.owner with
    | .idle => some ({ s with owner := .push elt .loadBottom }, ⟨none, none, none⟩)
    | _ => none
  | .callPop =>
    match s.owner with
    | .idle => some ({ s with owner := .pop .loadBottom }, ⟨none, none, none⟩)
    | _ => none
  | .owner junk =>
    (ownerStep junk s.queue s.owner).map fun (q, o, r) =>
      ({ s with queue := q, owner := o }, ⟨none, tookIndex s.queue q, r⟩)
  | .callSteal i =>
    match s.thief i with
    | .idle => some ({ s with thief := Function.update s.thief i (.steal .loadTop) },
        ⟨some i, none, none⟩)
    | _ => none
  | .thief i =>
    (thiefStep s.queue (s.thief i)).map fun (q, t, r) =>
      ({ s with queue := q, thief := Function.update s.thief i t },
        ⟨some i, tookIndex s.queue q, r⟩)

def clSystem (ι α : Type) [DecidableEq ι] (log_size : ℕ) :
    System (State ι α) (Action ι α) (Event ι α) where
  init s := ∃ junk, s = ⟨clQueueInit log_size junk, .idle, fun _ => .idle⟩
  may _ _ := True
  step := step

def pushed (tr : List (Event ι α)) : List (QueueElt α) :=
  tr.filterMap fun e => match e.result with
    | some (.pushed elt) => some (.task elt)
    | _ => none

def returned (tr : List (Event ι α)) : List (QueueElt α) :=
  tr.filterMap fun e => match e.result with
    | some (.popped .EMPTY) | some (.stolen .EMPTY) | some (.stolen .ABORT) => none
    | some (.popped elt) | some (.stolen elt) => some elt
    | _ => none

def quiescent (s : State ι α) : Prop := s.owner = .idle ∧ ∀ i, s.thief i = .idle

def contents (q : ClQueue α) : List (QueueElt α) :=
  caWindow (q.arrays q.array) q.top q.bottom

omit [DecidableEq ι] in
theorem tookIndex_bottom (q : ClQueue α) (b : ℤ) : tookIndex q { q with bottom := b } = none :=
  if_pos rfl

omit [DecidableEq ι] in
theorem tookIndex_top (q : ClQueue α) : tookIndex q { q with top := q.top + 1 } = some q.top :=
  if_neg (by simp)

theorem clQueuePush_done {junk : ℤ → QueueElt α} {elt : α} {q q' : ClQueue α} {pc : Push α}
    (h : clQueuePush junk elt q pc = (q', .done ())) :
    ∃ bottom top, pc = .storeBottom bottom top ∧ q' = { q with bottom := bottom + 1 } := by
  cases pc with
  | storeBottom bottom top =>
    cases h
    exact ⟨bottom, top, rfl, rfl⟩
  | loadArray bottom top =>
    simp only [clQueuePush] at h
    split at h <;> cases h
  | _ => cases h

theorem clQueuePop_done {q q' : ClQueue α} {pc : Pop α} {r : QueueElt α}
    (h : clQueuePop q pc = (q', .done r)) :
    (∃ bottom top arr, pc = .get bottom top arr ∧ top ≠ bottom ∧
      r = caGet (q.arrays arr) bottom ∧ q' = q) ∨
    ∃ bottom, pc = .restore bottom r ∧ q' = { q with bottom := bottom + 1 } := by
  cases pc with
  | get bottom top arr =>
    simp only [clQueuePop] at h
    split at h
    · cases h
    · cases h
      exact .inl ⟨bottom, top, arr, rfl, by assumption, rfl, rfl⟩
  | restore bottom elt =>
    cases h
    exact .inr ⟨bottom, rfl, rfl⟩
  | loadTop bottom arr | cas bottom top elt =>
    simp only [clQueuePop] at h
    split at h <;> cases h
  | _ => cases h

theorem clQueuePop_run {q q' : ClQueue α} {pc pc' : Pop α}
    (h : clQueuePop q pc = (q', .run pc')) :
    q'.top = q.top ∨ ∃ bottom elt, pc = .cas bottom q.top elt ∧ pc' = .restore bottom elt ∧
      q' = { q with top := q.top + 1 } := by
  cases pc with
  | cas bottom top elt =>
    simp only [clQueuePop] at h
    split at h
    · rename_i ht
      subst ht
      cases h
      exact .inr ⟨bottom, elt, rfl, rfl, rfl⟩
    · cases h
      exact .inl rfl
  | loadTop bottom arr | get bottom top arr =>
    simp only [clQueuePop] at h
    split at h <;> cases h <;> exact .inl rfl
  | restore bottom elt => cases h
  | _ =>
    cases h
    exact .inl rfl

theorem clQueueSteal_abort {q q' : ClQueue α} {pc : Steal α}
    (h : clQueueSteal q pc = (q', .done .ABORT)) :
    ∃ top elt, pc = .cas top elt ∧ (q.top = top → elt = .ABORT) := by
  cases pc with
  | cas top elt =>
    refine ⟨top, elt, rfl, fun ht => ?_⟩
    simp only [clQueueSteal, ht, if_true, Prod.mk.injEq, Outcome.done.injEq] at h
    exact h.2
  | loadBottom top =>
    simp only [clQueueSteal] at h
    split at h <;> cases h
  | _ => cases h

theorem step_popped {s s' : State ι α} {a : Action ι α} {e : Event ι α} {r : QueueElt α}
    (h : step s a = some (s', e)) (he : e.result = some (.popped r)) :
    ∃ pc, s.owner = .pop pc ∧ clQueuePop s.queue pc = (s'.queue, .done r) := by
  cases a with
  | owner junk =>
    simp only [step, Option.map_eq_some_iff] at h
    obtain ⟨⟨q, o, r⟩, ho, hq⟩ := h
    cases hq
    cases he
    cases hpc : s.owner with
    | idle => simp [ownerStep, hpc] at ho
    | push elt pc =>
      simp only [ownerStep, hpc, Option.some.injEq] at ho
      rcases hq : clQueuePush junk elt s.queue pc with ⟨q', pc' | ⟨⟩⟩ <;> cases hq ▸ ho
    | pop pc =>
      simp only [ownerStep, hpc, Option.some.injEq] at ho
      rcases hq : clQueuePop s.queue pc with ⟨q', pc' | r⟩ <;> cases hq ▸ ho
      exact ⟨pc, rfl, hq⟩
  | thief i =>
    simp only [step, Option.map_eq_some_iff] at h
    obtain ⟨⟨q, t, r⟩, ht, hq⟩ := h
    cases hq
    cases he
    cases hpc : s.thief i with
    | idle => simp [thiefStep, hpc] at ht
    | steal pc =>
      simp only [thiefStep, hpc, Option.some.injEq] at ht
      rcases hq : clQueueSteal s.queue pc with ⟨q', pc' | r⟩ <;> cases hq ▸ ht
  | _ =>
    simp only [step] at h
    split at h <;> cases h
    cases he

theorem step_stolen {s s' : State ι α} {a : Action ι α} {e : Event ι α} {r : QueueElt α}
    (h : step s a = some (s', e)) (he : e.result = some (.stolen r)) :
    ∃ i pc, e.thread = some i ∧ s.thief i = .steal pc ∧
      clQueueSteal s.queue pc = (s'.queue, .done r) := by
  cases a with
  | owner junk =>
    simp only [step, Option.map_eq_some_iff] at h
    obtain ⟨⟨q, o, r⟩, ho, hq⟩ := h
    cases hq
    cases he
    cases hpc : s.owner with
    | idle => simp [ownerStep, hpc] at ho
    | push elt pc =>
      simp only [ownerStep, hpc, Option.some.injEq] at ho
      rcases hq : clQueuePush junk elt s.queue pc with ⟨q', pc' | ⟨⟩⟩ <;> cases hq ▸ ho
    | pop pc =>
      simp only [ownerStep, hpc, Option.some.injEq] at ho
      rcases hq : clQueuePop s.queue pc with ⟨q', pc' | r⟩ <;> cases hq ▸ ho
  | thief i =>
    simp only [step, Option.map_eq_some_iff] at h
    obtain ⟨⟨q, t, r⟩, ht, hq⟩ := h
    cases hq
    cases he
    cases hpc : s.thief i with
    | idle => simp [thiefStep, hpc] at ht
    | steal pc =>
      simp only [thiefStep, hpc, Option.some.injEq] at ht
      rcases hq : clQueueSteal s.queue pc with ⟨q', pc' | r⟩ <;> cases hq ▸ ht
      exact ⟨i, pc, rfl, hpc, hq⟩
  | _ =>
    simp only [step] at h
    split at h <;> cases h
    cases he

end Libseff.ChaseLevSteps
