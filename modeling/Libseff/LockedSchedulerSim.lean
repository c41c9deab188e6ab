import Libseff.LockedQueueMoves
import Libseff.LockedSchedulerFrames
import Libseff.TaskHistories

namespace Libseff.LockedSchedulerSim

open TransitionRuns AtomicObjects SlotQueues Scheduler SchedulerPlaces SchedulerMoves
  SchedulerOwner SchedulerRuns TaskLives LockedQueueSim LockedScheduler LockedSchedulerFrames

variable {n : ℕ} {V : Type}

def phaseAt (q : LockedQueue.State (Fin n) ℕ) : Option (Fin n) → Phase (Op ℕ) (Option ℕ)
  | none => ownerPhase q.owner
  | some i => thiefPhase (q.thief i)

def phase (s : TlState n V) (i : Fin n) (c : Option (Fin n)) : Phase (Op ℕ) (Option ℕ) :=
  phaseAt (s.queue (c.getD i)) (c.map fun _ => i)

def shownAt (x : Worker V) : Phase (Op ℕ) (Option ℕ) → Worker V
  | .done r => afterCall x r
  | _ => x

theorem phase_eq {q : LockedQueue.State (Fin n) ℕ} {a : SlotQueue ℕ}
    {p : Option (Fin n) → Phase (Op ℕ) (Option ℕ)} (h : Sim q a p) : p = phaseAt q := by
  funext c
  cases c with
  | none => exact h.phase_owner
  | some i => exact h.phase_thief i

theorem takePhase_ne_idle (op : Op ℕ) (pc : LockedQueue.Take ℕ) :
    takePhase op pc ≠ .idle := by
  cases pc <;> nofun

theorem pushPhase_ne_idle (op : Op ℕ) (pc : LockedQueue.Push) : pushPhase op pc ≠ .idle := by
  cases pc <;> nofun

theorem idleAt_iff {q : LockedQueue.State (Fin n) ℕ} {c : Option (Fin n)} :
    idleAt q c = true ↔ phaseAt q c = .idle := by
  cases c with
  | none =>
    cases hpc : q.owner with
    | idle => simp [idleAt, phaseAt, hpc, ownerPhase]
    | push elt pc => simp [idleAt, phaseAt, hpc, ownerPhase, pushPhase_ne_idle]
    | pushOld elt old pc => simp [idleAt, phaseAt, hpc, ownerPhase, pushPhase_ne_idle]
    | pop pc => simp [idleAt, phaseAt, hpc, ownerPhase, takePhase_ne_idle]
    | loadBuffer | storeBuffer | testBuffer | takeBuffer | clearBuffer =>
      simp [idleAt, phaseAt, hpc, ownerPhase]
  | some i =>
    cases hpc : q.thief i with
    | idle => simp [idleAt, phaseAt, hpc, thiefPhase]
    | steal pc => simp [idleAt, phaseAt, hpc, thiefPhase, takePhase_ne_idle]

section Sim

variable [NeZero n]

def workerAt (s : TlState n V) (i : Fin n) : Worker V :=
  match queueCall i (s.worker i) with
  | some (c, _) => shownAt (s.worker i) (phase s i c)
  | none => s.worker i

/-- The scheduler that a state stands for, with the queues that its queues stand for. -/
def shown (s : TlState n V) (queue : Fin n → SlotQueue ℕ) : State n V :=
  withOthers (plain s) queue (workerAt s)

structure Refines (s : TlState n V) (t : State n V) : Prop where
  eq : t = shown s t.queue
  queue : ∀ j, ∃ hist, Sim (s.queue j) (t.queue j) (phaseAt (s.queue j)) ∧
    Linearized (slotQueue ℕ) hist (t.queue j) (phaseAt (s.queue j))
  idle : ∀ i c, (∀ op, queueCall i (s.worker i) ≠ some (c, op)) → phase s i c = .idle
  pending : ∀ i c op o, queueCall i (s.worker i) = some (c, op) → phase s i c = .pending o → o = op

variable {s : TlState n V} {t : State n V}

theorem workerAt_of_none {i : Fin n} (h : queueCall i (s.worker i) = none) :
    workerAt s i = s.worker i := by
  rw [workerAt, h]

theorem workerAt_of_some {i : Fin n} {c : Option (Fin n)} {op : Op ℕ}
    (h : queueCall i (s.worker i) = some (c, op)) :
    workerAt s i = shownAt (s.worker i) (phase s i c) := by
  rw [workerAt, h]

theorem workerAt_of_idle {i : Fin n} (h : ∀ c, phase s i c = .idle) :
    workerAt s i = s.worker i := by
  rw [workerAt]
  split
  · rw [h]
    rfl
  · rfl

theorem workerAt_congr {s' : TlState n V} {i : Fin n} (hw : s'.worker i = s.worker i)
    (hp : ∀ c, phase s' i c = phase s i c) : workerAt s' i = workerAt s i := by
  simp only [workerAt, hw, hp]

omit [NeZero n] in
theorem thread_inj {i i' : Fin n} {c c' : Option (Fin n)} (hq : c'.getD i' = c.getD i)
    (hc : (c'.map fun _ => i') = c.map fun _ => i) : i' = i ∧ c' = c := by
  cases c with
  | none =>
    cases c' with
    | none => exact ⟨hq, rfl⟩
    | some j => cases hc
  | some k =>
    cases c' with
    | none => cases hc
    | some j => exact ⟨Option.some.inj hc, congrArg some hq⟩

omit [NeZero n] in
theorem phase_self {i : Fin n} {c : Option (Fin n)} {q : LockedQueue.State (Fin n) ℕ}
    {x : Phase (Op ℕ) (Option ℕ)} (hp : phaseAt q =
      Function.update (phaseAt (s.queue (c.getD i))) (c.map fun _ => i) x) :
    phase (setTlQueue s (c.getD i) q) i c = x := by
  simp only [phase, setTlQueue, Function.update_self, hp]

omit [NeZero n] in
theorem phase_other {i : Fin n} {c : Option (Fin n)} {q : LockedQueue.State (Fin n) ℕ}
    {x : Phase (Op ℕ) (Option ℕ)} (hp : phaseAt q =
      Function.update (phaseAt (s.queue (c.getD i))) (c.map fun _ => i) x) {i' : Fin n}
    {c' : Option (Fin n)} (hne : ¬ (i' = i ∧ c' = c)) :
    phase (setTlQueue s (c.getD i) q) i' c' = phase s i' c' := by
  by_cases hj : c'.getD i' = c.getD i
  · have hthread : (c'.map fun _ => i') ≠ c.map fun _ => i := fun hc => hne (thread_inj hj hc)
    simp only [phase, setTlQueue, hj, Function.update_self, hp, Function.update_of_ne hthread]
  · simp only [phase, setTlQueue, Function.update_of_ne hj]

theorem refines_call (h : Refines s t) {i : Fin n} {c : Option (Fin n)} {op : Op ℕ}
    (hcall : queueCall i (s.worker i) = some (c, op)) {q : LockedQueue.State (Fin n) ℕ}
    {a : SlotQueue ℕ} {hist : List (HistoryEvent (Option (Fin n)) (Op ℕ) (Option ℕ))}
    {x : Phase (Op ℕ) (Option ℕ)} (hsim : Sim q a (phaseAt q))
    (hl : Linearized (slotQueue ℕ) hist a (phaseAt q))
    (hp : phaseAt q = Function.update (phaseAt (s.queue (c.getD i))) (c.map fun _ => i) x)
    (hx : ∀ o, x = .pending o → o = op) :
    Refines (setTlQueue s (c.getD i) q)
      (setWorker (setQueue t (c.getD i) a) i (shownAt (s.worker i) x)) where
  eq := by
    have hworker : workerAt (setTlQueue s (c.getD i) q) =
        Function.update (workerAt s) i (shownAt (s.worker i) x) := by
      funext i'
      by_cases hi : i' = i
      · subst hi
        rw [Function.update_self, workerAt_of_some (s := setTlQueue s (c.getD i') q) hcall,
          phase_self hp]
        rfl
      · rw [Function.update_of_ne hi]
        exact workerAt_congr rfl fun c' => phase_other hp fun he => hi he.1
    have heq := h.eq
    rw [shown, hworker]
    simp only [setWorker, setQueue]
    rw [heq]
    rfl
  queue j := by
    by_cases hj : j = c.getD i
    · subst hj
      simp only [setTlQueue, setWorker, setQueue, Function.update_self]
      exact ⟨hist, hsim, hl⟩
    · simp only [setTlQueue, setWorker, setQueue, Function.update_of_ne hj]
      exact h.queue j
  idle i' c' hno := by
    by_cases he : i' = i ∧ c' = c
    · obtain ⟨rfl, rfl⟩ := he
      exact absurd hcall (hno op)
    · rw [phase_other hp he]
      exact h.idle i' c' hno
  pending i' c' op' o hc hpending := by
    by_cases he : i' = i ∧ c' = c
    · obtain ⟨rfl, rfl⟩ := he
      obtain ⟨-, rfl⟩ := Prod.mk.inj (Option.some.inj (hcall.symm.trans hc))
      rw [phase_self hp] at hpending
      exact hx o hpending
    · rw [phase_other hp he] at hpending
      exact h.pending i' c' op' o hc hpending

theorem refines_alone (h : Refines s t) {i : Fin n} (hidle : ∀ c, phase s i c = .idle)
    {u : State n V} (hothers : u.worker = Function.update s.worker i (u.worker i)) :
    Refines (withQueues u s.queue)
      (withOthers u t.queue (Function.update (workerAt s) i (u.worker i))) where
  eq := by
    have hworker : workerAt (withQueues u s.queue) =
        Function.update (workerAt s) i (u.worker i) := by
      funext i'
      by_cases hi : i' = i
      · subst hi
        rw [workerAt_of_idle (s := withQueues u s.queue) hidle, Function.update_self]
        rfl
      · rw [Function.update_of_ne hi]
        exact workerAt_congr ((congrFun hothers i').trans (Function.update_of_ne hi _ _))
          fun _ => rfl
    rw [shown, hworker]
    rfl
  queue := h.queue
  idle i' c hno := by
    by_cases hi : i' = i
    · subst hi
      exact hidle c
    · refine h.idle i' c fun op he => hno op ?_
      exact (congrArg (queueCall i')
        ((congrFun hothers i').trans (Function.update_of_ne hi _ _))).trans he
  pending i' c op o hc hpending := by
    by_cases hi : i' = i
    · subst hi
      have hno : phase s i' c = .pending o := hpending
      rw [hidle c] at hno
      cases hno
    · refine h.pending i' c op o ?_ hpending
      exact (congrArg (queueCall i')
        ((congrFun hothers i').trans (Function.update_of_ne hi _ _))).symm.trans hc

theorem refines_worker (h : Refines s t) {i : Fin n} (hidle : ∀ c, phase s i c = .idle)
    (x : Worker V) : Refines (setTlWorker s i x) (setWorker t i x) := by
  have hnext := refines_alone h hidle (u := setWorker (plain s) i x)
    (by simp only [setWorker, Function.update_self, plain])
  have heq : setWorker t i x = withOthers (setWorker (plain s) i x) t.queue
      (Function.update (workerAt s) i ((setWorker (plain s) i x).worker i)) := by
    conv_lhs => rw [h.eq]
    simp only [setWorker, shown, withOthers, Function.update_self]
  rw [heq]
  exact hnext

theorem refines_main (h : Refines s t) (main : Main) :
    Refines { s with main := main } { t with main := main } where
  eq := by
    conv_lhs => rw [h.eq]
    rfl
  queue := h.queue
  idle := h.idle
  pending := h.pending

end Sim

end Libseff.LockedSchedulerSim
