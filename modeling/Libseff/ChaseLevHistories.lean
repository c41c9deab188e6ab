import Libseff.ChaseLevDeque
import Libseff.SpecObjects

namespace Libseff.ChaseLevHistories

open CircularArrays TransitionRuns AtomicObjects SpecObjects ChaseLevSteps ChaseLevInvariant
  ChaseLevPush ChaseLevSafety ChaseLevDeque

variable {ι α : Type}

inductive Op (α : Type) where
  | push (elt : α)
  | pop
  | steal

inductive Allows {α : Type} : Op α → List α → List α → Option (QueueElt α) → Prop
  | push (l : List α) (x : α) : Allows (.push x) l (l ++ [x]) none
  | pop (l : List α) (x : α) : Allows .pop (l ++ [x]) l (some (.task x))
  | popEmpty : Allows .pop [] [] (some .EMPTY)
  | steal (l : List α) (x : α) : Allows .steal (x :: l) l (some (.task x))
  | stealEmpty : Allows .steal [] [] (some .EMPTY)
  | stealAbort (l : List α) : Allows .steal l l (some .ABORT)

/-- A double-ended queue. A steal may give up, whatever the queue has. -/
def deque (α : Type) : SpecObject (List α) (Op α) (Option (QueueElt α)) where
  init := []
  allows := Allows

abbrev CallEvent (ι α : Type) := HistoryEvent (Option ι) (Op α) (Option (QueueElt α))

def valueOf : Result α → Option (QueueElt α)
  | .pushed _ => none
  | .popped elt | .stolen elt => some elt

def callEvent (s : State ι α) : Action ι α → Option (CallEvent ι α)
  | .callPush elt => some (.call none (.push elt))
  | .callPop => some (.call none .pop)
  | .callSteal i => some (.call (some i) .steal)
  | .owner junk =>
    (ownerStep junk s.queue s.owner).bind fun (_, _, r) => r.map fun r => .ret none (valueOf r)
  | .thief i =>
    (thiefStep s.queue (s.thief i)).bind fun (_, _, r) => r.map fun r => .ret (some i) (valueOf r)

def clHistories (ι α : Type) [DecidableEq ι] (log_size : ℕ) :
    System (State ι α) (Action ι α) (Option (CallEvent ι α)) :=
  (clSystem ι α log_size).relabel callEvent

/-- A pop takes place at its load of `top` when it leaves an element behind, and
at the compare-exchange otherwise. -/
def ownerPhase (q : ClQueue α) : Owner α → Phase (Op α) (Option (QueueElt α))
  | .idle => .idle
  | .push elt _ => .pending (.push elt)
  | .pop (.get bottom top arr) =>
    if top < bottom then .done (some (caGet (q.arrays arr) bottom)) else .pending .pop
  | .pop (.restore _ elt) => .done (some elt)
  | .pop _ => .pending .pop

def thiefPhase : Thief α → Phase (Op α) (Option (QueueElt α))
  | .idle => .idle
  | .steal _ => .pending .steal

def phases (s : State ι α) : Option ι → Phase (Op α) (Option (QueueElt α))
  | none => ownerPhase s.queue s.owner
  | some i => thiefPhase (s.thief i)

def remaining (s : State ι α) : List (QueueElt α) :=
  caWindow (current s.queue) s.queue.top (stealBound s.queue s.owner)

def Racing (q : ClQueue α) : Owner α → Prop
  | .pop (.loadTop ..) | .pop (.cas ..) => q.top = q.bottom
  | .pop (.get bottom top _) => top = bottom ∧ q.top = q.bottom
  | _ => False

def Aims (top : ℤ) : Thief α → Prop
  | .steal (.loadArray t) | .steal (.get t _) | .steal (.cas t _) => t = top
  | _ => False

/-- The calls that can still win the last element. -/
def Candidate (s : State ι α) : Option ι → Prop
  | none => True
  | some i => Aims s.queue.top (s.thief i)

variable [DecidableEq ι]

def Settled (hist : List (CallEvent ι α)) (s : State ι α) : Prop :=
  ∃ l, Linearizes (deque α) hist l (phases s) ∧ l.map .task = remaining s

/-- A steal has returned nothing while a pop races for the last element: the
winner, which is not known yet, took the element before that. -/
def Undecided (hist : List (CallEvent ι α)) (s : State ι α) : Prop :=
  Racing s.queue s.owner ∧ ∃ x, caGet (current s.queue) s.queue.top = .task x ∧
    ∀ w, Candidate s w →
      Linearizes (deque α) hist [] (Function.update (phases s) w (.done (some (.task x))))

def Follows (hist : List (CallEvent ι α)) (s : State ι α) : Prop :=
  Settled hist s ∨ Undecided hist s

end Libseff.ChaseLevHistories
