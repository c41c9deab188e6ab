import Libseff.FixedWidth
import Libseff.ThreadCounts
import Libseff.TransitionRuns

namespace Libseff.ActorMailbox

open FixedWidth TransitionRuns

variable {ι α : Type}

/-- `actor_t` with messages of type `α`; `none` is `NULL`. -/
structure Actor (α : Type) where
  mailbox : ℕ → Option α
  start : ℤ
  write_loc : ℤ
  reserved_size : ℤ
  ready_size : ℤ
  mailbox_capacity : ℕ

/-- `calloc` fails when the size of the block is not a `size_t`. -/
def actorInit (α : Type) (mailbox_capacity : ℕ) : Option (Actor α) :=
  if mailbox_capacity * 8 < 2 ^ 64 then some ⟨fun _ => none, 0, 0, 0, 0, mailbox_capacity⟩ else none

def actorHasSpacePoll (actor : Actor α) : Bool :=
  decide (sizeT actor.reserved_size < actor.mailbox_capacity)

def actorHasMsgPoll (actor : Actor α) : Bool := decide (actor.ready_size > 0)

inductive Insert where
  | loadReserved
  | casReserved (old_size : ℤ)
  | addWriteLoc
  | store (loc : ℕ)
  | addReady

def actorInsertMsg (msg : α) (actor : Actor α) : Insert → Actor α × Outcome Insert Bool
  | .loadReserved =>
    if sizeT actor.reserved_size ≥ actor.mailbox_capacity then (actor, .done false)
    else (actor, .run (.casReserved actor.reserved_size))
  | .casReserved old_size =>
    if actor.reserved_size = old_size then
      ({ actor with reserved_size := int64 (old_size + 1) }, .run .addWriteLoc)
    else (actor, .done false)
  | .addWriteLoc =>
    ({ actor with write_loc := int64 (actor.write_loc + 1) },
      .run (.store (sizeT actor.write_loc % actor.mailbox_capacity)))
  | .store loc =>
    ({ actor with mailbox := Function.update actor.mailbox loc (some msg) }, .run .addReady)
  | .addReady => ({ actor with ready_size := int64 (actor.ready_size + 1) }, .done true)

inductive Remove (α : Type) where
  | loadReady
  | casReady (old_size : ℤ)
  | addStart
  | get (read : ℕ)
  | clear (read : ℕ) (result : Option α)
  | subReserved (result : Option α)

/-- `assert(result)` stands between `clear` and `subReserved`; the model goes on
when it fails. -/
def actorRemoveMsg (actor : Actor α) : Remove α → Actor α × Outcome (Remove α) (Option α)
  | .loadReady =>
    if actor.ready_size ≤ 0 then (actor, .done none) else (actor, .run (.casReady actor.ready_size))
  | .casReady old_size =>
    if actor.ready_size = old_size then
      ({ actor with ready_size := int64 (old_size - 1) }, .run .addStart)
    else (actor, .done none)
  | .addStart =>
    ({ actor with start := int64 (actor.start + 1) },
      .run (.get (sizeT actor.start % actor.mailbox_capacity)))
  | .get read => (actor, .run (.clear read (actor.mailbox read)))
  | .clear read result =>
    ({ actor with mailbox := Function.update actor.mailbox read none }, .run (.subReserved result))
  | .subReserved result =>
    ({ actor with reserved_size := int64 (actor.reserved_size - 1) }, .done result)

inductive Sender (α : Type) where
  | idle
  | insert (msg : α) (pc : Insert)

inductive Receiver (α : Type) where
  | idle
  | remove (pc : Remove α)

structure State (ι α : Type) where
  actor : Actor α
  sender : ι → Sender α
  receiver : Receiver α

inductive Action (ι α : Type) where
  | callInsert (i : ι) (msg : α)
  | sender (i : ι)
  | callRemove
  | receiver

/-- What a step shows of the two calls: an insert has claimed a location, an
insert returns true, a remove has claimed a location, a remove returns. -/
inductive Event (ι α : Type) where
  | silent
  | claim (i : ι) (msg : α)
  | accept (i : ι) (msg : α)
  | start
  | remove (result : Option α)

def insertEvent (i : ι) (msg : α) : Insert → Event ι α
  | .addWriteLoc => .claim i msg
  | .addReady => .accept i msg
  | _ => .silent

def removeEvent (ι : Type) : Remove α → Event ι α
  | .addStart => .start
  | _ => .silent

variable [DecidableEq ι]

def step (s : State ι α) : Action ι α → Option (State ι α × Event ι α)
  | .callInsert i msg =>
    match s.sender i with
    | .idle => some ({ s with sender := Function.update s.sender i (.insert msg .loadReserved) },
        .silent)
    | _ => none
  | .sender i =>
    match s.sender i with
    | .idle => none
    | .insert msg pc =>
      match actorInsertMsg msg s.actor pc with
      | (actor, .run pc') =>
        some ({ s with actor := actor, sender := Function.update s.sender i (.insert msg pc') },
          insertEvent i msg pc)
      | (actor, .done _) =>
        some ({ s with actor := actor, sender := Function.update s.sender i .idle },
          insertEvent i msg pc)
  | .callRemove =>
    match s.receiver with
    | .idle => some ({ s with receiver := .remove .loadReady }, .silent)
    | _ => none
  | .receiver =>
    match s.receiver with
    | .idle => none
    | .remove pc =>
      match actorRemoveMsg s.actor pc with
      | (actor, .run pc') =>
        some ({ s with actor := actor, receiver := .remove pc' }, removeEvent ι pc)
      | (actor, .done result) =>
        some ({ s with actor := actor, receiver := .idle }, .remove result)

def actorSystem (ι α : Type) [DecidableEq ι] (mailbox_capacity : ℕ) :
    System (State ι α) (Action ι α) (Event ι α) where
  init s := ∃ actor, actorInit α mailbox_capacity = some actor ∧ s = ⟨actor, fun _ => .idle, .idle⟩
  may _ _ := True
  step := step

def claimed (tr : List (Event ι α)) : List (ι × α) :=
  tr.filterMap fun | .claim i msg => some (i, msg) | _ => none

def accepted (i : ι) (tr : List (Event ι α)) : List α :=
  tr.filterMap fun | .accept j msg => if j = i then some msg else none | _ => none

def starts (tr : List (Event ι α)) : ℕ := tr.countP fun | .start => true | _ => false

def received (tr : List (Event ι α)) : List α :=
  tr.filterMap fun | .remove result => result | _ => none

def messagesOf (i : ι) (l : List (ι × α)) : List α :=
  l.filterMap fun p => if p.1 = i then some p.2 else none

def inFlight : Sender α → List α
  | .insert msg (.store _) | .insert msg .addReady => [msg]
  | _ => []

def quiescent (s : State ι α) : Prop := (∀ i, s.sender i = .idle) ∧ s.receiver = .idle

/-- What the mailbox promises along every run, up to the step that comes next:
messages are received in the order of their locations, which is the order in
which each sender sent them; a remove reads a message and an insert overwrites
none; and when no call is in progress the receiver gets all that is left. -/
def ExactlyOnce (S : System (State ι α) (Action ι α) (Event ι α)) : Prop :=
  ∀ tr s, Run S tr s →
    received tr <+: (claimed tr).map Prod.snd ∧
    (∀ i, messagesOf i (claimed tr) = accepted i tr ++ inFlight (s.sender i)) ∧
    (∀ read, S.may s .receiver → s.receiver = .remove (.get read) → s.actor.mailbox read ≠ none) ∧
    (∀ result, s.receiver = .remove (.subReserved result) → result ≠ none) ∧
    (∀ i msg loc, S.may s (.sender i) → s.sender i = .insert msg (.store loc) →
      s.actor.mailbox loc = none) ∧
    (quiescent s → ∃ tr' s', Run S (tr ++ tr') s' ∧ claimed tr' = [] ∧ quiescent s' ∧
      received (tr ++ tr') = (claimed tr).map Prod.snd)

end Libseff.ActorMailbox
