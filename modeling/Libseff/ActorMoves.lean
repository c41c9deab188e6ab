import Libseff.ActorMailbox

namespace Libseff.ActorMoves

open FixedWidth TransitionRuns ActorMailbox

variable {ι α : Type} [DecidableEq ι]

def moveSender (s : State ι α) (i : ι) (actor : Actor α) (x : Sender α) : State ι α :=
  { s with actor := actor, sender := Function.update s.sender i x }

def moveReceiver (s : State ι α) (actor : Actor α) (x : Receiver α) : State ι α :=
  { s with actor := actor, receiver := x }

inductive SenderMove (s : State ι α) (i : ι) : State ι α → Event ι α → Prop
  | full (msg : α) (hpc : s.sender i = .insert msg .loadReserved) :
      SenderMove s i (moveSender s i s.actor .idle) .silent
  | loadReserved (msg : α) (hpc : s.sender i = .insert msg .loadReserved)
      (hlt : sizeT s.actor.reserved_size < s.actor.mailbox_capacity) :
      SenderMove s i
        (moveSender s i s.actor (.insert msg (.casReserved s.actor.reserved_size))) .silent
  | casFailed (msg : α) (old_size : ℤ) (hpc : s.sender i = .insert msg (.casReserved old_size)) :
      SenderMove s i (moveSender s i s.actor .idle) .silent
  | casReserved (msg : α) (hpc : s.sender i = .insert msg (.casReserved s.actor.reserved_size)) :
      SenderMove s i (moveSender s i
        { s.actor with reserved_size := int64 (s.actor.reserved_size + 1) }
        (.insert msg .addWriteLoc)) .silent
  | addWriteLoc (msg : α) (hpc : s.sender i = .insert msg .addWriteLoc) :
      SenderMove s i (moveSender s i
        { s.actor with write_loc := int64 (s.actor.write_loc + 1) }
        (.insert msg (.store (sizeT s.actor.write_loc % s.actor.mailbox_capacity)))) (.claim i msg)
  | store (msg : α) (loc : ℕ) (hpc : s.sender i = .insert msg (.store loc)) :
      SenderMove s i (moveSender s i
        { s.actor with mailbox := Function.update s.actor.mailbox loc (some msg) }
        (.insert msg .addReady)) .silent
  | addReady (msg : α) (hpc : s.sender i = .insert msg .addReady) :
      SenderMove s i (moveSender s i
        { s.actor with ready_size := int64 (s.actor.ready_size + 1) } .idle) (.accept i msg)

inductive ReceiverMove (s : State ι α) : State ι α → Event ι α → Prop
  | empty (hpc : s.receiver = .remove .loadReady) (hle : s.actor.ready_size ≤ 0) :
      ReceiverMove s (moveReceiver s s.actor .idle) (.remove none)
  | loadReady (hpc : s.receiver = .remove .loadReady) (hlt : 0 < s.actor.ready_size) :
      ReceiverMove s (moveReceiver s s.actor (.remove (.casReady s.actor.ready_size))) .silent
  | casFailed (old_size : ℤ) (hpc : s.receiver = .remove (.casReady old_size)) :
      ReceiverMove s (moveReceiver s s.actor .idle) (.remove none)
  | casReady (hpc : s.receiver = .remove (.casReady s.actor.ready_size)) :
      ReceiverMove s (moveReceiver s
        { s.actor with ready_size := int64 (s.actor.ready_size - 1) } (.remove .addStart)) .silent
  | addStart (hpc : s.receiver = .remove .addStart) :
      ReceiverMove s (moveReceiver s { s.actor with start := int64 (s.actor.start + 1) }
        (.remove (.get (sizeT s.actor.start % s.actor.mailbox_capacity)))) .start
  | get (read : ℕ) (hpc : s.receiver = .remove (.get read)) :
      ReceiverMove s
        (moveReceiver s s.actor (.remove (.clear read (s.actor.mailbox read)))) .silent
  | clear (read : ℕ) (result : Option α) (hpc : s.receiver = .remove (.clear read result)) :
      ReceiverMove s (moveReceiver s
        { s.actor with mailbox := Function.update s.actor.mailbox read none }
        (.remove (.subReserved result))) .silent
  | subReserved (result : Option α) (hpc : s.receiver = .remove (.subReserved result)) :
      ReceiverMove s (moveReceiver s
        { s.actor with reserved_size := int64 (s.actor.reserved_size - 1) } .idle) (.remove result)

theorem sender_move {s s' : State ι α} {i : ι} {e : Event ι α}
    (hs : step s (.sender i) = some (s', e)) : SenderMove s i s' e := by
  cases hpc : s.sender i with
  | idle => simp [step, hpc] at hs
  | insert msg pc =>
    cases pc with
    | loadReserved =>
      by_cases hlt : sizeT s.actor.reserved_size < s.actor.mailbox_capacity
      · simp only [step, hpc, actorInsertMsg, ge_iff_le, not_le.mpr hlt, if_false] at hs
        cases hs
        exact .loadReserved msg hpc hlt
      · simp only [step, hpc, actorInsertMsg, ge_iff_le, not_lt.mp hlt, if_true] at hs
        cases hs
        exact .full msg hpc
    | casReserved old_size =>
      by_cases hold : s.actor.reserved_size = old_size
      · subst hold
        simp only [step, hpc, actorInsertMsg, if_true] at hs
        cases hs
        exact .casReserved msg hpc
      · simp only [step, hpc, actorInsertMsg, hold, if_false] at hs
        cases hs
        exact .casFailed msg old_size hpc
    | addWriteLoc =>
      simp only [step, hpc, actorInsertMsg] at hs
      cases hs
      exact .addWriteLoc msg hpc
    | store loc =>
      simp only [step, hpc, actorInsertMsg] at hs
      cases hs
      exact .store msg loc hpc
    | addReady =>
      simp only [step, hpc, actorInsertMsg] at hs
      cases hs
      exact .addReady msg hpc

theorem receiver_move {s s' : State ι α} {e : Event ι α}
    (hs : step s .receiver = some (s', e)) : ReceiverMove s s' e := by
  cases hpc : s.receiver with
  | idle => simp [step, hpc] at hs
  | remove pc =>
    cases pc with
    | loadReady =>
      by_cases hlt : 0 < s.actor.ready_size
      · simp only [step, hpc, actorRemoveMsg, not_le.mpr hlt, if_false] at hs
        cases hs
        exact .loadReady hpc hlt
      · simp only [step, hpc, actorRemoveMsg, not_lt.mp hlt, if_true] at hs
        cases hs
        exact .empty hpc (not_lt.mp hlt)
    | casReady old_size =>
      by_cases hold : s.actor.ready_size = old_size
      · subst hold
        simp only [step, hpc, actorRemoveMsg, if_true] at hs
        cases hs
        exact .casReady hpc
      · simp only [step, hpc, actorRemoveMsg, hold, if_false] at hs
        cases hs
        exact .casFailed old_size hpc
    | addStart =>
      simp only [step, hpc, actorRemoveMsg] at hs
      cases hs
      exact .addStart hpc
    | get read =>
      simp only [step, hpc, actorRemoveMsg] at hs
      cases hs
      exact .get read hpc
    | clear read result =>
      simp only [step, hpc, actorRemoveMsg] at hs
      cases hs
      exact .clear read result hpc
    | subReserved result =>
      simp only [step, hpc, actorRemoveMsg] at hs
      cases hs
      exact .subReserved result hpc

end Libseff.ActorMoves
