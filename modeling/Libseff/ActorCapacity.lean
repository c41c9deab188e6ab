import Libseff.ActorCounters
import Libseff.CompleteCalls

namespace Libseff.ActorCapacity

open FixedWidth ThreadCounts TransitionRuns CompleteCalls ActorMailbox ActorMoves ActorCounters

variable {ι α : Type}

def insertAlone (msg : α) (actor : Actor α) (pc : Insert) :
    Option (Actor α × Outcome Insert Bool) :=
  some (actorInsertMsg msg actor pc)

structure Accounting [Fintype ι] (mailbox_capacity : ℕ) (s : State ι α) : Prop where
  ready_nonneg : 0 ≤ s.actor.ready_size
  ready_le : s.actor.ready_size ≤ s.actor.reserved_size
  reserved_le : s.actor.reserved_size ≤ mailbox_capacity
  start_le : s.actor.start ≤ s.actor.write_loc
  reserved_eq : s.actor.reserved_size =
    s.actor.ready_size + count reserving s.sender + (taking s.receiver).toNat
  quiescent_eq : quiescent s → s.actor.reserved_size = s.actor.ready_size ∧
    s.actor.ready_size = s.actor.write_loc - s.actor.start
  accepts : quiescent s → s.actor.write_loc - s.actor.start < mailbox_capacity →
    ∀ msg result, (∃ actor', Returns (insertAlone msg) s.actor .loadReserved actor' result) ↔
      result = true

theorem insert_returns {actor : Actor α} (hlt : sizeT actor.reserved_size < actor.mailbox_capacity)
    (msg : α) (result : Bool) :
    (∃ actor', Returns (insertAlone msg) actor .loadReserved actor' result) ↔ result = true := by
  have hload : insertAlone msg actor .loadReserved =
      some (actor, .run (.casReserved actor.reserved_size)) := by
    rw [insertAlone, actorInsertMsg, if_neg (not_le.mpr hlt)]
  have hcas : insertAlone msg actor (.casReserved actor.reserved_size) =
      some ({ actor with reserved_size := int64 (actor.reserved_size + 1) },
        .run .addWriteLoc) := by
    rw [insertAlone, actorInsertMsg, if_pos rfl]
  simp only [returns_iff_of_run hload, returns_iff_of_run hcas]
  constructor
  · rintro ⟨actor', hr⟩
    rw [returns_iff_of_run rfl, returns_iff_of_run rfl, returns_iff_of_done rfl] at hr
    exact hr.2
  · rintro rfl
    exact ⟨_, .run rfl (.run rfl (.done rfl))⟩

theorem quiescent_counters [Fintype ι] {c n : ℕ} {s : State ι α} (h : Counters c n s) (hq : quiescent s) :
    s.actor.reserved_size = s.actor.ready_size ∧ (c : ℤ) = n + s.actor.ready_size := by
  have hr : count reserving s.sender = 0 := count_eq_zero fun i => by rw [hq.1 i]; rfl
  have hw : count writing s.sender = 0 := count_eq_zero fun i => by rw [hq.1 i]; rfl
  have hreserved := h.reserved_eq
  have hclaims := h.claims_eq
  rw [hr, hq.2] at hreserved
  rw [hw, hq.2] at hclaims
  simp only [taking, starting, Bool.toNat_false] at hreserved hclaims
  omega

theorem capacity_sender {s s' : State ι α} {i : ι} {e : Event ι α} [DecidableEq ι]
    (hs : SenderMove s i s' e) : s'.actor.mailbox_capacity = s.actor.mailbox_capacity := by
  cases hs with
  | _ => rfl

theorem capacity_receiver {s s' : State ι α} {e : Event ι α} (hs : ReceiverMove s s' e) :
    s'.actor.mailbox_capacity = s.actor.mailbox_capacity := by
  cases hs with
  | _ => rfl

variable [DecidableEq ι]

theorem capacity_step {s s' : State ι α} {a : Action ι α} {e : Event ι α}
    (hs : step s a = some (s', e)) : s'.actor.mailbox_capacity = s.actor.mailbox_capacity := by
  cases a with
  | callInsert i msg =>
    simp only [step] at hs
    split at hs <;> cases hs
    rfl
  | sender i => exact capacity_sender (sender_move hs)
  | callRemove =>
    simp only [step] at hs
    split at hs <;> cases hs
    rfl
  | receiver => exact capacity_receiver (receiver_move hs)

theorem run_capacity {mailbox_capacity : ℕ} {tr : List (Event ι α)} {s : State ι α}
    (h : Run (actorSystem ι α mailbox_capacity) tr s) :
    s.actor.mailbox_capacity = mailbox_capacity := by
  refine Run.invariant (fun _ s => s.actor.mailbox_capacity = mailbox_capacity) ?_ ?_ h
  · rintro s ⟨actor, ha, rfl⟩
    simp only [actorInit] at ha
    split at ha <;> cases ha
    rfl
  · intro tr s a s' e hi _ hs
    exact (capacity_step hs).trans hi

variable [Fintype ι]

/-- No space is lost to attempts that failed: a mailbox that is not in use and
not full accepts the next message. -/
theorem actorMailbox_accounting {mailbox_capacity : ℕ} {tr : List (Event ι α)} {s : State ι α}
    (h : Run (actorSystem ι α mailbox_capacity) tr s) (hlt : (claimed tr).length < 2 ^ 63) :
    Accounting mailbox_capacity s := by
  have hc := run_counters h
  have hcap := run_capacity h
  obtain ⟨hle, hres⟩ := reserved_bounds hc
  have hclaims := hc.claims_eq
  have hready := hc.ready_nonneg
  have hwrite : s.actor.write_loc = ((claimed tr).length : ℤ) :=
    hc.write_loc.trans (int64_of_lt (by omega) (by omega))
  have hstart : s.actor.start = (starts tr : ℤ) :=
    hc.start.trans (int64_of_lt (by omega) (by omega))
  refine ⟨hready, hle, hcap ▸ hc.reserved_le, by omega, hc.reserved_eq, ?_, ?_⟩
  · intro hq
    obtain ⟨heq, hn⟩ := quiescent_counters hc hq
    exact ⟨heq, by omega⟩
  · intro hq hroom
    obtain ⟨heq, hn⟩ := quiescent_counters hc hq
    apply insert_returns
    rw [hcap, sizeT_of_lt (by omega) (by omega)]
    omega

theorem actorMailbox_accounting_of_two_senders :
    ∃ tr s, Run (actorSystem Bool ℕ 1) tr s ∧ (claimed tr).length = 1 ∧ Accounting 1 s := by
  obtain ⟨tr, s, hrun, he⟩ := Run.exists_of_exec (S := actorSystem Bool ℕ 1)
    (fun _ _ (_ : true = true) => trivial)
    [.callInsert false 1, .callInsert true 2, .sender false, .sender true, .sender false,
      .sender true, .sender false, .sender false]
    ⟨_, rfl, rfl⟩ (fun p => (claimed p.2).length) rfl
  have hlen : (claimed tr).length = 1 := he
  exact ⟨tr, s, hrun, hlen, actorMailbox_accounting hrun (by omega)⟩

end Libseff.ActorCapacity
