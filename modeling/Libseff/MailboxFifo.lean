import Libseff.ActorCapacity

namespace Libseff.MailboxFifo

open FixedWidth TransitionRuns AtomicObjects CompleteCalls ActorMailbox

variable {ι α : Type}

/-- A queue of at most so many messages, with the number of those that have been
taken from it. -/
structure MessageQueue (α : Type) where
  taken : ℕ
  waiting : List α

inductive MailboxOp (ι α : Type) where
  | insert (i : ι) (msg : α)
  | remove
  | hasSpacePoll
  | hasMsgPoll

inductive MailboxResult (α : Type) where
  | bool (b : Bool)
  | message (msg : Option α)
  deriving DecidableEq

def boundedQueue (ι α : Type) (capacity : ℕ) :
    AtomicObject (MessageQueue α) (MailboxOp ι α) (MailboxResult α) where
  init := ⟨0, []⟩
  apply
    | .insert _ msg, q =>
      if q.waiting.length < capacity then (⟨q.taken, q.waiting ++ [msg]⟩, .bool true)
      else (q, .bool false)
    | .remove, q =>
      match q.waiting with
      | [] => (q, .message none)
      | msg :: rest => (⟨q.taken + 1, rest⟩, .message (some msg))
    | .hasSpacePoll, q => (q, .bool (decide (q.waiting.length < capacity)))
    | .hasMsgPoll, q => (q, .bool (decide (0 < q.waiting.length)))

/-- The slots of a mailbox: message `k` of those that wait has the location
`taken + k`, and all other slots are `NULL`. -/
def ring (capacity : ℕ) (q : MessageQueue α) (slot : ℕ) : Option α :=
  if slot < capacity then q.waiting[(slot + capacity - q.taken % capacity) % capacity]? else none

def mailboxOf (capacity : ℕ) (q : MessageQueue α) : Actor α where
  mailbox := ring capacity q
  start := q.taken
  write_loc := (q.taken + q.waiting.length : ℕ)
  reserved_size := q.waiting.length
  ready_size := q.waiting.length
  mailbox_capacity := capacity

/-- A step of `actor_insert_msg` that is defined: it does not divide by zero and
stays within the mailbox. -/
def insertDefined (msg : α) (actor : Actor α) (pc : Insert) :
    Option (Actor α × Outcome Insert Bool) :=
  match pc with
  | .addWriteLoc =>
    if actor.mailbox_capacity = 0 then none else some (actorInsertMsg msg actor .addWriteLoc)
  | .store loc =>
    if loc < actor.mailbox_capacity then some (actorInsertMsg msg actor (.store loc)) else none
  | pc => some (actorInsertMsg msg actor pc)

/-- A step of `actor_remove_msg` that is defined and passes the assertion. -/
def removeDefined (actor : Actor α) (pc : Remove α) :
    Option (Actor α × Outcome (Remove α) (Option α)) :=
  match pc with
  | .addStart =>
    if actor.mailbox_capacity = 0 then none else some (actorRemoveMsg actor .addStart)
  | .get read =>
    if read < actor.mailbox_capacity then some (actorRemoveMsg actor (.get read)) else none
  | .clear read result =>
    if read < actor.mailbox_capacity then some (actorRemoveMsg actor (.clear read result)) else none
  | .subReserved none => none
  | pc => some (actorRemoveMsg actor pc)

/-- A call that no other call overlaps and that stays defined to its return. -/
def mailboxCall (o : MailboxOp ι α) (actor actor' : Actor α) (r : MailboxResult α) : Prop :=
  match o with
  | .insert _ msg =>
    ∃ b, Returns (insertDefined msg) actor .loadReserved actor' b ∧ r = .bool b
  | .remove => ∃ msg, Returns removeDefined actor .loadReady actor' msg ∧ r = .message msg
  | .hasSpacePoll => actor' = actor ∧ r = .bool (actorHasSpacePoll actor)
  | .hasMsgPoll => actor' = actor ∧ r = .bool (actorHasMsgPoll actor)

def inserts (ops : List (MailboxOp ι α)) : ℕ :=
  ops.countP fun | .insert _ _ => true | _ => false

theorem ring_slot {capacity : ℕ} (q : MessageQueue α) {k : ℕ} (hk : k < capacity) :
    ring capacity q ((q.taken + k) % capacity) = q.waiting[k]? := by
  have hpos : 0 < capacity := by omega
  have ht : q.taken % capacity < capacity := Nat.mod_lt _ hpos
  have hoffset : ((q.taken + k) % capacity + capacity - q.taken % capacity) % capacity = k := by
    rw [Nat.add_mod, Nat.mod_eq_of_lt hk]
    generalize q.taken % capacity = t at ht
    obtain hlt | hge := Nat.lt_or_ge (t + k) capacity
    · rw [Nat.mod_eq_of_lt hlt, show t + k + capacity - t = k + capacity by omega,
        Nat.add_mod_right, Nat.mod_eq_of_lt hk]
    · have hmod : (t + k - capacity) % capacity = t + k - capacity := Nat.mod_eq_of_lt (by omega)
      rw [Nat.mod_eq_sub_mod hge, hmod, show t + k - capacity + capacity - t = k by omega,
        Nat.mod_eq_of_lt hk]
  rw [ring, if_pos (Nat.mod_lt _ hpos), hoffset]

theorem ring_outside (q : MessageQueue α) {capacity slot : ℕ} (h : capacity ≤ slot) :
    ring capacity q slot = none := by
  rw [ring, if_neg (by omega)]

theorem exists_slot {capacity slot : ℕ} (n : ℕ) (h : slot < capacity) :
    ∃ k, k < capacity ∧ slot = (n + k) % capacity := by
  have hn : n % capacity < capacity := Nat.mod_lt _ (by omega)
  refine ⟨(slot + capacity - n % capacity) % capacity, Nat.mod_lt _ (by omega), ?_⟩
  have hsum : n % capacity + (slot + capacity - n % capacity) = slot + capacity := by omega
  rw [Nat.add_mod_mod, ← Nat.mod_add_mod, hsum, Nat.add_mod_right, Nat.mod_eq_of_lt h]

theorem slot_ne {capacity n j k : ℕ} (hjk : j < k) (hk : k < capacity) :
    (n + j) % capacity ≠ (n + k) % capacity := by
  intro h
  have := mod_inj_of_lt (by omega) (by omega) h
  omega

theorem ring_append {capacity : ℕ} {q : MessageQueue α} (h : q.waiting.length < capacity)
    (msg : α) :
    Function.update (ring capacity q) ((q.taken + q.waiting.length) % capacity) (some msg) =
      ring capacity ⟨q.taken, q.waiting ++ [msg]⟩ := by
  funext slot
  obtain hlt | hge := Nat.lt_or_ge slot capacity
  · obtain ⟨k, hk, rfl⟩ := exists_slot q.taken hlt
    have happend := ring_slot ⟨q.taken, q.waiting ++ [msg]⟩ hk
    obtain hlt | rfl | hgt := Nat.lt_trichotomy k q.waiting.length
    · rw [Function.update_of_ne (slot_ne hlt h), ring_slot q hk, happend,
        List.getElem?_append_left hlt]
    · rw [Function.update_self, happend, List.getElem?_concat_length]
    · rw [Function.update_of_ne (slot_ne hgt hk).symm, ring_slot q hk, happend,
        List.getElem?_eq_none (by omega), List.getElem?_eq_none (by simp; omega)]
  · have hmod := Nat.mod_lt (q.taken + q.waiting.length) (show 0 < capacity by omega)
    have hne : slot ≠ (q.taken + q.waiting.length) % capacity := by omega
    rw [Function.update_of_ne hne, ring_outside _ hge, ring_outside _ hge]

theorem ring_cons {capacity n : ℕ} {msg : α} {rest : List α} (h : rest.length < capacity) :
    Function.update (ring capacity ⟨n, msg :: rest⟩) (n % capacity) none =
      ring capacity ⟨n + 1, rest⟩ := by
  funext slot
  obtain hlt | hge := Nat.lt_or_ge slot capacity
  · obtain ⟨k, hk, rfl⟩ := exists_slot n hlt
    cases k with
    | zero =>
      -- the slot that was freed comes last in the next turn
      have hlast := ring_slot ⟨n + 1, rest⟩ (show capacity - 1 < capacity by omega)
      rw [show n + 1 + (capacity - 1) = n + capacity by omega, Nat.add_mod_right] at hlast
      have hnone : rest[capacity - 1]? = none := List.getElem?_eq_none (by omega)
      rw [Nat.add_zero, Function.update_self, hlast, hnone]
    | succ k =>
      have hnext := ring_slot ⟨n + 1, rest⟩ (show k < capacity by omega)
      rw [show n + 1 + k = n + (k + 1) by omega] at hnext
      have hne : (n + (k + 1)) % capacity ≠ n % capacity := (slot_ne (Nat.succ_pos k) hk).symm
      rw [Function.update_of_ne hne, ring_slot ⟨n, msg :: rest⟩ hk, hnext,
        List.getElem?_cons_succ]
  · have hmod := Nat.mod_lt n (show 0 < capacity by omega)
    have hne : slot ≠ n % capacity := by omega
    rw [Function.update_of_ne hne, ring_outside _ hge, ring_outside _ hge]

theorem insert_space {actor : Actor α}
    (hlt : sizeT actor.reserved_size < actor.mailbox_capacity) (msg : α) :
    Returns (insertDefined msg) actor .loadReserved
      ⟨Function.update actor.mailbox (sizeT actor.write_loc % actor.mailbox_capacity) (some msg),
        actor.start, int64 (actor.write_loc + 1), int64 (actor.reserved_size + 1),
        int64 (actor.ready_size + 1), actor.mailbox_capacity⟩ true := by
  have hpos : 0 < actor.mailbox_capacity := by omega
  have hload : insertDefined msg actor .loadReserved =
      some (actor, .run (.casReserved actor.reserved_size)) :=
    congrArg some (if_neg (not_le.mpr hlt))
  have hcas : insertDefined msg actor (.casReserved actor.reserved_size) =
      some ({ actor with reserved_size := int64 (actor.reserved_size + 1) }, .run .addWriteLoc) :=
    congrArg some (if_pos rfl)
  apply Returns.run hload
  apply Returns.run hcas
  apply Returns.run (if_neg hpos.ne')
  apply Returns.run (if_pos (Nat.mod_lt _ hpos))
  exact Returns.done rfl

theorem insert_full {actor : Actor α}
    (hge : actor.mailbox_capacity ≤ sizeT actor.reserved_size) (msg : α) :
    Returns (insertDefined msg) actor .loadReserved actor false :=
  Returns.done (congrArg some (if_pos hge))

theorem remove_waiting {actor : Actor α} (hready : 0 < actor.ready_size)
    (hpos : 0 < actor.mailbox_capacity) {msg : α}
    (hmsg : actor.mailbox (sizeT actor.start % actor.mailbox_capacity) = some msg) :
    Returns removeDefined actor .loadReady
      ⟨Function.update actor.mailbox (sizeT actor.start % actor.mailbox_capacity) none,
        int64 (actor.start + 1), actor.write_loc, int64 (actor.reserved_size - 1),
        int64 (actor.ready_size - 1), actor.mailbox_capacity⟩ (some msg) := by
  have hslot := Nat.mod_lt (sizeT actor.start) hpos
  have hload : removeDefined actor .loadReady = some (actor, .run (.casReady actor.ready_size)) :=
    congrArg some (if_neg (not_le.mpr hready))
  have hcas : removeDefined actor (.casReady actor.ready_size) =
      some ({ actor with ready_size := int64 (actor.ready_size - 1) }, .run .addStart) :=
    congrArg some (if_pos rfl)
  apply Returns.run hload
  apply Returns.run hcas
  apply Returns.run (if_neg hpos.ne')
  apply Returns.run (if_pos hslot)
  apply Returns.run (if_pos hslot)
  simp only [hmsg]
  exact Returns.done rfl

theorem remove_empty {actor : Actor α} (hle : actor.ready_size ≤ 0) :
    Returns removeDefined actor .loadReady actor none :=
  Returns.done (congrArg some (if_pos hle))

theorem mailboxCall_unique (o : MailboxOp ι α) (actor actor1 actor2 : Actor α)
    (r1 r2 : MailboxResult α) (h1 : mailboxCall o actor actor1 r1)
    (h2 : mailboxCall o actor actor2 r2) : actor1 = actor2 ∧ r1 = r2 := by
  cases o with
  | insert i msg =>
    obtain ⟨b1, h1, rfl⟩ := h1
    obtain ⟨b2, h2, rfl⟩ := h2
    obtain ⟨ha, rfl⟩ := h1.unique h2
    exact ⟨ha, rfl⟩
  | remove =>
    obtain ⟨m1, h1, rfl⟩ := h1
    obtain ⟨m2, h2, rfl⟩ := h2
    obtain ⟨ha, rfl⟩ := h1.unique h2
    exact ⟨ha, rfl⟩
  | hasSpacePoll | hasMsgPoll =>
    obtain ⟨rfl, rfl⟩ := h1
    obtain ⟨rfl, rfl⟩ := h2
    exact ⟨rfl, rfl⟩

theorem int64_succ {n : ℕ} (h : n + 1 < 2 ^ 63) : int64 ((n : ℤ) + 1) = (n + 1 : ℕ) := by
  rw [int64_of_lt (by omega) (by omega), Nat.cast_succ]

theorem int64_pred {n : ℕ} (h : n < 2 ^ 63) : int64 (((n + 1 : ℕ) : ℤ) - 1) = n := by
  rw [int64_of_lt (by omega) (by omega), Nat.cast_succ, add_sub_cancel_right]

section Calls

variable {capacity : ℕ} {q : MessageQueue α} (hcapacity : capacity * 8 < 2 ^ 64)

include hcapacity

theorem insert_apply (hspace : q.waiting.length < capacity)
    (hcount : q.taken + q.waiting.length + 1 < 2 ^ 63) (msg : α) :
    Returns (insertDefined msg) (mailboxOf capacity q) .loadReserved
      (mailboxOf capacity ⟨q.taken, q.waiting ++ [msg]⟩) true := by
  have hreserved : sizeT (mailboxOf capacity q).reserved_size < capacity := by
    rwa [mailboxOf, sizeT_natCast_of_lt (by omega)]
  have h := insert_space hreserved msg
  have hwrite := int64_succ hcount
  have hsize := int64_succ (show q.waiting.length + 1 < 2 ^ 63 by omega)
  simp only [mailboxOf, sizeT_natCast_of_lt (show q.taken + q.waiting.length < 2 ^ 64 by omega), hwrite,
    hsize, ring_append hspace] at h
  simpa only [mailboxOf, List.length_append, List.length_singleton, Nat.add_assoc] using h

theorem remove_apply {n : ℕ} {msg : α} {rest : List α} (hle : (msg :: rest).length ≤ capacity)
    (hcount : n + (msg :: rest).length < 2 ^ 63) :
    Returns removeDefined (mailboxOf capacity ⟨n, msg :: rest⟩) .loadReady
      (mailboxOf capacity ⟨n + 1, rest⟩) (some msg) := by
  rw [List.length_cons] at hle hcount
  have hpos : 0 < capacity := by omega
  have hready : 0 < (mailboxOf capacity ⟨n, msg :: rest⟩).ready_size := by
    simp only [mailboxOf, List.length_cons]
    omega
  have hmsg : (mailboxOf capacity ⟨n, msg :: rest⟩).mailbox (sizeT n % capacity) = some msg := by
    rw [sizeT_natCast_of_lt (by omega)]
    exact ring_slot ⟨n, msg :: rest⟩ hpos
  have h := remove_waiting hready hpos hmsg
  have hstart := int64_succ (show n + 1 < 2 ^ 63 by omega)
  have hsize := int64_pred (show rest.length < 2 ^ 63 by omega)
  have hwrite : n + (rest.length + 1) = n + 1 + rest.length := by omega
  simp only [mailboxOf, List.length_cons, sizeT_natCast_of_lt (show n < 2 ^ 64 by omega), hstart, hsize,
    ring_cons (show rest.length < capacity by omega), hwrite] at h
  simpa only [mailboxOf, List.length_cons, hwrite] using h

end Calls

structure Bounded (capacity : ℕ) (q : MessageQueue α) (ops : List (MailboxOp ι α)) : Prop where
  le_capacity : q.waiting.length ≤ capacity
  inserts_lt : q.taken + q.waiting.length + inserts ops < 2 ^ 63

theorem bounded_apply {capacity : ℕ} {q : MessageQueue α} {o : MailboxOp ι α}
    {ops : List (MailboxOp ι α)} (h : Bounded capacity q (o :: ops)) :
    Bounded capacity ((boundedQueue ι α capacity).apply o q).1 ops := by
  obtain ⟨hle, hlt⟩ := h
  cases o with
  | insert i msg =>
    have hcount : inserts (.insert i msg :: ops) = inserts ops + 1 := List.countP_cons_of_pos rfl
    have hlength : (q.waiting ++ [msg]).length = q.waiting.length + 1 := List.length_append
    simp only [boundedQueue]
    split
    · refine ⟨?_, ?_⟩
      · change (q.waiting ++ [msg]).length ≤ capacity
        omega
      · change q.taken + (q.waiting ++ [msg]).length + inserts ops < 2 ^ 63
        omega
    · refine ⟨hle, ?_⟩
      change q.taken + q.waiting.length + inserts ops < 2 ^ 63
      omega
  | remove =>
    have hcount : inserts (.remove :: ops) = inserts ops := List.countP_cons_of_neg (by simp)
    rw [hcount] at hlt
    obtain ⟨n, waiting⟩ := q
    cases waiting with
    | nil => exact ⟨hle, hlt⟩
    | cons msg rest =>
      simp only [List.length_cons] at hle hlt
      refine ⟨?_, ?_⟩
      · change rest.length ≤ capacity
        omega
      · change n + 1 + rest.length + inserts ops < 2 ^ 63
        omega
  | hasSpacePoll => exact ⟨hle, hlt⟩
  | hasMsgPoll => exact ⟨hle, hlt⟩

theorem mailboxCall_apply {capacity : ℕ} (hcapacity : capacity * 8 < 2 ^ 64) {q : MessageQueue α}
    {o : MailboxOp ι α} {ops : List (MailboxOp ι α)} (h : Bounded capacity q (o :: ops)) :
    mailboxCall o (mailboxOf capacity q)
      (mailboxOf capacity ((boundedQueue ι α capacity).apply o q).1)
      ((boundedQueue ι α capacity).apply o q).2 := by
  obtain ⟨hle, hlt⟩ := h
  have hreserved : sizeT (mailboxOf capacity q).reserved_size = q.waiting.length :=
    sizeT_natCast_of_lt (by omega)
  cases o with
  | insert i msg =>
    have hcount : inserts (.insert i msg :: ops) = inserts ops + 1 := List.countP_cons_of_pos rfl
    simp only [boundedQueue]
    split
    · rename_i hspace
      exact ⟨true, insert_apply hcapacity hspace (by omega) msg, rfl⟩
    · rename_i hfull
      refine ⟨false, insert_full ?_ msg, rfl⟩
      rw [hreserved]
      exact not_lt.mp hfull
  | remove =>
    obtain ⟨n, waiting⟩ := q
    cases waiting with
    | nil => exact ⟨none, remove_empty le_rfl, rfl⟩
    | cons msg rest =>
      exact ⟨some msg, remove_apply hcapacity hle (lt_of_le_of_lt (Nat.le_add_right _ _) hlt), rfl⟩
  | hasSpacePoll =>
    refine ⟨rfl, ?_⟩
    rw [actorHasSpacePoll, hreserved]
    rfl
  | hasMsgPoll =>
    refine ⟨rfl, congrArg MailboxResult.bool ?_⟩
    simp [actorHasMsgPoll, mailboxOf]

/-- Calls that do not overlap find the mailbox to be a bounded FIFO queue: they
return what the queue returns, leave the mailbox in which its messages wait, and
never use an index that is out of range. -/
theorem mailbox_boundedQueue {capacity : ℕ} {actor : Actor α}
    (hinit : actorInit α capacity = some actor) (ops : List (MailboxOp ι α))
    (hops : inserts ops < 2 ^ 63) (h : List (MailboxResult α × Actor α)) :
    Sequential mailboxCall id actor ops h ↔
      h = (history (boundedQueue ι α capacity) (boundedQueue ι α capacity).init ops).map
        (Prod.map id (mailboxOf capacity)) := by
  have hactor : actor = mailboxOf capacity ⟨0, []⟩ ∧ capacity * 8 < 2 ^ 64 := by
    obtain ⟨hcapacity, hactor⟩ := Option.ite_none_right_eq_some.mp hinit
    refine ⟨(Option.some.inj hactor).symm.trans ?_, hcapacity⟩
    rw [mailboxOf]
    congr
    funext slot
    simp [ring]
  have hbounded : Bounded capacity ⟨0, []⟩ ops :=
    ⟨Nat.zero_le _, by simpa only [List.length_nil, Nat.zero_add] using hops⟩
  have hiff := sequential_iff_of_allowed (boundedQueue ι α capacity) id id (mailboxOf capacity)
    (fun actor q => actor = mailboxOf capacity q) (Bounded capacity) (fun _ _ hR => hR)
    mailboxCall_unique ?_ hactor.1 ops hbounded h
  · rwa [List.map_id] at hiff
  · rintro _ q o ops rfl hq
    exact ⟨bounded_apply hq, _, mailboxCall_apply hactor.2 hq, rfl⟩

theorem mailbox_boundedQueue_two :
    inserts (ι := Unit) [.insert () 'a', .insert () 'b', .insert () 'c', .remove,
      .insert () 'd', .remove, .remove, .remove] < 2 ^ 63 ∧
    ∃ h, Sequential mailboxCall id (⟨fun _ => none, 0, 0, 0, 0, 2⟩ : Actor Char)
        [.insert () 'a', .insert () 'b', .insert () 'c', .remove, .insert () 'd', .remove,
          .remove, .remove] h ∧
      h.map Prod.fst = [.bool true, .bool true, .bool false, .message (some 'a'), .bool true,
        .message (some 'b'), .message (some 'd'), .message none] :=
  ⟨by decide, _, (@mailbox_boundedQueue Unit Char 2 _ rfl _ (by decide) _).mpr rfl, by decide⟩

end Libseff.MailboxFifo
