import Libseff.ActorMoves

namespace Libseff.ActorCounters

open FixedWidth ThreadCounts TransitionRuns ActorMailbox ActorMoves

variable {ι α : Type}

/-- An insert that has reserved space and not announced its message. -/
def reserving : Sender α → Bool
  | .insert _ .addWriteLoc | .insert _ (.store _) | .insert _ .addReady => true
  | _ => false

def claiming : Sender α → Bool
  | .insert _ .addWriteLoc => true
  | _ => false

def writing : Sender α → Bool
  | .insert _ (.store _) | .insert _ .addReady => true
  | _ => false

def taking : Receiver α → Bool
  | .remove .addStart | .remove (.get _) | .remove (.clear _ _) | .remove (.subReserved _) => true
  | _ => false

def starting : Receiver α → Bool
  | .remove .addStart => true
  | _ => false

def SenderInv (mailbox_capacity : ℕ) : Sender α → Prop
  | .insert _ (.casReserved old_size) => sizeT old_size < mailbox_capacity
  | _ => True

def ReceiverInv : Receiver α → Prop
  | .remove (.casReady old_size) => 0 < old_size
  | _ => True

def claimsOf : Event ι α → ℕ
  | .claim _ _ => 1
  | _ => 0

def startsOf : Event ι α → ℕ
  | .start => 1
  | _ => 0

theorem claimed_append (tr : List (Event ι α)) (e : Event ι α) :
    (claimed (tr ++ [e])).length = (claimed tr).length + claimsOf e := by
  cases e <;> simp [claimed, claimsOf]

theorem starts_append (tr : List (Event ι α)) (e : Event ι α) :
    starts (tr ++ [e]) = starts tr + startsOf e := by
  cases e <;> simp [starts, startsOf]

theorem senderInv_update [DecidableEq ι] {c : ℕ} {f : ι → Sender α}
    (h : ∀ i, SenderInv c (f i)) {i : ι} {x : Sender α} (hx : SenderInv c x) (j : ι) :
    SenderInv c (Function.update f i x j) := by
  by_cases hj : j = i
  · subst hj
    rwa [Function.update_self]
  · rw [Function.update_of_ne hj]
    exact h j

variable [Fintype ι]

structure Counters (claims starts : ℕ) (s : State ι α) : Prop where
  capacity_lt : s.actor.mailbox_capacity * 8 < 2 ^ 64
  write_loc : s.actor.write_loc = int64 claims
  start : s.actor.start = int64 starts
  ready_nonneg : 0 ≤ s.actor.ready_size
  reserved_eq : s.actor.reserved_size =
    s.actor.ready_size + count reserving s.sender + (taking s.receiver).toNat
  reserved_le : s.actor.reserved_size ≤ s.actor.mailbox_capacity
  claims_eq : (claims : ℤ) =
    starts + s.actor.ready_size + count writing s.sender + (starting s.receiver).toNat
  sender : ∀ i, SenderInv s.actor.mailbox_capacity (s.sender i)
  receiver : ReceiverInv s.receiver

theorem count_reserving (f : ι → Sender α) :
    count reserving f = count writing f + count claiming f := by
  simp only [count_eq_sum, ← Finset.sum_add_distrib]
  apply Finset.sum_congr rfl
  intro i _
  cases f i with
  | idle => rfl
  | insert msg pc => cases pc <;> rfl

theorem window_le {c n : ℕ} {s : State ι α} (h : Counters c n s) :
    c + count claiming s.sender + (taking s.receiver).toNat ≤
      n + s.actor.mailbox_capacity + (starting s.receiver).toNat := by
  have h1 := h.reserved_eq
  have h2 := h.reserved_le
  have h3 := h.claims_eq
  have h4 := count_reserving s.sender
  omega

theorem reserved_bounds {c n : ℕ} {s : State ι α} (h : Counters c n s) :
    s.actor.ready_size ≤ s.actor.reserved_size ∧ s.actor.reserved_size < 2 ^ 61 := by
  have h1 := h.reserved_eq
  have h2 := h.reserved_le
  have h3 := h.capacity_lt
  omega

theorem counters_of_receiver {c n n' : ℕ} {s : State ι α} (h : Counters c n s) {x : Receiver α}
    {actor : Actor α} (hx : ReceiverInv x)
    (hcap : actor.mailbox_capacity = s.actor.mailbox_capacity)
    (hwrite : actor.write_loc = s.actor.write_loc)
    (hstart : actor.start = int64 n') (hready : 0 ≤ actor.ready_size)
    (hle : actor.reserved_size ≤ s.actor.mailbox_capacity)
    (hres : actor.reserved_size + s.actor.ready_size + (taking s.receiver).toNat =
      s.actor.reserved_size + actor.ready_size + (taking x).toNat)
    (hclaims : (n : ℤ) + s.actor.ready_size + (starting s.receiver).toNat =
      n' + actor.ready_size + (starting x).toNat) :
    Counters c n' (moveReceiver s actor x) where
  capacity_lt := hcap ▸ h.capacity_lt
  write_loc := hwrite.trans h.write_loc
  start := hstart
  ready_nonneg := hready
  reserved_eq := by
    have := h.reserved_eq
    simp only [moveReceiver]
    omega
  reserved_le := hcap ▸ hle
  claims_eq := by
    have := h.claims_eq
    simp only [moveReceiver]
    omega
  sender := hcap ▸ h.sender
  receiver := hx

theorem counters_init {mailbox_capacity : ℕ} {actor : Actor α}
    (h : actorInit α mailbox_capacity = some actor) :
    Counters 0 0 (⟨actor, fun _ => .idle, .idle⟩ : State ι α) := by
  simp only [actorInit] at h
  split at h
  · rename_i hlt
    cases h
    have hr : count reserving (fun _ : ι => (Sender.idle : Sender α)) = 0 :=
      count_eq_zero fun _ => rfl
    have hw : count writing (fun _ : ι => (Sender.idle : Sender α)) = 0 :=
      count_eq_zero fun _ => rfl
    refine ⟨hlt, rfl, rfl, le_rfl, ?_, Int.natCast_nonneg _, ?_, fun _ => trivial, trivial⟩
    · rw [hr]
      rfl
    · rw [hw]
      rfl
  · cases h

theorem counters_receiver {c n : ℕ} {s s' : State ι α} (h : Counters c n s) {e : Event ι α}
    (hs : ReceiverMove s s' e) : Counters (c + claimsOf e) (n + startsOf e) s' := by
  have hi := h.receiver
  have hready := h.ready_nonneg
  have hle := h.reserved_le
  have heq := h.reserved_eq
  obtain ⟨hrr, hres⟩ := reserved_bounds h
  cases hs with
  | empty hpc _ | casFailed old_size hpc =>
    exact counters_of_receiver h trivial rfl rfl h.start hready hle (by rw [hpc]; rfl)
      (by rw [hpc]; rfl)
  | loadReady hpc hlt =>
    exact counters_of_receiver h hlt rfl rfl h.start hready hle (by rw [hpc]; rfl)
      (by rw [hpc]; rfl)
  | casReady hpc =>
    rw [hpc] at hi
    have hlt : 0 < s.actor.ready_size := hi
    have hnext : int64 (s.actor.ready_size - 1) = s.actor.ready_size - 1 :=
      int64_of_lt (by omega) (by omega)
    refine counters_of_receiver h trivial rfl rfl h.start ?_ hle ?_ ?_
    · simp only [hnext]
      omega
    · simp only [hnext, hpc, taking, Bool.toNat_true, Bool.toNat_false]
      omega
    · simp only [hnext, hpc, starting, startsOf, Bool.toNat_true, Bool.toNat_false]
      omega
  | addStart hpc =>
    have hstart : int64 (s.actor.start + 1) = int64 (n + 1 : ℕ) := by
      rw [h.start, int64_add]
      rfl
    refine counters_of_receiver h trivial rfl rfl hstart hready hle (by rw [hpc]; rfl) ?_
    simp only [hpc, starting, startsOf, Bool.toNat_true, Bool.toNat_false]
    omega
  | get read hpc | clear read result hpc =>
    exact counters_of_receiver h trivial rfl rfl h.start hready hle (by rw [hpc]; rfl)
      (by rw [hpc]; rfl)
  | subReserved result hpc =>
    have htake : taking s.receiver = true := by rw [hpc]; rfl
    rw [htake, Bool.toNat_true] at heq
    have hnext : int64 (s.actor.reserved_size - 1) = s.actor.reserved_size - 1 :=
      int64_of_lt (by omega) (by omega)
    refine counters_of_receiver h trivial rfl rfl h.start hready ?_ ?_ (by rw [hpc]; rfl)
    · simp only [hnext]
      omega
    · simp only [hnext, hpc, taking, Bool.toNat_true, Bool.toNat_false]
      omega

variable [DecidableEq ι]

theorem counters_of_sender {c n c' : ℕ} {s : State ι α} (h : Counters c n s) {i : ι}
    {x : Sender α} {actor : Actor α} (hx : SenderInv s.actor.mailbox_capacity x)
    (hcap : actor.mailbox_capacity = s.actor.mailbox_capacity)
    (hstart : actor.start = s.actor.start)
    (hwrite : actor.write_loc = int64 c') (hready : 0 ≤ actor.ready_size)
    (hle : actor.reserved_size ≤ s.actor.mailbox_capacity)
    (hres : actor.reserved_size + s.actor.ready_size + (reserving (s.sender i)).toNat =
      s.actor.reserved_size + actor.ready_size + (reserving x).toNat)
    (hclaims : (c' : ℤ) + s.actor.ready_size + (writing (s.sender i)).toNat =
      c + actor.ready_size + (writing x).toNat) :
    Counters c' n (moveSender s i actor x) where
  capacity_lt := hcap ▸ h.capacity_lt
  write_loc := hwrite
  start := hstart.trans h.start
  ready_nonneg := hready
  reserved_eq := by
    have hr := count_update reserving s.sender i x
    have := h.reserved_eq
    simp only [moveSender]
    omega
  reserved_le := hcap ▸ hle
  claims_eq := by
    have hw := count_update writing s.sender i x
    have := h.claims_eq
    simp only [moveSender]
    omega
  sender := hcap ▸ senderInv_update h.sender hx
  receiver := h.receiver

theorem counters_sender {c n : ℕ} {s s' : State ι α} (h : Counters c n s) {i : ι}
    {e : Event ι α} (hs : SenderMove s i s' e) :
    Counters (c + claimsOf e) (n + startsOf e) s' := by
  have hi := h.sender i
  have hready := h.ready_nonneg
  have hle := h.reserved_le
  obtain ⟨hrr, hres⟩ := reserved_bounds h
  cases hs with
  | full msg hpc | casFailed msg old_size hpc =>
    exact counters_of_sender h trivial rfl rfl h.write_loc hready hle (by rw [hpc]; rfl)
      (by rw [hpc]; rfl)
  | loadReserved msg hpc hlt =>
    exact counters_of_sender h hlt rfl rfl h.write_loc hready hle (by rw [hpc]; rfl)
      (by rw [hpc]; rfl)
  | casReserved msg hpc =>
    rw [hpc] at hi
    have hlt : s.actor.reserved_size < s.actor.mailbox_capacity := by
      simp only [SenderInv, sizeT_of_lt (hready.trans hrr) (by omega)] at hi
      omega
    have hnext : int64 (s.actor.reserved_size + 1) = s.actor.reserved_size + 1 :=
      int64_of_lt (by omega) (by omega)
    refine counters_of_sender h trivial rfl rfl h.write_loc hready ?_ ?_ (by rw [hpc]; rfl)
    · simp only [hnext]
      omega
    · simp only [hnext, hpc, reserving, Bool.toNat_true, Bool.toNat_false]
      omega
  | addWriteLoc msg hpc =>
    have hwrite : int64 (s.actor.write_loc + 1) = int64 (c + 1 : ℕ) := by
      rw [h.write_loc, int64_add]
      rfl
    refine counters_of_sender h trivial rfl rfl hwrite hready hle (by rw [hpc]; rfl) ?_
    simp only [hpc, writing, claimsOf, Bool.toNat_true, Bool.toNat_false]
    omega
  | store msg loc hpc =>
    exact counters_of_sender h trivial rfl rfl h.write_loc hready hle (by rw [hpc]; rfl)
      (by rw [hpc]; rfl)
  | addReady msg hpc =>
    have hnext : int64 (s.actor.ready_size + 1) = s.actor.ready_size + 1 :=
      int64_of_lt (by omega) (by omega)
    refine counters_of_sender h trivial rfl rfl h.write_loc ?_ hle ?_ ?_
    · simp only [hnext]
      omega
    · simp only [hnext, hpc, reserving, Bool.toNat_true, Bool.toNat_false]
      omega
    · simp only [hnext, hpc, writing, claimsOf, Bool.toNat_true, Bool.toNat_false]
      omega

theorem counters_step {c n : ℕ} {s s' : State ι α} (h : Counters c n s) {a : Action ι α}
    {e : Event ι α} (hs : step s a = some (s', e)) :
    Counters (c + claimsOf e) (n + startsOf e) s' := by
  cases a with
  | callInsert i msg =>
    simp only [step] at hs
    split at hs
    · rename_i hpc
      cases hs
      exact counters_of_sender h trivial rfl rfl h.write_loc h.ready_nonneg h.reserved_le
        (by rw [hpc]; rfl) (by rw [hpc]; rfl)
    · cases hs
  | sender i => exact counters_sender h (sender_move hs)
  | callRemove =>
    simp only [step] at hs
    split at hs
    · rename_i hpc
      cases hs
      exact counters_of_receiver h trivial rfl rfl h.start h.ready_nonneg h.reserved_le
        (by rw [hpc]; rfl) (by rw [hpc]; rfl)
    · cases hs
  | receiver => exact counters_receiver h (receiver_move hs)

theorem run_counters {mailbox_capacity : ℕ} {tr : List (Event ι α)} {s : State ι α}
    (h : Run (actorSystem ι α mailbox_capacity) tr s) :
    Counters (claimed tr).length (starts tr) s := by
  refine Run.invariant (fun tr s => Counters (claimed tr).length (starts tr) s) ?_ ?_ h
  · rintro s ⟨actor, ha, rfl⟩
    exact counters_init ha
  · intro tr s a s' e hi _ hs
    rw [claimed_append, starts_append]
    exact counters_step hi hs

end Libseff.ActorCounters
