import Libseff.ActorCounters

namespace Libseff.ActorSlots

open FixedWidth ThreadCounts TransitionRuns ActorMailbox ActorMoves ActorCounters

variable {ι α : Type}

def holding : Receiver α → ℕ
  | .remove (.get _) | .remove (.clear _ _) | .remove (.subReserved _) => 1
  | _ => 0

def unread : Receiver α → ℕ
  | .remove (.get _) => 1
  | _ => 0

def uncleared : Receiver α → ℕ
  | .remove (.get _) | .remove (.clear _ _) => 1
  | _ => 0

def HeldInv (log : List (ι × α)) (mailbox_capacity n : ℕ) : Receiver α → Prop
  | .remove (.get read) => read = (n - 1) % mailbox_capacity
  | .remove (.clear read result) => read = (n - 1) % mailbox_capacity ∧
      result = log[n - 1]?.map Prod.snd
  | .remove (.subReserved result) => result = log[n - 1]?.map Prod.snd
  | _ => True

/-- Every location from the first unread one on has its message in its slot or
its insert about to write it, and all other slots are empty. -/
structure Slots (log : List (ι × α)) (n : ℕ) (s : State ι α) : Prop where
  filled : ∀ k i msg, n - unread s.receiver ≤ k → log[k]? = some (i, msg) →
    (s.sender i = .insert msg (.store (k % s.actor.mailbox_capacity)) ∧
      s.actor.mailbox (k % s.actor.mailbox_capacity) = none) ∨
    (s.actor.mailbox (k % s.actor.mailbox_capacity) = some msg ∧
      ∀ j msg', s.sender j ≠ .insert msg' (.store (k % s.actor.mailbox_capacity)))
  stores : ∀ i msg loc, s.sender i = .insert msg (.store loc) →
    ∃ k, n - unread s.receiver ≤ k ∧ log[k]? = some (i, msg) ∧ loc = k % s.actor.mailbox_capacity
  outside : ∀ loc, (∀ k, n - uncleared s.receiver ≤ k → k < log.length →
    loc ≠ k % s.actor.mailbox_capacity) → s.actor.mailbox loc = none
  held : HeldInv log s.actor.mailbox_capacity n s.receiver

theorem lt_of_getElem? {log : List (ι × α)} {k : ℕ} {p : ι × α} (h : log[k]? = some p) :
    k < log.length := (List.getElem?_eq_some_iff.mp h).1

theorem taking_eq (r : Receiver α) : (taking r).toNat = holding r + (starting r).toNat := by
  cases r with
  | idle => rfl
  | remove pc => cases pc <;> rfl

theorem uncleared_le (r : Receiver α) : unread r ≤ uncleared r ∧ uncleared r ≤ holding r := by
  cases r with
  | idle => exact ⟨le_rfl, le_rfl⟩
  | remove pc => cases pc <;> simp [unread, uncleared, holding]

theorem slot_inj [Fintype ι] {c n : ℕ} {s : State ι α} (h : Counters c n s) {k k' : ℕ}
    (h1 : n - holding s.receiver ≤ k) (h2 : k < c) (h3 : n - holding s.receiver ≤ k')
    (h4 : k' < c) (hstart : holding s.receiver ≤ n)
    (he : k % s.actor.mailbox_capacity = k' % s.actor.mailbox_capacity) : k = k' := by
  have hw := window_le h
  have ht := taking_eq s.receiver
  obtain hle | hle := le_total k k'
  · exact mod_inj_of_lt hle (by omega) he
  · exact (mod_inj_of_lt hle (by omega) he.symm).symm

theorem claim_fresh [Fintype ι] {c n : ℕ} {s : State ι α} (h : Counters c n s) {i : ι} {msg : α}
    (hpc : s.sender i = .insert msg .addWriteLoc) (hstart : holding s.receiver ≤ n) {k : ℕ}
    (h1 : n - holding s.receiver ≤ k) (h2 : k < c) :
    c % s.actor.mailbox_capacity ≠ k % s.actor.mailbox_capacity := by
  intro he
  have hw := window_le h
  have ht := taking_eq s.receiver
  have hpos : 0 < count claiming s.sender := count_pos (i := i) (by rw [hpc]; rfl)
  have hk := mod_inj_of_lt h2.le (by omega) he.symm
  omega

theorem starts_le [Fintype ι] {c n : ℕ} {s : State ι α} (h : Counters c n s) : n ≤ c := by
  have h1 := h.claims_eq
  have h2 := h.ready_nonneg
  omega

theorem heldInv_append {log log' : List (ι × α)} {mailbox_capacity n : ℕ} {r : Receiver α}
    (hle : n ≤ log.length) (hstart : holding r ≤ n) (h : HeldInv log mailbox_capacity n r) :
    HeldInv (log ++ log') mailbox_capacity n r := by
  have hget : 1 ≤ n → (log ++ log')[n - 1]? = log[n - 1]? :=
    fun _ => List.getElem?_append_left (by omega)
  cases r with
  | idle => trivial
  | remove pc =>
    cases pc with
    | clear read result => exact ⟨h.1, (hget hstart).symm ▸ h.2⟩
    | subReserved result =>
      rw [HeldInv, hget hstart]
      exact h
    | _ => exact h

theorem slots_of_receiver {log : List (ι × α)} {n : ℕ} {s : State ι α} (h : Slots log n s)
    {actor : Actor α} {x : Receiver α} (hbox : actor.mailbox = s.actor.mailbox)
    (hcap : actor.mailbox_capacity = s.actor.mailbox_capacity)
    (hunread : unread x = unread s.receiver) (huncleared : uncleared x = uncleared s.receiver)
    (hheld : HeldInv log s.actor.mailbox_capacity n x) : Slots log n (moveReceiver s actor x) where
  filled := by
    simp only [moveReceiver, hbox, hcap, hunread]
    exact h.filled
  stores := by
    simp only [moveReceiver, hcap, hunread]
    exact h.stores
  outside := by
    simp only [moveReceiver, hbox, hcap, huncleared]
    exact h.outside
  held := by
    simp only [moveReceiver, hcap]
    exact hheld

theorem slots_addStart {log : List (ι × α)} {n : ℕ} {s : State ι α} (h : Slots log n s)
    (hpc : s.receiver = .remove .addStart) {z : ℤ} {read : ℕ}
    (hread : read = n % s.actor.mailbox_capacity) :
    Slots log (n + 1)
      (moveReceiver s { s.actor with start := z } (.remove (.get read))) where
  filled := by
    have hf := h.filled
    rw [hpc] at hf
    exact hf
  stores := by
    have hs := h.stores
    rw [hpc] at hs
    exact hs
  outside := by
    have ho := h.outside
    rw [hpc] at ho
    exact ho
  held := hread

theorem get_message {log : List (ι × α)} {n : ℕ} {s : State ι α} (h : Slots log n s) {read : ℕ}
    (hpc : s.receiver = .remove (.get read)) (hn : n - 1 < log.length)
    (hok : ∀ i msg, s.sender i ≠ .insert msg (.store read)) :
    s.actor.mailbox read = log[n - 1]?.map Prod.snd := by
  have hheld := h.held
  rw [hpc] at hheld
  obtain rfl : read = (n - 1) % s.actor.mailbox_capacity := hheld
  obtain ⟨⟨i, msg⟩, hlog⟩ : ∃ p, log[n - 1]? = some p := ⟨_, List.getElem?_eq_getElem hn⟩
  have hle : n - unread s.receiver ≤ n - 1 := by rw [hpc]; exact le_rfl
  obtain ⟨hstore, -⟩ | ⟨hbox, -⟩ := h.filled (n - 1) i msg hle hlog
  · exact absurd hstore (hok i msg)
  · rw [hbox, hlog]
    rfl

theorem slots_get {log : List (ι × α)} {n : ℕ} {s : State ι α} (h : Slots log n s) {read : ℕ}
    (hpc : s.receiver = .remove (.get read)) (hn : n - 1 < log.length)
    (hok : ∀ i msg, s.sender i ≠ .insert msg (.store read)) :
    Slots log n (moveReceiver s s.actor (.remove (.clear read (s.actor.mailbox read)))) where
  filled := by
    intro k i msg hk hlog
    have hf := h.filled
    rw [hpc] at hf
    exact hf k i msg (le_trans (Nat.sub_le n 1) hk) hlog
  stores := by
    intro i msg loc hs
    have hst := h.stores i msg loc hs
    have hheld := h.held
    rw [hpc] at hst hheld
    obtain ⟨k, hk, hlog, rfl⟩ := hst
    refine ⟨k, ?_, hlog, rfl⟩
    have hk' : n - 1 ≤ k := hk
    have hne : k ≠ n - 1 := by
      rintro rfl
      obtain rfl : read = (n - 1) % s.actor.mailbox_capacity := hheld
      exact hok i msg hs
    simp only [moveReceiver, unread]
    omega
  outside := by
    have ho := h.outside
    rw [hpc] at ho
    exact ho
  held := by
    have hheld := h.held
    rw [hpc] at hheld
    exact ⟨hheld, get_message h hpc hn hok⟩

theorem slots_clear [Fintype ι] {log : List (ι × α)} {n : ℕ} {s : State ι α}
    (hc : Counters log.length n s) (h : Slots log n s) {read : ℕ} {result : Option α}
    (hpc : s.receiver = .remove (.clear read result)) (hn : n - 1 < log.length) (h0 : 1 ≤ n) :
    Slots log n (moveReceiver s
      { s.actor with mailbox := Function.update s.actor.mailbox read none }
      (.remove (.subReserved result))) := by
  have hheld := h.held
  have hholding : holding s.receiver = 1 := by rw [hpc]; rfl
  have hunread : unread s.receiver = 0 := by rw [hpc]; rfl
  rw [hpc] at hheld
  obtain ⟨hread, hresult⟩ := hheld
  have hne : ∀ k, n ≤ k → k < log.length → k % s.actor.mailbox_capacity ≠ read := by
    intro k hk hlt he
    have hkn := slot_inj hc (by omega) hlt (by omega) hn (by omega) (he.trans hread)
    omega
  refine ⟨?_, ?_, ?_, hresult⟩
  · intro k i msg hk hlog
    have hk' : n ≤ k := hk
    simp only [moveReceiver, Function.update_of_ne (hne k hk' (lt_of_getElem? hlog))]
    exact h.filled k i msg (by rw [hunread]; exact hk') hlog
  · intro i msg loc hs
    have hst := h.stores i msg loc hs
    rw [hunread] at hst
    exact hst
  · intro loc hloc
    by_cases he : loc = read
    · subst he
      exact Function.update_self ..
    · refine (Function.update_of_ne he _ _).trans (h.outside loc fun k hk hlt => ?_)
      rw [hpc] at hk
      have hk' : n - 1 ≤ k := hk
      obtain rfl | hnk : k = n - 1 ∨ n ≤ k := by omega
      · rwa [← hread]
      · exact hloc k hnk hlt

variable [DecidableEq ι]

def storing : Sender α → Bool
  | .insert _ (.store _) => true
  | _ => false

theorem slots_of_sender {log : List (ι × α)} {n : ℕ} {s : State ι α} (h : Slots log n s) {i : ι}
    {actor : Actor α} {x : Sender α} (hbox : actor.mailbox = s.actor.mailbox)
    (hcap : actor.mailbox_capacity = s.actor.mailbox_capacity)
    (hs : storing (s.sender i) = false) (hx : storing x = false) :
    Slots log n (moveSender s i actor x) := by
  have hiff : ∀ j msg loc, Function.update s.sender i x j = .insert msg (.store loc) ↔
      s.sender j = .insert msg (.store loc) := by
    intro j msg loc
    by_cases hj : j = i
    · subst hj
      rw [Function.update_self]
      constructor
      · rintro rfl
        cases hx
      · intro he
        rw [he] at hs
        cases hs
    · rw [Function.update_of_ne hj]
  refine ⟨?_, ?_, ?_, ?_⟩
  · simp only [moveSender, hbox, hcap, ne_eq, hiff]
    exact h.filled
  · simp only [moveSender, hcap, hiff]
    exact h.stores
  · simp only [moveSender, hbox, hcap]
    exact h.outside
  · simp only [moveSender, hcap]
    exact h.held

theorem slots_claim [Fintype ι] {log : List (ι × α)} {n : ℕ} {s : State ι α}
    (hc : Counters log.length n s) (h : Slots log n s) (hstart : holding s.receiver ≤ n) {i : ι}
    {msg : α} (hpc : s.sender i = .insert msg .addWriteLoc) {z : ℤ} {loc : ℕ}
    (hloc : loc = log.length % s.actor.mailbox_capacity) :
    Slots (log ++ [(i, msg)]) n
      (moveSender s i { s.actor with write_loc := z } (.insert msg (.store loc))) := by
  obtain ⟨hu1, hu2⟩ := uncleared_le s.receiver
  have hfresh : ∀ k, n - holding s.receiver ≤ k → k < log.length →
      loc ≠ k % s.actor.mailbox_capacity :=
    fun k h1 h2 => hloc ▸ claim_fresh hc hpc hstart h1 h2
  have hnone : s.actor.mailbox loc = none := by
    refine h.outside loc fun k hk hlt => hfresh k (by omega) hlt
  have hother : ∀ j msg' loc', s.sender j = .insert msg' (.store loc') → j ≠ i := by
    rintro j msg' loc' hj rfl
    rw [hpc] at hj
    cases hj
  refine ⟨?_, ?_, ?_, ?_⟩
  · intro k j msg' hk hlog
    obtain hlt | hge := Nat.lt_or_ge k log.length
    · rw [List.getElem?_append_left hlt] at hlog
      have hk' : n - holding s.receiver ≤ k := by
        simp only [moveSender] at hk
        omega
      obtain ⟨hstore, hbox⟩ | ⟨hbox, hall⟩ := h.filled k j msg' hk hlog
      · exact .inl ⟨(Function.update_of_ne (hother _ _ _ hstore) _ _).trans hstore, hbox⟩
      · refine .inr ⟨hbox, fun j' m' => ?_⟩
        by_cases hj : j' = i
        · subst hj
          simp only [moveSender, Function.update_self]
          intro he
          cases he
          exact hfresh k hk' hlt rfl
        · simp only [moveSender, Function.update_of_ne hj]
          exact hall j' m'
    · have hkl := lt_of_getElem? hlog
      rw [List.length_append, List.length_singleton] at hkl
      obtain rfl : k = log.length := by omega
      rw [List.getElem?_concat_length] at hlog
      cases hlog
      subst hloc
      exact .inl ⟨Function.update_self .., hnone⟩
  · intro j msg' loc' hs
    by_cases hj : j = i
    · subst hj
      simp only [moveSender, Function.update_self] at hs
      cases hs
      refine ⟨log.length, ?_, List.getElem?_concat_length, hloc⟩
      have hle := hc.claims_eq
      have hready := hc.ready_nonneg
      simp only [moveSender]
      omega
    · simp only [moveSender, Function.update_of_ne hj] at hs
      obtain ⟨k, hk, hlog, he⟩ := h.stores j msg' loc' hs
      exact ⟨k, hk, by rw [List.getElem?_append_left (lt_of_getElem? hlog)]; exact hlog, he⟩
  · intro loc' hloc'
    refine h.outside loc' fun k hk hlt => hloc' k hk ?_
    rw [List.length_append]
    omega
  · exact heldInv_append (starts_le hc) hstart h.held

theorem slots_store [Fintype ι] {log : List (ι × α)} {n : ℕ} {s : State ι α}
    (hc : Counters log.length n s) (h : Slots log n s) (hstart : holding s.receiver ≤ n) {i : ι}
    {msg : α} {loc : ℕ} (hpc : s.sender i = .insert msg (.store loc)) :
    Slots log n (moveSender s i
      { s.actor with mailbox := Function.update s.actor.mailbox loc (some msg) }
      (.insert msg .addReady)) := by
  obtain ⟨hu1, hu2⟩ := uncleared_le s.receiver
  obtain ⟨k0, hk0, hlog0, rfl⟩ := h.stores i msg loc hpc
  have hinj : ∀ k, n - unread s.receiver ≤ k → k < log.length →
      k % s.actor.mailbox_capacity = k0 % s.actor.mailbox_capacity → k = k0 :=
    fun k hk hlt he => slot_inj hc (by omega) hlt (by omega) (lt_of_getElem? hlog0) hstart he
  have hother : ∀ j msg' loc', Function.update s.sender i (.insert msg .addReady) j =
      .insert msg' (.store loc') → j ≠ i ∧ s.sender j = .insert msg' (.store loc') := by
    intro j msg' loc' hj
    by_cases hji : j = i
    · subst hji
      rw [Function.update_self] at hj
      cases hj
    · rw [Function.update_of_ne hji] at hj
      exact ⟨hji, hj⟩
  refine ⟨?_, ?_, ?_, h.held⟩
  · intro k j msg' hk hlog
    by_cases hkk : k = k0
    · subst hkk
      rw [hlog0] at hlog
      cases hlog
      refine .inr ⟨Function.update_self .., fun j m hj => ?_⟩
      obtain ⟨hne, hj'⟩ := hother j m _ hj
      obtain ⟨k', hk', hlog', he⟩ := h.stores j m _ hj'
      obtain rfl := hinj k' hk' (lt_of_getElem? hlog') he.symm
      rw [hlog0] at hlog'
      cases hlog'
      exact hne rfl
    · have hslot : k % s.actor.mailbox_capacity ≠ k0 % s.actor.mailbox_capacity :=
        fun he => hkk (hinj k hk (lt_of_getElem? hlog) he)
      simp only [moveSender, Function.update_of_ne hslot]
      obtain ⟨hstore, hbox⟩ | ⟨hbox, hall⟩ := h.filled k j msg' hk hlog
      · have hji : j ≠ i := by
          rintro rfl
          rw [hpc] at hstore
          simp only [Sender.insert.injEq, Insert.store.injEq] at hstore
          exact hslot hstore.2.symm
        exact .inl ⟨(Function.update_of_ne hji _ _).trans hstore, hbox⟩
      · exact .inr ⟨hbox, fun j' m' hj' => hall j' m' (hother j' m' _ hj').2⟩
  · intro j msg' loc' hj
    exact h.stores j msg' loc' (hother j msg' loc' hj).2
  · intro loc' hloc'
    have hne : loc' ≠ k0 % s.actor.mailbox_capacity := by
      refine hloc' k0 ?_ (lt_of_getElem? hlog0)
      simp only [moveSender]
      omega
    exact (Function.update_of_ne hne _ _).trans (h.outside loc' hloc')

end Libseff.ActorSlots
