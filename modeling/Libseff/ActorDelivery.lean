import Libseff.ActorSlots

namespace Libseff.ActorDelivery

open FixedWidth ThreadCounts TransitionRuns ActorMailbox ActorMoves ActorCounters ActorSlots

variable {ι α : Type}

/-- The receiver reads a slot only after the insert that was given it has
written it, and `write_loc` comes back to zero only between two rounds of the
mailbox. -/
def slotWritten (s : State ι α) : Action ι α → Prop
  | .receiver => ∀ read, s.receiver = .remove (.get read) →
      ∀ i msg, s.sender i ≠ .insert msg (.store read)
  | .sender i => ∀ msg, s.sender i = .insert msg .addWriteLoc →
      s.actor.mailbox_capacity ∣ 2 ^ 64 ∨ s.actor.write_loc ≠ -1
  | _ => True

theorem claimed_concat (tr : List (Event ι α)) (e : Event ι α) :
    claimed (tr ++ [e]) = claimed tr ++ claimed [e] := List.filterMap_append

theorem received_concat (tr : List (Event ι α)) (e : Event ι α) :
    received (tr ++ [e]) = received tr ++ received [e] := List.filterMap_append

variable [Fintype ι]

/-- The messages that have been received are those of the first locations. -/
structure Delivery (tr : List (Event ι α)) (s : State ι α) : Prop where
  counters : Counters (claimed tr).length (starts tr) s
  no_wrap : s.actor.mailbox_capacity ∣ 2 ^ 64 ∨ (claimed tr).length < 2 ^ 64
  started : holding s.receiver ≤ starts tr
  received : received tr =
    ((claimed tr).map Prod.snd).take (starts tr - holding s.receiver)
  slots : Slots (claimed tr) (starts tr) s

variable [DecidableEq ι]

theorem delivery_next {tr : List (Event ι α)} {s s' : State ι α} (h : Delivery tr s)
    {a : Action ι α} {e : Event ι α} (hs : step s a = some (s', e))
    (hwrap : s'.actor.mailbox_capacity ∣ 2 ^ 64 ∨ (claimed tr).length + claimsOf e < 2 ^ 64)
    (hstart : holding s'.receiver ≤ starts tr + startsOf e)
    (hrec : received tr ++ received [e] =
      ((claimed tr ++ claimed [e]).map Prod.snd).take
        (starts tr + startsOf e - holding s'.receiver))
    (hslots : Slots (claimed tr ++ claimed [e]) (starts tr + startsOf e) s') :
    Delivery (tr ++ [e]) s' where
  counters := by
    rw [claimed_append, starts_append]
    exact counters_step h.counters hs
  no_wrap := by rwa [claimed_append]
  started := by rwa [starts_append]
  received := by rwa [received_concat, claimed_concat, starts_append]
  slots := by rwa [claimed_concat, starts_append]

theorem delivery_quiet {tr : List (Event ι α)} {s s' : State ι α} (h : Delivery tr s)
    {a : Action ι α} {e : Event ι α} (hs : step s a = some (s', e))
    (hcap : s'.actor.mailbox_capacity = s.actor.mailbox_capacity) (hclaim : claimed [e] = [])
    (hclaims : claimsOf e = 0) (hstarts : startsOf e = 0) (hrec : received [e] = [])
    (hheld : holding s'.receiver = holding s.receiver)
    (hslots : Slots (claimed tr) (starts tr) s') : Delivery (tr ++ [e]) s' := by
  apply delivery_next h hs
  · rw [hcap, hclaims]
    exact h.no_wrap
  · rw [hheld, hstarts]
    exact h.started
  · rw [hrec, hclaim, hheld, hstarts, List.append_nil, List.append_nil]
    exact h.received
  · rw [hclaim, hstarts, List.append_nil]
    exact hslots

theorem delivery_sender {tr : List (Event ι α)} {s s' : State ι α} (h : Delivery tr s) {i : ι}
    (hok : slotWritten s (.sender i)) {e : Event ι α}
    (hs : step s (.sender i) = some (s', e)) : Delivery (tr ++ [e]) s' := by
  have hc := h.counters
  cases sender_move hs with
  | full msg hpc | loadReserved msg hpc hlt | casFailed msg old_size hpc | casReserved msg hpc
  | addReady msg hpc =>
    exact delivery_quiet h hs rfl rfl rfl rfl rfl rfl
      (slots_of_sender h.slots rfl rfl (by rw [hpc]; rfl) rfl)
  | store msg loc hpc =>
    exact delivery_quiet h hs rfl rfl rfl rfl rfl rfl (slots_store hc h.slots h.started hpc)
  | addWriteLoc msg hpc =>
    have hloc := sizeT_mod h.no_wrap
    rw [← hc.write_loc] at hloc
    have hle := starts_le hc
    apply delivery_next h hs
    · obtain hdvd | hlt := h.no_wrap
      · exact .inl hdvd
      · obtain hdvd | hne := hok msg hpc
        · exact .inl hdvd
        · refine .inr (lt_of_le_of_ne hlt fun he => hne ?_)
          have hlen : (claimed tr).length = 2 ^ 64 - 1 := Nat.succ_injective he
          rw [hc.write_loc, hlen]
          decide
    · exact h.started
    · have hlen : starts tr - holding s.receiver ≤ ((claimed tr).map Prod.snd).length := by
        rw [List.length_map]
        omega
      change received tr ++ [] = ((claimed tr ++ [(i, msg)]).map Prod.snd).take
        (starts tr - holding s.receiver)
      rw [List.append_nil, List.map_append, List.take_append_of_le_length hlen]
      exact h.received
    · exact slots_claim hc h.slots h.started hpc hloc

theorem delivery_receiver {tr : List (Event ι α)} {s s' : State ι α} (h : Delivery tr s)
    (hok : slotWritten s .receiver) {e : Event ι α}
    (hs : step s .receiver = some (s', e)) : Delivery (tr ++ [e]) s' := by
  have hc := h.counters
  have hle := starts_le hc
  have hheld := h.started
  cases receiver_move hs with
  | empty hpc _ | loadReady hpc hlt | casFailed old_size hpc | casReady hpc =>
    exact delivery_quiet h hs rfl rfl rfl rfl rfl (by rw [hpc]; rfl)
      (slots_of_receiver h.slots rfl rfl (by rw [hpc]; rfl) (by rw [hpc]; rfl) trivial)
  | addStart hpc =>
    have hloc : sizeT s.actor.start % s.actor.mailbox_capacity =
        starts tr % s.actor.mailbox_capacity := by
      rw [hc.start]
      exact sizeT_mod (h.no_wrap.imp_right hle.trans_lt)
    apply delivery_next h hs
    · exact h.no_wrap
    · exact Nat.le_add_left 1 _
    · have hrec := h.received
      rw [hpc] at hrec
      simpa [received, claimed, moveReceiver, holding, startsOf] using hrec
    · change Slots (claimed tr ++ []) (starts tr + 1) _
      rw [List.append_nil]
      exact slots_addStart h.slots hpc hloc
  | get read hpc =>
    rw [hpc] at hheld
    have hpos : 1 ≤ starts tr := hheld
    exact delivery_quiet h hs rfl rfl rfl rfl rfl (by rw [hpc]; rfl)
      (slots_get h.slots hpc (by omega) (hok read hpc))
  | clear read result hpc =>
    rw [hpc] at hheld
    have hpos : 1 ≤ starts tr := hheld
    exact delivery_quiet h hs rfl rfl rfl rfl rfl (by rw [hpc]; rfl)
      (slots_clear hc h.slots hpc (by omega) hpos)
  | subReserved result hpc =>
    rw [hpc] at hheld
    have hpos : 1 ≤ starts tr := hheld
    have hresult := h.slots.held
    have hrec := h.received
    rw [hpc] at hresult hrec
    obtain ⟨m, hm⟩ : ∃ m, starts tr = m + 1 := ⟨starts tr - 1, by omega⟩
    apply delivery_next h hs
    · exact h.no_wrap
    · exact Nat.zero_le _
    · change received tr ++ result.toList = ((claimed tr ++ []).map Prod.snd).take (starts tr)
      rw [List.append_nil, hrec, hresult, hm, List.take_add_one, List.getElem?_map]
      rfl
    · change Slots (claimed tr ++ []) (starts tr) _
      rw [List.append_nil]
      exact slots_of_receiver h.slots rfl rfl (by rw [hpc]; rfl) (by rw [hpc]; rfl) trivial

theorem delivery_step {tr : List (Event ι α)} {s s' : State ι α} (h : Delivery tr s)
    {a : Action ι α} (hok : slotWritten s a) {e : Event ι α} (hs : step s a = some (s', e)) :
    Delivery (tr ++ [e]) s' := by
  have hstep := hs
  cases a with
  | callInsert i msg =>
    simp only [step] at hs
    split at hs
    · rename_i hpc
      cases hs
      exact delivery_quiet h hstep rfl rfl rfl rfl rfl rfl
        (slots_of_sender h.slots rfl rfl (by rw [hpc]; rfl) rfl)
    · cases hs
  | sender i => exact delivery_sender h hok hs
  | callRemove =>
    simp only [step] at hs
    split at hs
    · rename_i hpc
      cases hs
      exact delivery_quiet h hstep rfl rfl rfl rfl rfl (by rw [hpc]; rfl)
        (slots_of_receiver h.slots rfl rfl (by rw [hpc]; rfl) (by rw [hpc]; rfl) trivial)
    · cases hs
  | receiver => exact delivery_receiver h hok hs

omit [DecidableEq ι] in
theorem delivery_init {mailbox_capacity : ℕ} {actor : Actor α}
    (h : actorInit α mailbox_capacity = some actor) :
    Delivery [] (⟨actor, fun _ => .idle, .idle⟩ : State ι α) := by
  refine ⟨counters_init h, .inr (Nat.two_pow_pos 64), Nat.zero_le _, rfl, ?_⟩
  refine ⟨fun k i msg _ hlog => (nomatch hlog), fun i msg loc hs => (nomatch hs), ?_, trivial⟩
  intro loc _
  simp only [actorInit] at h
  split at h <;> cases h
  rfl

theorem run_delivery {mailbox_capacity : ℕ} {tr : List (Event ι α)} {s : State ι α}
    (h : Run ((actorSystem ι α mailbox_capacity).restrict slotWritten) tr s) : Delivery tr s := by
  refine Run.invariant Delivery ?_
    (fun tr s a s' e hi (hm : True ∧ slotWritten s a) hs => delivery_step hi hm.2 hs) h
  rintro s ⟨actor, ha, rfl⟩
  exact delivery_init ha

end Libseff.ActorDelivery
