import Libseff.ActorDelivery

namespace Libseff.ActorExactlyOnce

open FixedWidth ThreadCounts TransitionRuns ActorMailbox ActorMoves ActorCounters ActorSlots
  ActorDelivery

variable {ι α : Type}

theorem quiescent_claims [Fintype ι] {c n : ℕ} {s : State ι α} (h : Counters c n s)
    (hq : quiescent s) : (c : ℤ) = n + s.actor.ready_size := by
  have hw : count writing s.sender = 0 := count_eq_zero fun i => by rw [hq.1 i]; rfl
  have hc := h.claims_eq
  rw [hw, hq.2] at hc
  simpa [starting] using hc

variable [DecidableEq ι]

def Sent (tr : List (Event ι α)) (s : State ι α) : Prop :=
  ∀ i, messagesOf i (claimed tr) = accepted i tr ++ inFlight (s.sender i)

theorem accepted_append (i : ι) (tr : List (Event ι α)) (e : Event ι α) :
    accepted i (tr ++ [e]) = accepted i tr ++ accepted i [e] := List.filterMap_append

theorem messagesOf_append (i : ι) (l l' : List (ι × α)) :
    messagesOf i (l ++ l') = messagesOf i l ++ messagesOf i l' := List.filterMap_append

theorem sent_next {tr : List (Event ι α)} {s s' : State ι α} (h : Sent tr s) {e : Event ι α}
    (he : ∀ i, inFlight (s.sender i) ++ messagesOf i (claimed [e]) =
      accepted i [e] ++ inFlight (s'.sender i)) : Sent (tr ++ [e]) s' := by
  intro i
  rw [claimed_concat, messagesOf_append, accepted_append, h i, List.append_assoc, he i,
    List.append_assoc]

theorem sent_quiet {tr : List (Event ι α)} {s s' : State ι α} (h : Sent tr s) {e : Event ι α}
    (hclaim : claimed [e] = []) (haccept : ∀ i, accepted i [e] = [])
    (hf : ∀ i, inFlight (s'.sender i) = inFlight (s.sender i)) : Sent (tr ++ [e]) s' := by
  apply sent_next h
  intro i
  rw [hclaim, haccept, hf i]
  exact List.append_nil _

theorem inFlight_update {f : ι → Sender α} {i : ι} {x : Sender α}
    (hx : inFlight x = inFlight (f i)) (j : ι) :
    inFlight (Function.update f i x j) = inFlight (f j) := by
  by_cases hj : j = i
  · subst hj
    rwa [Function.update_self]
  · rw [Function.update_of_ne hj]

theorem sent_step {tr : List (Event ι α)} {s s' : State ι α} (h : Sent tr s) {a : Action ι α}
    {e : Event ι α} (hs : step s a = some (s', e)) : Sent (tr ++ [e]) s' := by
  cases a with
  | callInsert i msg =>
    simp only [step] at hs
    split at hs
    · rename_i hpc
      cases hs
      exact sent_quiet h rfl (fun _ => rfl) (inFlight_update (by rw [hpc]; rfl))
    · cases hs
  | sender i =>
    cases sender_move hs with
    | full msg hpc | loadReserved msg hpc hlt | casFailed msg old_size hpc | casReserved msg hpc
    | store msg loc hpc =>
      exact sent_quiet h rfl (fun _ => rfl) (inFlight_update (by rw [hpc]; rfl))
    | addWriteLoc msg hpc =>
      apply sent_next h
      intro j
      by_cases hj : j = i
      · subst hj
        simp [hpc, inFlight, messagesOf, claimed, accepted, moveSender]
      · simp [moveSender, messagesOf, claimed, accepted, hj, Ne.symm hj]
    | addReady msg hpc =>
      apply sent_next h
      intro j
      by_cases hj : j = i
      · subst hj
        simp [hpc, inFlight, messagesOf, claimed, accepted, moveSender]
      · simp [moveSender, messagesOf, claimed, accepted, hj, Ne.symm hj]
  | callRemove =>
    simp only [step] at hs
    split at hs <;> cases hs
    exact sent_quiet h rfl (fun _ => rfl) (fun _ => rfl)
  | receiver =>
    cases receiver_move hs with
    | _ => exact sent_quiet h rfl (fun _ => rfl) (fun _ => rfl)

theorem run_sent {mailbox_capacity : ℕ} {tr : List (Event ι α)} {s : State ι α}
    (h : Run (actorSystem ι α mailbox_capacity) tr s) : Sent tr s := by
  refine Run.invariant Sent ?_ (fun tr s a s' e hi _ hs => sent_step hi hs) h
  rintro s ⟨actor, -, rfl⟩ i
  rfl

theorem remove_one {mailbox_capacity : ℕ} {tr : List (Event ι α)} {s : State ι α}
    (h : Run ((actorSystem ι α mailbox_capacity).restrict slotWritten) tr s) (hq : quiescent s)
    (hready : 0 < s.actor.ready_size) :
    ∃ tr' s', Run ((actorSystem ι α mailbox_capacity).restrict slotWritten) (tr ++ tr') s' ∧
      claimed tr' = [] ∧ quiescent s' ∧ starts (tr ++ tr') = starts tr + 1 := by
  obtain ⟨actor, sender, receiver⟩ := s
  obtain ⟨hidle, rfl⟩ := hq
  have hok : ∀ actor receiver, slotWritten (⟨actor, sender, receiver⟩ : State ι α) .receiver := by
    intro actor receiver read _ i msg he
    rw [hidle i] at he
    cases he
  have hnext : ∀ {tr actor pc actor' pc'},
      Run ((actorSystem ι α mailbox_capacity).restrict slotWritten) tr ⟨actor, sender, .remove pc⟩ →
      actorRemoveMsg actor pc = (actor', .run pc') →
      Run ((actorSystem ι α mailbox_capacity).restrict slotWritten) (tr ++ [removeEvent ι pc])
        ⟨actor', sender, .remove pc'⟩ := by
    intro tr actor pc actor' pc' hrun hpc
    refine Run.next hrun (a := .receiver) ⟨trivial, hok _ _⟩ ?_
    simp only [System.restrict, actorSystem, step, hpc]
  have h1 : Run ((actorSystem ι α mailbox_capacity).restrict slotWritten) (tr ++ [.silent])
      ⟨actor, sender, .remove .loadReady⟩ := by
    refine Run.next h (a := .callRemove) ?_ rfl
    exact ⟨trivial, trivial⟩
  have h2 := hnext h1 (by rw [actorRemoveMsg, if_neg (not_le.mpr hready)])
  have h3 := hnext h2 (by rw [actorRemoveMsg, if_pos rfl])
  have h4 := hnext h3 rfl
  have h5 := hnext h4 rfl
  have h6 := hnext h5 rfl
  have h7 := Run.next h6 (a := .receiver) ⟨trivial, hok _ _⟩ rfl
  simp only [List.append_assoc] at h7
  refine ⟨_, _, h7, rfl, ⟨hidle, rfl⟩, ?_⟩
  simp [starts, removeEvent]

theorem drain [Fintype ι] {mailbox_capacity : ℕ} {tr : List (Event ι α)} {s : State ι α}
    (h : Run ((actorSystem ι α mailbox_capacity).restrict slotWritten) tr s) (hq : quiescent s) :
    ∃ tr' s', Run ((actorSystem ι α mailbox_capacity).restrict slotWritten) (tr ++ tr') s' ∧
      claimed tr' = [] ∧ quiescent s' ∧
      received (tr ++ tr') = (claimed tr).map Prod.snd := by
  generalize hn : (claimed tr).length - starts tr = n
  induction n generalizing tr s with
  | zero =>
    have hd := run_delivery h
    refine ⟨[], s, by rwa [List.append_nil], rfl, hq, ?_⟩
    rw [List.append_nil, hd.received, hq.2]
    apply List.take_of_length_le
    rw [List.length_map]
    exact Nat.sub_eq_zero_iff_le.mp hn
  | succ n ih =>
    have hc := quiescent_claims (run_delivery h).counters hq
    obtain ⟨tr1, s1, h1, hclaim1, hq1, hs1⟩ := remove_one h hq (by omega)
    have hclaimed : claimed (tr ++ tr1) = claimed tr := by
      rw [claimed, List.filterMap_append]
      exact (congrArg (claimed tr ++ ·) hclaim1).trans (List.append_nil _)
    obtain ⟨tr2, s2, h2, hclaim2, hq2, hr2⟩ := ih h1 hq1 (by rw [hclaimed, hs1]; omega)
    rw [List.append_assoc] at h2 hr2
    refine ⟨tr1 ++ tr2, s2, h2, ?_, hq2, by rw [hr2, hclaimed]⟩
    rw [claimed, List.filterMap_append]
    exact (congrArg₂ (· ++ ·) hclaim1 hclaim2).trans (List.append_nil _)

/-- Every message is received exactly once and in the order of its sender, as
long as the receiver finds the slots that it reads written. -/
theorem actorMailbox_exactlyOnce [Fintype ι] (mailbox_capacity : ℕ) :
    ExactlyOnce ((actorSystem ι α mailbox_capacity).restrict slotWritten) := by
  intro tr s h
  have hd := run_delivery h
  have hc := hd.counters
  have hle := starts_le hc
  have hheld := hd.slots.held
  have hstarted := hd.started
  refine ⟨?_, run_sent h.of_restrict, ?_, ?_, ?_, fun hq => drain h hq⟩
  · rw [hd.received]
    exact List.take_prefix _ _
  · intro read hm hpc hnone
    rw [hpc] at hstarted
    have hpos : 1 ≤ starts tr := hstarted
    have hlt : starts tr - 1 < (claimed tr).length := by omega
    rw [get_message hd.slots hpc hlt (hm.2 read hpc), List.getElem?_eq_getElem hlt] at hnone
    cases hnone
  · rintro result hpc rfl
    rw [hpc] at hheld hstarted
    have hpos : 1 ≤ starts tr := hstarted
    have hlt : starts tr - 1 < (claimed tr).length := by omega
    rw [HeldInv, List.getElem?_eq_getElem hlt] at hheld
    cases hheld
  · intro i msg loc _ hpc
    obtain ⟨k, hk, hlog, rfl⟩ := hd.slots.stores i msg loc hpc
    obtain ⟨-, hnone⟩ | ⟨-, hall⟩ := hd.slots.filled k i msg hk hlog
    · exact hnone
    · exact absurd hpc (hall i msg)

/-- The second of two inserts announces its message before the first has written
its slot, which the remove then reads. -/
theorem not_exactlyOnce_of_two_senders : ¬ ExactlyOnce (actorSystem Bool ℕ 2) := by
  intro h
  obtain ⟨tr, s, hrun, he⟩ := Run.exists_of_exec (S := actorSystem Bool ℕ 2)
    (fun _ _ (_ : true = true) => trivial)
    [.callInsert false 1, .callInsert true 2, .sender false, .sender false, .sender false,
      .sender true, .sender true, .sender true, .sender true, .sender true,
      .callRemove, .receiver, .receiver, .receiver]
    ⟨_, rfl, rfl⟩ (fun p => (p.1.receiver, p.1.actor.mailbox 0)) rfl
  simp only [Prod.mk.injEq] at he
  exact (h tr s hrun).2.2.1 _ trivial he.1 he.2

end Libseff.ActorExactlyOnce
