import Libseff.LockedQueueMoves

namespace Libseff.LockedQueueProgress

open CircularArrays TransitionRuns AtomicObjects SlotQueues LockedQueue LockedQueueSections
  LockedQueueSim LockedQueueMoves

variable {ι α : Type}

def pushSteps : Push → ℕ
  | .acquire => 8
  | .load => 7
  | .resize .. => 6
  | .free .. => 5
  | .storeArray .. => 4
  | .set .. => 3
  | .storeTail _ => 2
  | .release => 1

def takeSteps : Take α → ℕ
  | .acquire => 5
  | .load => 4
  | .get .. => 3
  | .storeHead .. => 2
  | .release _ => 1

def ownerSteps : Owner α → ℕ
  | .idle => 11
  | .loadBuffer _ => 10
  | .storeBuffer .. => 9
  | .push _ pc | .pushOld _ _ pc => pushSteps pc
  | .testBuffer => 6
  | .takeBuffer => 2
  | .clearBuffer _ => 1
  | .pop pc => takeSteps pc

def thiefSteps : Thief α → ℕ
  | .idle => 11
  | .steal pc => takeSteps pc

def ownSteps (q : State ι α) : Option ι → ℕ
  | none => ownerSteps q.owner
  | some i => thiefSteps (q.thief i)

def ownerAtLock : Owner α → Bool
  | .push _ pc | .pushOld _ _ pc => !insidePush pc
  | .pop pc => !insideTake pc
  | _ => false

def thiefAtLock : Thief α → Bool
  | .idle => false
  | .steal pc => !insideTake pc

def waitsAt (q : State ι α) : Option ι → Bool
  | none => q.queue.locked && ownerAtLock q.owner
  | some i => q.queue.locked && thiefAtLock (q.thief i)

def Progress {pc ρ : Type} (steps : pc → ℕ) (inside : pc → Bool) (q q' : TlQueue α) (p : pc) :
    Outcome pc ρ → Prop
  | .run p' => steps p' < steps p ∧ inside p' = true ∨
      p' = p ∧ inside p = false ∧ q.locked = true ∧ q' = q
  | .done _ => q'.locked = false

theorem push_progress {new_array : ℕ} {junk : ℤ → Option α} {elt : Option α} {q q' : TlQueue α}
    {pc : Push} {o : Outcome Push Unit}
    (h : tlQueuePush new_array junk elt q pc = some (q', o)) :
    Progress pushSteps insidePush q q' pc o := by
  cases pc with
  | acquire =>
    simp only [tlQueuePush] at h
    split at h
    · rename_i hlocked
      cases h
      exact .inr ⟨rfl, rfl, hlocked, rfl⟩
    · cases h
      exact .inl ⟨Nat.lt_succ_self 7, rfl⟩
  | load =>
    obtain ⟨arr, -, h⟩ := Option.bind_eq_some_iff.mp h
    split at h
    · cases h
      exact .inl ⟨Nat.lt_succ_self 6, rfl⟩
    · cases h
      exact .inl ⟨show 3 < 7 by decide, rfl⟩
  | resize arr head tail | set arr head tail | free new_array head tail =>
    obtain ⟨arr, -, h⟩ := Option.bind_eq_some_iff.mp h
    cases h
    exact .inl ⟨Nat.lt_succ_self _, rfl⟩
  | storeArray new_array head tail | storeTail tail =>
    cases h
    exact .inl ⟨Nat.lt_succ_self _, rfl⟩
  | release =>
    cases h
    exact rfl

theorem take_progress {q q' : TlQueue α} {pc : Take α} {o : Outcome (Take α) (Option α)}
    (h : takeLocked q pc = some (q', o)) : Progress takeSteps insideTake q q' pc o := by
  cases pc with
  | acquire =>
    simp only [takeLocked] at h
    split at h
    · rename_i hlocked
      cases h
      exact .inr ⟨rfl, rfl, hlocked, rfl⟩
    · cases h
      exact .inl ⟨Nat.lt_succ_self 4, rfl⟩
  | load =>
    simp only [takeLocked] at h
    split at h
    · cases h
      exact .inl ⟨show 1 < 4 by decide, rfl⟩
    · cases h
      exact .inl ⟨Nat.lt_succ_self 3, rfl⟩
  | get arr head =>
    obtain ⟨a, -, h⟩ := Option.bind_eq_some_iff.mp h
    cases h
    exact .inl ⟨Nat.lt_succ_self 2, rfl⟩
  | storeHead head elt =>
    cases h
    exact .inl ⟨Nat.lt_succ_self 1, rfl⟩
  | release result =>
    cases h
    exact rfl

/-- A step of a call: it returns, comes nearer to its return, or finds the lock
taken; and where the lock is taken behind the step, the thread has it, or another
thread had it before. -/
theorem ownerStep_progress {new_array : ℕ} {junk : ℤ → Option α} {q q' : TlQueue α}
    {o o' : Owner α} {e : Event ι α} (hs : ownerStep ι new_array junk q o = some (q', o', e)) :
    ((∃ r, e = some (.ret none r)) ∨ e = none ∧ (ownerSteps o' < ownerSteps o ∨
      o' = o ∧ q.locked = true ∧ ownerAtLock o = true)) ∧
    (q'.locked = true → insideOwner o' = true ∨ insideOwner o = false ∧ q.locked = true) := by
  cases o with
  | idle => cases hs
  | push elt pc | pushOld elt old_buffer pc =>
    obtain ⟨⟨q1, out⟩, hq, hs⟩ := Option.bind_eq_some_iff.mp hs
    have hprogress := push_progress hq
    cases out with
    | run pc' =>
      cases hs
      obtain ⟨hlt, hin⟩ | ⟨rfl, hout, hlocked, rfl⟩ := hprogress
      · exact ⟨.inr ⟨rfl, .inl hlt⟩, fun _ => .inl hin⟩
      · exact ⟨.inr ⟨rfl, .inr ⟨rfl, hlocked, by simp only [ownerAtLock, hout, Bool.not_false]⟩⟩,
          fun hl => .inr ⟨hout, hl⟩⟩
    | done r =>
      cases hs
      exact ⟨.inl ⟨_, rfl⟩, fun hl => absurd (hprogress.symm.trans hl) Bool.false_ne_true⟩
  | pop pc =>
    obtain ⟨⟨q1, out⟩, hq, hs⟩ := Option.bind_eq_some_iff.mp hs
    have hprogress := take_progress hq
    cases out with
    | run pc' =>
      cases hs
      obtain ⟨hlt, hin⟩ | ⟨rfl, hout, hlocked, rfl⟩ := hprogress
      · exact ⟨.inr ⟨rfl, .inl hlt⟩, fun _ => .inl hin⟩
      · exact ⟨.inr ⟨rfl, .inr ⟨rfl, hlocked, by simp only [ownerAtLock, hout, Bool.not_false]⟩⟩,
          fun hl => .inr ⟨hout, hl⟩⟩
    | done r =>
      cases hs
      exact ⟨.inl ⟨_, rfl⟩, fun hl => absurd (hprogress.symm.trans hl) Bool.false_ne_true⟩
  | loadBuffer elt | takeBuffer =>
    cases hs
    exact ⟨.inr ⟨rfl, .inl (Nat.lt_succ_self _)⟩, fun hl => .inr ⟨rfl, hl⟩⟩
  | storeBuffer elt old_buffer =>
    cases old_buffer with
    | none =>
      cases hs
      exact ⟨.inl ⟨_, rfl⟩, fun hl => .inr ⟨rfl, hl⟩⟩
    | some old_buffer =>
      cases hs
      exact ⟨.inr ⟨rfl, .inl (Nat.lt_succ_self 8)⟩, fun hl => .inr ⟨rfl, hl⟩⟩
  | testBuffer =>
    simp only [ownerStep, Option.some.injEq, Prod.mk.injEq] at hs
    obtain ⟨rfl, rfl, rfl⟩ := hs
    refine ⟨.inr ⟨rfl, .inl ?_⟩, fun hl => .inr ⟨rfl, hl⟩⟩
    split
    · exact show 2 < 6 by decide
    · exact Nat.lt_succ_self 5
  | clearBuffer buffer =>
    cases hs
    exact ⟨.inl ⟨_, rfl⟩, fun hl => .inr ⟨rfl, hl⟩⟩

theorem thiefStep_progress {i : ι} {q q' : TlQueue α} {t t' : Thief α} {e : Event ι α}
    (hs : thiefStep i q t = some (q', t', e)) :
    ((∃ r, e = some (.ret (some i) r)) ∨ e = none ∧ (thiefSteps t' < thiefSteps t ∨
      t' = t ∧ q.locked = true ∧ thiefAtLock t = true)) ∧
    (q'.locked = true → insideThief t' = true ∨ insideThief t = false ∧ q.locked = true) := by
  cases t with
  | idle => cases hs
  | steal pc =>
    obtain ⟨⟨q1, out⟩, hq, hs⟩ := Option.bind_eq_some_iff.mp hs
    have hprogress := take_progress hq
    cases out with
    | run pc' =>
      cases hs
      obtain ⟨hlt, hin⟩ | ⟨rfl, hout, hlocked, rfl⟩ := hprogress
      · exact ⟨.inr ⟨rfl, .inl hlt⟩, fun _ => .inl hin⟩
      · exact ⟨.inr ⟨rfl, .inr ⟨rfl, hlocked, by simp only [thiefAtLock, hout, Bool.not_false]⟩⟩,
          fun hl => .inr ⟨hout, hl⟩⟩
    | done r =>
      cases hs
      exact ⟨.inl ⟨_, rfl⟩, fun hl => absurd (hprogress.symm.trans hl) Bool.false_ne_true⟩

theorem ownSteps_le (q : State ι α) (c : Option ι) : ownSteps q c ≤ 11 := by
  cases c with
  | none =>
    simp only [ownSteps]
    rcases q.owner with _ | ⟨_, pc⟩ | _ | _ | ⟨_, _, pc⟩ | _ | _ | _ | pc
    case push | pushOld => cases pc <;> simp only [ownerSteps, pushSteps] <;> omega
    case pop => cases pc <;> simp only [ownerSteps, takeSteps] <;> omega
    all_goals simp only [ownerSteps]; omega
  | some i =>
    simp only [ownSteps]
    rcases q.thief i with _ | pc
    · exact le_rfl
    · cases pc <;> simp only [thiefSteps, takeSteps] <;> omega

def Held (q : State ι α) : Prop :=
  q.queue.locked = true → insideOwner q.owner = true ∨ ∃ i, insideThief (q.thief i) = true

variable [DecidableEq ι]

variable {s s' : State ι α} {x : Action ι α} {e : Event ι α}

theorem held_step (h : Held s) (hs : step s x = some (s', e)) : Held s' := by
  cases x with
  | callPush elt | callPriorityPush elt | callPop =>
    simp only [step] at hs
    split at hs
    · rename_i ho
      cases hs
      intro hl
      obtain hin | hin := h hl
      · rw [ho] at hin
        cases hin
      · exact .inr hin
    · cases hs
  | owner new_array junk =>
    obtain ⟨⟨q, o, e'⟩, ho, hs⟩ := Option.bind_eq_some_iff.mp hs
    cases hs
    intro hl
    obtain hin | ⟨hout, hlocked⟩ := (ownerStep_progress ho).2 hl
    · exact .inl hin
    · obtain hin | hin := h hlocked
      · rw [hout] at hin
        cases hin
      · exact .inr hin
  | callSteal i =>
    simp only [step] at hs
    split at hs
    · rename_i ht
      cases hs
      intro hl
      obtain hin | ⟨j, hin⟩ := h hl
      · exact .inl hin
      · refine .inr ⟨j, ?_⟩
        by_cases hj : j = i
        · subst hj
          rw [ht] at hin
          cases hin
        · simpa only [Function.update_of_ne hj] using hin
    · cases hs
  | thief i =>
    obtain ⟨⟨q, t, e'⟩, ht, hs⟩ := Option.bind_eq_some_iff.mp hs
    cases hs
    intro hl
    obtain hin | ⟨hout, hlocked⟩ := (thiefStep_progress ht).2 hl
    · exact .inr ⟨i, by simpa only [Function.update_self] using hin⟩
    · obtain hin | ⟨j, hin⟩ := h hlocked
      · exact .inl hin
      · refine .inr ⟨j, ?_⟩
        by_cases hj : j = i
        · subst hj
          rw [hout] at hin
          cases hin
        · simpa only [Function.update_of_ne hj] using hin

theorem ownSteps_others (hs : step s x = some (s', e)) {c : Option ι} (hc : c ≠ threadOf x) :
    ownSteps s' c = ownSteps s c := by
  cases x with
  | callPush elt | callPriorityPush elt | callPop =>
    simp only [step] at hs
    split at hs
    · cases hs
      cases c with
      | none => exact absurd rfl hc
      | some j => rfl
    · cases hs
  | owner new_array junk =>
    obtain ⟨⟨q, o, e'⟩, -, hs⟩ := Option.bind_eq_some_iff.mp hs
    cases hs
    cases c with
    | none => exact absurd rfl hc
    | some j => rfl
  | callSteal i =>
    simp only [step] at hs
    split at hs
    · cases hs
      cases c with
      | none => rfl
      | some j =>
        have hj : j ≠ i := fun he => hc (congrArg some he)
        simp only [ownSteps, Function.update_of_ne hj]
    · cases hs
  | thief i =>
    obtain ⟨⟨q, t, e'⟩, -, hs⟩ := Option.bind_eq_some_iff.mp hs
    cases hs
    cases c with
    | none => rfl
    | some j =>
      have hj : j ≠ i := fun he => hc (congrArg some he)
      simp only [ownSteps, Function.update_of_ne hj]

theorem step_progress (hs : step s x = some (s', e)) :
    (∃ r, e = some (.ret (threadOf x) r)) ∨ (∀ c r, e ≠ some (.ret c r)) ∧
      (ownSteps s' (threadOf x) < ownSteps s (threadOf x) ∨
        waitsAt s (threadOf x) = true ∧ ownSteps s' (threadOf x) = ownSteps s (threadOf x)) := by
  cases x with
  | callPush elt | callPriorityPush elt | callPop =>
    simp only [step] at hs
    split at hs
    · rename_i ho
      cases hs
      refine .inr ⟨fun _ _ h => (by cases h), .inl ?_⟩
      simp only [threadOf, ownSteps, ho, ownerSteps, pushSteps]
      decide
    · cases hs
  | owner new_array junk =>
    obtain ⟨⟨q, o, e'⟩, ho, hs⟩ := Option.bind_eq_some_iff.mp hs
    cases hs
    obtain hret | ⟨rfl, hlt | ⟨rfl, hlocked, hat⟩⟩ := (ownerStep_progress ho).1
    · exact .inl hret
    · exact .inr ⟨fun _ _ h => (by cases h), .inl hlt⟩
    · refine .inr ⟨fun _ _ h => (by cases h), .inr ⟨?_, rfl⟩⟩
      simp only [threadOf, waitsAt, hlocked, hat, Bool.and_self]
  | callSteal i =>
    simp only [step] at hs
    split at hs
    · rename_i ht
      cases hs
      refine .inr ⟨fun _ _ h => (by cases h), .inl ?_⟩
      simp only [threadOf, ownSteps, ht, Function.update_self, thiefSteps, takeSteps]
      decide
    · cases hs
  | thief i =>
    obtain ⟨⟨q, t, e'⟩, ht, hs⟩ := Option.bind_eq_some_iff.mp hs
    cases hs
    obtain hret | ⟨rfl, hlt | ⟨rfl, hlocked, hat⟩⟩ := (thiefStep_progress ht).1
    · exact .inl hret
    · refine .inr ⟨fun _ _ h => (by cases h), .inl ?_⟩
      simpa only [threadOf, ownSteps, Function.update_self] using hlt
    · refine .inr ⟨fun _ _ h => (by cases h), .inr ⟨?_, ?_⟩⟩
      · simp only [threadOf, waitsAt, hlocked, hat, Bool.and_self]
      · simp only [threadOf, ownSteps, Function.update_self]

end Libseff.LockedQueueProgress
