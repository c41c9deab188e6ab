import Libseff.TokioQueue

namespace Libseff.TokioSafety

open CircularArrays TransitionRuns TokioSteps TokioInvariant TokioPush TokioQueue

variable {ι α : Type}

/-- A steal that is about to take the element at `head` loaded the array that is
still the current one, or one that was replaced when it held that element. -/
def holdsElement (s : State ι α) : Action ι α → Prop
  | .thief i => ∀ arr head elt, s.thief i = .steal (.cas arr head elt) → s.queue.head = head →
      ∀ tail, s.queue.replaced arr = some tail → head < tail
  | _ => True

theorem lt_bound {q : TkQueue α} {arr : ℕ} {head : ℤ} (hlt : head < q.tail)
    (h : ∀ tail, q.replaced arr = some tail → head < tail) : head < bound q arr := by
  cases hr : q.replaced arr with
  | none => simpa [bound, hr] using hlt
  | some t => simpa [bound, hr] using h t hr

theorem inv_init (log_size : ℕ) (junk : ℤ → QueueElt α) :
    Inv [] (⟨tkQueueInit log_size junk, .idle, fun _ => .idle⟩ : State ι α) := by
  have hwf := circularArrayNew_wellFormed log_size junk
  have hqueue : QueueInv [] (tkQueueInit log_size junk) := by
    refine ⟨fun _ => hwf, ?_, rfl, fun p t ht => (nomatch ht), le_rfl, le_rfl, rfl, hwf.size_pos.le,
      ?_⟩
    · intro p hp
      obtain rfl : p = 0 := hp.resolve_right (fun h => h rfl)
      exact Nat.zero_lt_one
    · intro p _ i h1 h2
      exact absurd h1 (not_le.mpr h2)
  exact ⟨hqueue, trivial, fun _ => trivial, List.Perm.refl _⟩

variable [DecidableEq ι]

theorem thief_local {tr : List (Event ι α)} {s : State ι α} (h : Inv tr s) {i : ι} {t : Thief α}
    (ht : ThiefInv (appended tr) s.queue t) {r : Option (QueueElt α)}
    (hr : occupied r.toList = []) :
    Inv (tr ++ [⟨some i, none, none, r⟩]) { s with thief := Function.update s.thief i t } := by
  refine inv_next h _ ?_ ?_ ?_ ?_ <;> simp only [Option.toList_none, List.append_nil]
  · exact h.queue
  · exact h.owner
  · intro j
    by_cases hj : j = i
    · subst hj
      simpa using ht
    · simpa [hj] using h.thief j
  · rw [List.nil_append, occupied_append r.toList, hr]
    exact List.Perm.refl _

theorem thief_step {tr : List (Event ι α)} {s : State ι α} (h : Inv tr s) {i : ι}
    (hok : holdsElement s (.thief i)) {q : TkQueue α} {t : Thief α} {e : Event ι α}
    (hs : thiefStep i s.queue (s.thief i) = some (q, t, e)) :
    Inv (tr ++ [e]) { s with queue := q, thief := Function.update s.thief i t } := by
  have hi := h.thief i
  cases hpc : s.thief i with
  | idle => simp [thiefStep, hpc] at hs
  | steal pc =>
    simp only [thiefStep, hpc, tkQueueSteal] at hs
    rw [hpc] at hi
    rcases hq : takeLoop s.queue pc with ⟨q', pc' | r⟩
    · cases hq ▸ hs
      obtain ⟨rfl, hi', -⟩ := take_step h.queue hi hq
      exact thief_local h (t := .steal pc') hi' rfl
    · cases hq ▸ hs
      obtain ⟨rfl, rfl⟩ | ⟨arr, rfl, rfl⟩ := take_done hq
      · exact thief_local h (t := .idle) trivial rfl
      · obtain ⟨-, -, hlt, hget⟩ := hi
        refine inv_take h (hget rfl (lt_bound hlt (hok _ _ _ hpc rfl))) hlt rfl rfl
          (ownerInv_next h.owner) (fun j => ?_)
        by_cases hj : j = i
        · subst hj
          simp [ThiefInv]
        · simpa [hj] using thiefInv_next (h.thief j)

theorem inv_step {tr : List (Event ι α)} {s s' : State ι α} (h : Inv tr s) {a : Action ι α}
    (hok : holdsElement s a) {e : Event ι α} (hs : step s a = some (s', e)) :
    Inv (tr ++ [e]) s' := by
  cases a with
  | callPush elt | callPriorityPush elt =>
    simp only [step] at hs
    split at hs
    · rename_i ho
      cases hs
      refine inv_next h _ ?_ ?_ ?_ ?_ <;> simp only [Option.toList_none, List.append_nil]
      · exact h.queue
      · trivial
      · exact h.thief
      · simp only [waiting, ho, held]
        exact List.Perm.refl _
    · cases hs
  | callPop =>
    simp only [step] at hs
    split at hs
    · rename_i ho
      cases hs
      exact inv_owner h (silent_refl h.queue) trivial (by rw [ho]; rfl)
    · cases hs
  | owner junk =>
    simp only [step, Option.map_eq_some_iff] at hs
    obtain ⟨⟨q, o, e⟩, ho, he⟩ := hs
    cases he
    exact owner_step h ho
  | callSteal i =>
    simp only [step] at hs
    split at hs
    · cases hs
      exact thief_local h (t := .steal .loadArray) trivial rfl
    · cases hs
  | thief i =>
    simp only [step, Option.map_eq_some_iff] at hs
    obtain ⟨⟨q, t, e⟩, ht, he⟩ := hs
    cases he
    exact thief_step h hok ht

theorem run_inv {log_size : ℕ} {tr : List (Event ι α)} {s : State ι α}
    (h : Run ((tkSystem ι α log_size).restrict holdsElement) tr s) : Inv tr s := by
  refine Run.invariant Inv ?_
    (fun tr s a s' e hi (hm : True ∧ holdsElement s a) hs => inv_step hi hm.2 hs) h
  rintro s ⟨junk, rfl⟩
  exact inv_init log_size junk

end Libseff.TokioSafety
