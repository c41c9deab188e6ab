import Libseff.TokioSteps
import Mathlib.Data.List.Perm.Basic

namespace Libseff.TokioInvariant

open CircularArrays TransitionRuns TokioSteps

variable {ι α : Type}

def current (q : TkQueue α) : CircularArray (QueueElt α) := q.arrays q.array

def bound (q : TkQueue α) (p : ℕ) : ℤ := (q.replaced p).getD q.tail

def Published (q : TkQueue α) (p : ℕ) : Prop := p = q.array ∨ q.replaced p ≠ none

/-- `log` is the list of all appended elements: the live ones are in the current
array, and a replaced array keeps those it held when it was replaced. -/
structure QueueInv (log : List (QueueElt α)) (q : TkQueue α) : Prop where
  wf : ∀ p, WellFormed (q.arrays p)
  allocated : ∀ p, Published q p → p < q.allocated
  not_replaced : q.replaced q.array = none
  replaced_le : ∀ p t, q.replaced p = some t → t ≤ q.tail
  head_nonneg : 0 ≤ q.head
  head_le : q.head ≤ q.tail
  tail_eq : q.tail = log.length
  fits : q.tail - q.head ≤ (current q).size
  holds : ∀ p, Published q p → ∀ i, q.head ≤ i → i < bound q p →
    log[i.toNat]? = some (caGet (q.arrays p) i)

structure Copying (q : TkQueue α) (new : ℕ) (head tail i : ℤ) : Prop where
  tail_eq : tail = q.tail
  head_le : head ≤ q.head
  fits : tail - head < (q.arrays new).size
  fresh : ¬ Published q new
  allocated : new < q.allocated
  le : head ≤ i
  copied : ∀ j, head ≤ j → j < i → caGet (q.arrays new) j = caGet (current q) j

def PushInv (elt : QueueElt α) (q : TkQueue α) : Push α → Prop
  | .loadArray => True
  | .loadHead arr => arr = q.array
  | .loadTail arr head => arr = q.array ∧ head ≤ q.head ∧ q.tail - head ≤ (current q).size
  | .copyGet arr new head tail i => arr = q.array ∧ i < tail ∧ Copying q new head tail i
  | .copySet arr new head tail i v =>
    arr = q.array ∧ v = caGet (current q) i ∧ i < tail ∧ Copying q new head tail i
  | .storeArray new head tail => Copying q new head tail tail
  | .set arr head tail =>
    arr = q.array ∧ tail = q.tail ∧ head ≤ q.head ∧ tail - head < (current q).size
  | .storeTail head tail =>
    caGet (current q) tail = elt ∧ tail = q.tail ∧ head ≤ q.head ∧
      tail - head < (current q).size

def TakeInv (log : List (QueueElt α)) (q : TkQueue α) : Take α → Prop
  | .loadArray => True
  | .loadHead arr => Published q arr
  | .loadTail arr head => Published q arr ∧ head ≤ q.head
  | .get arr head => Published q arr ∧ head ≤ q.head ∧ head < q.tail
  | .cas arr head elt => Published q arr ∧ head ≤ q.head ∧ head < q.tail ∧
      (head = q.head → head < bound q arr → log[head.toNat]? = some elt)

def takeArray : Take α → Option ℕ
  | .loadArray => none
  | .loadHead arr | .loadTail arr _ | .get arr _ | .cas arr _ _ => some arr

/-- The owner is the only one to replace the array, so its own loops have the
current one. -/
def OwnerInv (log : List (QueueElt α)) (q : TkQueue α) : Owner α → Prop
  | .push elt pc => PushInv elt q pc
  | .popLoop pc => TakeInv log q pc ∧ ∀ arr, takeArray pc = some arr → arr = q.array
  | _ => True

def ThiefInv (log : List (QueueElt α)) (q : TkQueue α) : Thief α → Prop
  | .idle => True
  | .steal pc => TakeInv log q pc

def held : Owner α → List (QueueElt α)
  | .push elt _ | .priorityPush elt => [elt]
  | _ => []

def occupied (l : List (QueueElt α)) : List (QueueElt α) := l.filter isElt

def waiting (log : List (QueueElt α)) (s : State ι α) : List (QueueElt α) :=
  held s.owner ++ s.queue.buffer :: log.drop s.queue.head.toNat

structure Inv (tr : List (Event ι α)) (s : State ι α) : Prop where
  queue : QueueInv (appended tr) s.queue
  owner : OwnerInv (appended tr) s.queue s.owner
  thief : ∀ i, ThiefInv (appended tr) s.queue (s.thief i)
  account : (occupied (pushed tr)).Perm (returned tr ++ occupied (waiting (appended tr) s))

theorem pushed_append (tr : List (Event ι α)) (e : Event ι α) :
    pushed (tr ++ [e]) = pushed tr ++ e.called.toList := by
  cases h : e.called <;> simp [pushed, h]

theorem appended_append (tr : List (Event ι α)) (e : Event ι α) :
    appended (tr ++ [e]) = appended tr ++ e.appended.toList := by
  cases h : e.appended <;> simp [appended, h]

theorem returned_append (tr : List (Event ι α)) (e : Event ι α) :
    returned (tr ++ [e]) = returned tr ++ occupied e.result.toList := by
  cases h : e.result <;> simp [returned, occupied, h]

theorem occupied_append (l l' : List (QueueElt α)) :
    occupied (l ++ l') = occupied l ++ occupied l' :=
  List.filter_append ..

theorem occupied_empty (l : List (QueueElt α)) : occupied (.EMPTY :: l) = occupied l := rfl

theorem bound_current {log : List (QueueElt α)} {q : TkQueue α} (h : QueueInv log q) :
    bound q q.array = q.tail := by
  rw [bound, h.not_replaced]
  rfl

theorem getElem?_of_prefix {l l' : List (QueueElt α)} (h : l <+: l') {i : ℕ} {x : QueueElt α}
    (hx : l[i]? = some x) : l'[i]? = some x := by
  obtain ⟨rest, rfl⟩ := h
  obtain ⟨hi, -⟩ := List.getElem?_eq_some_iff.mp hx
  rwa [List.getElem?_append_left hi]

theorem takeInv_mono {log log' : List (QueueElt α)} {q q' : TkQueue α} {pc : Take α}
    (h : TakeInv log q pc) (harr : ∀ p, Published q p → Published q' p) (hhead : q'.head = q.head)
    (htail : q.tail ≤ q'.tail)
    (hb : ∀ p, Published q p → ∀ i, i < q.tail → i < bound q' p → i < bound q p)
    (hlog : log <+: log') : TakeInv log' q' pc := by
  cases pc with
  | loadArray => trivial
  | loadHead arr => exact harr arr h
  | loadTail arr head => exact ⟨harr arr h.1, hhead ▸ h.2⟩
  | get arr head => exact ⟨harr arr h.1, hhead ▸ h.2.1, h.2.2.trans_le htail⟩
  | cas arr head elt =>
    obtain ⟨h1, h2, h3, h4⟩ := h
    refine ⟨harr arr h1, hhead ▸ h2, h3.trans_le htail, fun he hlt => ?_⟩
    exact getElem?_of_prefix hlog (h4 (he.trans hhead) (hb arr h1 head h3 hlt))

theorem takeInv_next {log : List (QueueElt α)} {q : TkQueue α} {pc : Take α}
    (h : TakeInv log q pc) : TakeInv log { q with head := q.head + 1 } pc := by
  cases pc with
  | loadArray => trivial
  | loadHead arr => exact h
  | loadTail arr head => exact ⟨h.1, h.2.trans (by simp)⟩
  | get arr head => exact ⟨h.1, h.2.1.trans (by simp), h.2.2⟩
  | cas arr head elt =>
    obtain ⟨h1, h2, h3, -⟩ := h
    refine ⟨h1, h2.trans (by simp), h3, fun he => ?_⟩
    simp only at he
    omega

end Libseff.TokioInvariant
