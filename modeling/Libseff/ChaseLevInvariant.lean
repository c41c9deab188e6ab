import Libseff.ChaseLevSteps
import Mathlib.Data.List.Perm.Basic

namespace Libseff.ChaseLevInvariant

open CircularArrays TransitionRuns ChaseLevSteps

variable {ι α : Type}

/-- Where the elements end: between its store of `bottom` and its return, a pop
has not yet given up the element it may still lose. -/
def logicalBottom (q : ClQueue α) : Owner α → ℤ
  | .pop (.loadTop ..) | .pop (.get ..) | .pop (.cas ..) | .pop (.restore ..) => q.bottom + 1
  | _ => q.bottom

def stealBound (q : ClQueue α) : Owner α → ℤ
  | .pop (.get bottom top _) => if top < bottom then q.bottom else q.bottom + 1
  | .pop (.loadTop ..) | .pop (.cas ..) | .pop (.restore ..) => q.bottom + 1
  | _ => q.bottom

def current (q : ClQueue α) : CircularArray (QueueElt α) := q.arrays q.array

def inHand : Owner α → List (QueueElt α)
  | .pop (.restore _ .EMPTY) => []
  | .pop (.restore _ elt) => [elt]
  | _ => []

structure Copying (q : ClQueue α) (bottom top : ℤ) (new : ℕ) (i : ℤ) : Prop where
  bottom_eq : bottom = q.bottom
  top_le : top ≤ q.top
  fits : bottom - top < (q.arrays new).size
  fresh : q.array < new
  allocated : new < q.allocated
  grown : (current q).size ≤ (q.arrays new).size
  le : top ≤ i
  copied : ∀ j, top ≤ j → j < i → caGet (q.arrays new) j = caGet (current q) j

def PushInv (elt : α) (q : ClQueue α) : Push α → Prop
  | .loadBottom => True
  | .loadTop bottom => bottom = q.bottom
  | .loadArray bottom top =>
    bottom = q.bottom ∧ top ≤ q.top ∧ bottom - top ≤ (current q).size
  | .copyGet bottom top arr new i => arr = q.array ∧ i < bottom ∧ Copying q bottom top new i
  | .copySet bottom top arr new i v =>
    arr = q.array ∧ v = caGet (current q) i ∧ i < bottom ∧ Copying q bottom top new i
  | .storeArray bottom top new => Copying q bottom top new bottom
  | .set bottom top arr =>
    arr = q.array ∧ bottom = q.bottom ∧ top ≤ q.top ∧ bottom - top < (current q).size
  | .storeBottom bottom top =>
    caGet (current q) bottom = .task elt ∧
      bottom = q.bottom ∧ top ≤ q.top ∧ bottom - top < (current q).size

def PopInv (q : ClQueue α) : Pop α → Prop
  | .loadBottom => True
  | .loadArray bottom => bottom = q.bottom - 1
  | .storeBottom bottom arr => bottom = q.bottom - 1 ∧ arr = q.array
  | .loadTop bottom arr => bottom = q.bottom ∧ arr = q.array
  | .get bottom top arr =>
    bottom = q.bottom ∧ arr = q.array ∧ top ≤ bottom ∧ top ≤ q.top ∧ (top < bottom → q.top ≤ bottom)
  | .cas bottom top elt =>
    bottom = q.bottom ∧ top = bottom ∧ top ≤ q.top ∧ (q.top = top → elt = caGet (current q) bottom)
  | .restore bottom _ => bottom = q.bottom ∧ q.top = bottom + 1

def OwnerInv (q : ClQueue α) : Owner α → Prop
  | .idle => True
  | .push elt pc => PushInv elt q pc
  | .pop pc => PopInv q pc

/-- What a thief holds is only good while `top` is still the index it loaded. -/
def StealInv (q : ClQueue α) (bound : ℤ) : Steal α → Prop
  | .loadTop => True
  | .loadBottom top => top ≤ q.top
  | .loadArray top => top ≤ q.top ∧ (top = q.top → top < bound)
  | .get top arr => top ≤ q.top ∧ arr ≤ q.array ∧
      (top = q.top → top < bound ∧ caGet (q.arrays arr) top = caGet (current q) top)
  | .cas top elt => top ≤ q.top ∧ (top = q.top → top < bound ∧ elt = caGet (current q) top)

def ThiefInv (q : ClQueue α) (bound : ℤ) : Thief α → Prop
  | .idle => True
  | .steal pc => StealInv q bound pc

def target : Thief α → Option ℤ
  | .steal (.loadBottom top) | .steal (.loadArray top) | .steal (.get top _)
  | .steal (.cas top _) => some top
  | _ => none

def window (s : State ι α) : List (QueueElt α) :=
  caWindow (current s.queue) s.queue.top (logicalBottom s.queue s.owner)

structure Inv (tr : List (Event ι α)) (s : State ι α) : Prop where
  wf : ∀ p, WellFormed (s.queue.arrays p)
  allocated : s.queue.array < s.queue.allocated
  top_nonneg : 0 ≤ s.queue.top
  top_le : s.queue.top ≤ logicalBottom s.queue s.owner
  fits : logicalBottom s.queue s.owner - s.queue.top ≤ (current s.queue).size
  owner : OwnerInv s.queue s.owner
  thief : ∀ i, ThiefInv s.queue (stealBound s.queue s.owner) (s.thief i)
  perm : (pushed tr).Perm (returned tr ++ inHand s.owner ++ window s)
  order : (window s).Sublist (pushed tr)
  taken : ∀ t, 0 ≤ t → t < s.queue.top → ∃ e ∈ tr, e.took = some t
  took_lt : ∀ e ∈ tr, ∀ t, e.took = some t → t < s.queue.top ∧
    ∀ i, e.thread = some i → ∀ u, target (s.thief i) = some u → t < u
  target_nonneg : ∀ i u, target (s.thief i) = some u → 0 ≤ u

theorem stealBound_le (q : ClQueue α) (o : Owner α) : stealBound q o ≤ logicalBottom q o := by
  obtain _ | ⟨elt, pc⟩ | pc := o
  · exact le_rfl
  · exact le_rfl
  · cases pc <;> simp only [stealBound, logicalBottom] <;> (try split) <;> omega

theorem pushed_append (tr : List (Event ι α)) (e : Event ι α) :
    pushed (tr ++ [e]) = pushed tr ++ pushed [e] := by
  simp [pushed]

theorem returned_append (tr : List (Event ι α)) (e : Event ι α) :
    returned (tr ++ [e]) = returned tr ++ returned [e] := by
  simp [returned]

theorem exists_task_of_mem_pushed {tr : List (Event ι α)} {x : QueueElt α}
    (h : x ∈ pushed tr) : ∃ t, x = .task t := by
  obtain ⟨e, _, he⟩ := List.mem_filterMap.mp h
  split at he
  · exact ⟨_, (Option.some.inj he).symm⟩
  · cases he

theorem Inv.task_of_window {tr : List (Event ι α)} {s : State ι α} (h : Inv tr s)
    {x : QueueElt α} (hx : x ∈ window s) : ∃ t, x = .task t :=
  exists_task_of_mem_pushed (h.order.subset hx)

theorem Inv.append {tr : List (Event ι α)} {s : State ι α} (h : Inv tr s) {e : Event ι α}
    (ht : e.took = none) (hp : pushed [e] = []) (hr : returned [e] = []) :
    Inv (tr ++ [e]) s where
  wf := h.wf
  allocated := h.allocated
  top_nonneg := h.top_nonneg
  top_le := h.top_le
  fits := h.fits
  owner := h.owner
  thief := h.thief
  perm := by simpa only [pushed_append, returned_append, hp, hr, List.append_nil] using h.perm
  order := by simpa only [pushed_append, hp, List.append_nil] using h.order
  taken := by
    intro t h0 hlt
    obtain ⟨e', he', ht'⟩ := h.taken t h0 hlt
    exact ⟨e', List.mem_append_left _ he', ht'⟩
  took_lt := by
    intro e' he' t ht'
    obtain he' | he' := List.mem_append.mp he'
    · exact h.took_lt e' he' t ht'
    · rw [List.mem_singleton.mp he', ht] at ht'
      cases ht'
  target_nonneg := h.target_nonneg

/-- A step of the owner that neither adds nor removes an element. It may write
into arrays that thieves hold, but not over the element at `top`. -/
structure Silent (s s' : State ι α) : Prop where
  thief : s'.thief = s.thief
  top : s'.queue.top = s.queue.top
  array_le : s.queue.array ≤ s'.queue.array
  bottom : logicalBottom s'.queue s'.owner = logicalBottom s.queue s.owner
  hand : inHand s'.owner = inHand s.owner
  bound : s.queue.top < stealBound s.queue s.owner → s.queue.top < stealBound s'.queue s'.owner
  get : ∀ j, s.queue.top ≤ j → j < logicalBottom s.queue s.owner →
    caGet (current s'.queue) j = caGet (current s.queue) j
  stale : ∀ p, p ≤ s.queue.array → s.queue.top < stealBound s.queue s.owner →
    caGet (s'.queue.arrays p) s.queue.top = caGet (s.queue.arrays p) s.queue.top
  grows : (current s.queue).size ≤ (current s'.queue).size
  wf : ∀ p, WellFormed (s'.queue.arrays p)
  allocated : s'.queue.array < s'.queue.allocated
  owner : OwnerInv s'.queue s'.owner

theorem Silent.stealInv {s s' : State ι α} (h : Silent s s') {pc : Steal α}
    (hi : StealInv s.queue (stealBound s.queue s.owner) pc) :
    StealInv s'.queue (stealBound s'.queue s'.owner) pc := by
  have hb := stealBound_le s.queue s.owner
  have ht := h.top
  cases pc with
  | loadTop => trivial
  | loadBottom top => simpa only [StealInv, ht] using hi
  | loadArray top =>
    obtain ⟨h1, h3⟩ := hi
    refine ⟨ht ▸ h1, fun he => ?_⟩
    rw [ht] at he
    subst he
    exact h.bound (h3 rfl)
  | get top arr =>
    obtain ⟨h1, h2, h3⟩ := hi
    refine ⟨ht ▸ h1, h2.trans h.array_le, fun he => ?_⟩
    rw [ht] at he
    subst he
    obtain ⟨h4, h5⟩ := h3 rfl
    exact ⟨h.bound h4, by rw [h.stale arr h2 h4, h.get _ le_rfl (by omega), h5]⟩
  | cas top elt =>
    obtain ⟨h1, h3⟩ := hi
    refine ⟨ht ▸ h1, fun he => ?_⟩
    rw [ht] at he
    subst he
    obtain ⟨h4, h5⟩ := h3 rfl
    exact ⟨h.bound h4, by rw [h5, h.get _ le_rfl (by omega)]⟩

theorem Silent.window {s s' : State ι α} (h : Silent s s') : window s' = window s := by
  simp only [ChaseLevInvariant.window, h.top, h.bottom]
  exact caWindow_congr h.get

theorem Inv.silent {tr : List (Event ι α)} {s s' : State ι α} (hi : Inv tr s)
    (h : Silent s s') : Inv tr s' where
  wf := h.wf
  allocated := h.allocated
  top_nonneg := by rw [h.top]; exact hi.top_nonneg
  top_le := by rw [h.top, h.bottom]; exact hi.top_le
  fits := by rw [h.top, h.bottom]; exact hi.fits.trans h.grows
  owner := h.owner
  thief := by
    intro i
    rw [h.thief]
    have ht := hi.thief i
    revert ht
    cases s.thief i with
    | idle => exact id
    | steal pc => exact h.stealInv
  perm := by rw [h.window, h.hand]; exact hi.perm
  order := by rw [h.window]; exact hi.order
  taken := by rw [h.top]; exact hi.taken
  took_lt := by rw [h.top, h.thief]; exact hi.took_lt
  target_nonneg := by rw [h.thief]; exact hi.target_nonneg

end Libseff.ChaseLevInvariant
