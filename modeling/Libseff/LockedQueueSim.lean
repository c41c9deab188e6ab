import Libseff.LockedQueueSections

namespace Libseff.LockedQueueSim

open CircularArrays TransitionRuns AtomicObjects SlotQueues LockedQueue LockedQueueSections

variable {ι α : Type}

def pushPhase (o : Op α) : Push → Phase (Op α) (Option α)
  | .release => .done none
  | _ => .pending o

def takePhase (o : Op α) : Take α → Phase (Op α) (Option α)
  | .release result => .done result
  | _ => .pending o

/-- An operation takes place at the store that ends its locked section, or at
its access to the buffer. -/
def ownerPhase : Owner α → Phase (Op α) (Option α)
  | .idle => .idle
  | .push elt pc => pushPhase (.push elt) pc
  | .loadBuffer elt | .storeBuffer elt _ => .pending (.priorityPush elt)
  | .pushOld elt _ pc => pushPhase (.priorityPush elt) pc
  | .testBuffer | .takeBuffer | .clearBuffer _ => .pending .pop
  | .pop pc => takePhase .pop pc

def thiefPhase : Thief α → Phase (Op α) (Option α)
  | .idle => .idle
  | .steal pc => takePhase .steal pc

/-- A displaced element stays in the slot of the object until it is appended. -/
def ownerSlot (buffer : Option α) : Owner α → Option α
  | .pushOld _ _ .release => buffer
  | .pushOld _ old_buffer _ => some old_buffer
  | _ => buffer

def ownerArray (q : TlQueue α) : Owner α → ℕ
  | .push _ pc | .pushOld _ _ pc => pushArray q pc
  | _ => q.array

def OwnerInv (items : List α) (q : TlQueue α) : Owner α → Prop
  | .push elt pc => PushInv items elt q pc
  | .storeBuffer _ old_buffer => old_buffer = q.buffer
  | .pushOld elt old_buffer pc => q.buffer = some elt ∧ PushInv items old_buffer q pc
  | .takeBuffer => q.buffer.isSome
  | .clearBuffer buffer => buffer = q.buffer ∧ buffer.isSome
  | .pop pc => q.buffer = none ∧ TakeInv items q pc
  | _ => True

def ThiefInv (items : List α) (q : TlQueue α) : Thief α → Prop
  | .idle => True
  | .steal pc => TakeInv items q pc

def insideOwner : Owner α → Bool
  | .push _ pc | .pushOld _ _ pc => insidePush pc
  | .pop pc => insideTake pc
  | _ => false

def insideThief : Thief α → Bool
  | .idle => false
  | .steal pc => insideTake pc

structure Sim (s : State ι α) (a : SlotQueue α) (p : Option ι → Phase (Op α) (Option α)) :
    Prop where
  holds : Holds a.items s.queue (ownerArray s.queue s.owner)
  slot : a.slot = ownerSlot s.queue.buffer s.owner
  owner : OwnerInv a.items s.queue s.owner
  thief : ∀ i, ThiefInv a.items s.queue (s.thief i)
  phase_owner : p none = ownerPhase s.owner
  phase_thief : ∀ i, p (some i) = thiefPhase (s.thief i)
  owner_locked : insideOwner s.owner = true →
    s.queue.locked = true ∧ ∀ i, insideThief (s.thief i) = false
  thief_locked : ∀ i, insideThief (s.thief i) = true →
    s.queue.locked = true ∧ ∀ j, insideThief (s.thief j) = true → j = i

theorem takeInv_outside {items : List α} {q : TlQueue α} {pc : Take α}
    (h : insideTake pc = false) : TakeInv items q pc := by
  cases pc with
  | acquire => trivial
  | _ => cases h

theorem thiefInv_outside {items : List α} {q : TlQueue α} {t : Thief α}
    (h : insideThief t = false) : ThiefInv items q t := by
  cases t with
  | idle => trivial
  | steal pc => exact takeInv_outside h

theorem pushInv_outside {items : List α} {elt : α} {q : TlQueue α} {pc : Push}
    (h : insidePush pc = false) : PushInv items elt q pc := by
  cases pc with
  | acquire => trivial
  | _ => cases h

theorem takeInv_locked {items : List α} {q : TlQueue α} {pc : Take α} (h : TakeInv items q pc)
    (b : Bool) (buffer : Option α) :
    TakeInv items { q with locked := b, buffer := buffer } pc := by
  cases pc <;> exact h

theorem pushInv_locked {items : List α} {elt : α} {q : TlQueue α} {pc : Push}
    (h : PushInv items elt q pc) (b : Bool) :
    PushInv items elt { q with locked := b } pc := by
  cases pc <;> exact h

theorem thiefInv_locked {items : List α} {q : TlQueue α} {t : Thief α} (h : ThiefInv items q t)
    (b : Bool) (buffer : Option α) :
    ThiefInv items { q with locked := b, buffer := buffer } t := by
  cases t with
  | idle => trivial
  | steal pc => exact takeInv_locked h b buffer

theorem ownerInv_locked {items : List α} {q : TlQueue α} {o : Owner α} (h : OwnerInv items q o)
    (b : Bool) : OwnerInv items { q with locked := b } o := by
  cases o with
  | push elt pc => exact pushInv_locked h b
  | pushOld elt old_buffer pc => exact ⟨h.1, pushInv_locked h.2 b⟩
  | pop pc => exact ⟨h.1, takeInv_locked h.2 b q.buffer⟩
  | _ => exact h

theorem ownerInv_outside {items items' : List α} {q q' : TlQueue α} {o : Owner α}
    (h : OwnerInv items q o) (ho : insideOwner o = false) (hb : q'.buffer = q.buffer) :
    OwnerInv items' q' o := by
  cases o with
  | push elt pc => exact pushInv_outside ho
  | pushOld elt old_buffer pc => exact ⟨hb.trans h.1, pushInv_outside ho⟩
  | pop pc => exact ⟨hb.trans h.1, takeInv_outside ho⟩
  | storeBuffer elt old_buffer => exact h.trans hb.symm
  | takeBuffer =>
    rw [OwnerInv, hb]
    exact h
  | clearBuffer buffer => exact ⟨h.1.trans hb.symm, h.2⟩
  | _ => trivial

theorem ownerArray_outside {q : TlQueue α} {o : Owner α} (ho : insideOwner o = false) :
    ownerArray q o = q.array := by
  cases o with
  | push elt pc | pushOld elt old_buffer pc =>
    cases pc with
    | acquire => rfl
    | _ => cases ho
  | _ => rfl

variable [DecidableEq ι]

theorem sim_owner {s : State ι α} {a a' : SlotQueue α} {p : Option ι → Phase (Op α) (Option α)}
    (h : Sim s a p) {q : TlQueue α} {o : Owner α} (hq : Holds a'.items q (ownerArray q o))
    (hslot : a'.slot = ownerSlot q.buffer o) (ho : OwnerInv a'.items q o)
    (ht : ∀ i, ThiefInv a'.items q (s.thief i))
    (hlock : insideOwner o = true → q.locked = true ∧ ∀ i, insideThief (s.thief i) = false)
    (hlock' : ∀ i, insideThief (s.thief i) = true → q.locked = true) :
    Sim { s with queue := q, owner := o } a' (Function.update p none (ownerPhase o)) where
  holds := hq
  slot := hslot
  owner := ho
  thief := ht
  phase_owner := Function.update_self ..
  phase_thief := fun i =>
    (Function.update_of_ne (Option.some_ne_none i) _ _).trans (h.phase_thief i)
  owner_locked := hlock
  thief_locked := fun i hi => ⟨hlock' i hi, (h.thief_locked i hi).2⟩

theorem update_phase {p : Option ι → Phase (Op α) (Option α)} {i : Option ι}
    {x : Phase (Op α) (Option α)} (h : p i = x) : Function.update p i x = p := by
  rw [← h, Function.update_eq_self]

end Libseff.LockedQueueSim
