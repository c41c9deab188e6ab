import Libseff.AtomicObjects

namespace Libseff.SlotQueues

open AtomicObjects

variable {α : Type*}

/-- A priority slot, which only the owner sees, in front of a queue. -/
structure SlotQueue (α : Type*) where
  slot : Option α
  items : List α

inductive Op (α : Type*) where
  | push (elt : α)
  | priorityPush (elt : α)
  | pop
  | steal

def push (elt : α) (q : SlotQueue α) : SlotQueue α := { q with items := q.items ++ [elt] }

def priorityPush (elt : α) (q : SlotQueue α) : SlotQueue α :=
  ⟨some elt, q.items ++ q.slot.toList⟩

def steal (q : SlotQueue α) : SlotQueue α × Option α :=
  ({ q with items := q.items.tail }, q.items.head?)

def pop (q : SlotQueue α) : SlotQueue α × Option α :=
  match q.slot with
  | some elt => ({ q with slot := none }, some elt)
  | none => steal q

theorem pop_of_none {q : SlotQueue α} (h : q.slot = none) : pop q = steal q := by
  rw [pop, h]

theorem pop_of_some {q : SlotQueue α} {elt : α} (h : q.slot = some elt) :
    pop q = ({ q with slot := none }, some elt) := by
  rw [pop, h]

/-- Only `pop` and `steal` have a result; it is none when their source is empty. -/
def slotQueue (α : Type*) : AtomicObject (SlotQueue α) (Op α) (Option α) where
  init := ⟨none, []⟩
  apply
    | .push elt, q => (push elt q, none)
    | .priorityPush elt, q => (priorityPush elt q, none)
    | .pop, q => pop q
    | .steal, q => steal q

end Libseff.SlotQueues
