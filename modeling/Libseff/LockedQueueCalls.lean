import Libseff.CompleteCalls
import Libseff.LockedQueueSections

namespace Libseff.LockedQueueCalls

open CircularArrays TransitionRuns AtomicObjects SlotQueues CompleteCalls LockedQueue
  LockedQueueSections

variable {α : Type}

structure Malloc (α : Type) where
  block : (ℕ → Option (CircularArray (Option α))) → ℕ
  free : ∀ (arrays : ℕ → Option (CircularArray (Option α))) (p : ℕ), arrays p = none →
    arrays (block arrays) = none

instance : Nonempty (Malloc α) := by
  classical
  refine ⟨⟨fun arrays => if h : ∃ p, arrays p = none then h.choose else 0, ?_⟩⟩
  intro arrays p hp
  have h : ∃ p, arrays p = none := ⟨p, hp⟩
  simp only [dif_pos h]
  exact h.choose_spec

def tlContents (q : TlQueue α) : Option α × List (Option α) :=
  (q.buffer, match q.arrays q.array with
    | some arr => caWindow arr q.head q.tail
    | none => [])

def ownerAlone (malloc : Malloc α) (junk : ℤ → Option α) (q : TlQueue α) (o : Owner α) :
    Option (TlQueue α × Outcome (Owner α) (Option α)) :=
  (ownerStep Unit (malloc.block q.arrays) junk q o).map fun (q', o', e) =>
    (q', match e with
      | some (.ret _ r) => .done r
      | _ => .run o')

def thiefAlone (q : TlQueue α) (t : Thief α) : Option (TlQueue α × Outcome (Thief α) (Option α)) :=
  (thiefStep () q t).map fun (q', t', e) =>
    (q', match e with
      | some (.ret _ r) => .done r
      | _ => .run t')

def tlCall (c : Op α × Malloc α × (ℤ → Option α)) (q q' : TlQueue α) (r : Option α) : Prop :=
  match c.1 with
  | .push elt => Returns (ownerAlone c.2.1 c.2.2) q (.push elt .acquire) q' r
  | .priorityPush elt => Returns (ownerAlone c.2.1 c.2.2) q (.loadBuffer elt) q' r
  | .pop => Returns (ownerAlone c.2.1 c.2.2) q .testBuffer q' r
  | .steal => Returns thiefAlone q (.steal .acquire) q' r

structure Rel (locked : Bool) (q : TlQueue α) (a : SlotQueue α) : Prop where
  locked : q.locked = locked
  holds : Holds a.items q q.array
  slot : q.buffer = a.slot
  only : ∀ p, p ≠ q.array → q.arrays p = none

theorem tlCall_unique (c : Op α × Malloc α × (ℤ → Option α)) (q q1 q2 : TlQueue α)
    (r1 r2 : Option α) (h1 : tlCall c q q1 r1) (h2 : tlCall c q q2 r2) : q1 = q2 ∧ r1 = r2 := by
  obtain ⟨o, malloc, junk⟩ := c
  cases o with
  | push elt | priorityPush elt | pop | steal => exact Returns.unique h1 h2

theorem rel_contents {locked : Bool} {q : TlQueue α} {a : SlotQueue α} (h : Rel locked q a) :
    tlContents q = (a.slot, a.items.map some) := by
  obtain ⟨-, arr, harr, -, -, hw⟩ := h.holds
  simp only [tlContents, harr, hw, h.slot]

theorem rel_locked {locked : Bool} {q : TlQueue α} {a : SlotQueue α} (h : Rel locked q a)
    (b : Bool) : Rel b { q with locked := b } a :=
  ⟨rfl, h.holds, h.slot, h.only⟩

theorem rel_buffer {locked : Bool} {q : TlQueue α} {a : SlotQueue α} (h : Rel locked q a)
    (slot : Option α) : Rel locked { q with buffer := slot } { a with slot := slot } :=
  ⟨h.locked, h.holds, rfl, h.only⟩

theorem rel_append {locked : Bool} {q : TlQueue α} {a : SlotQueue α} (h : Rel locked q a)
    {arr : CircularArray (Option α)} (harr : q.arrays q.array = some arr)
    (hroom : q.tail - q.head < arr.size) (elt : α) :
    Rel locked { q with
      arrays := Function.update q.arrays q.array (some (caSet arr q.tail (some elt)))
      tail := q.tail + 1 } (push elt a) := by
  obtain ⟨hle, arr', harr', hwf, hfit, hw⟩ := h.holds
  obtain rfl := Option.some.inj (harr.symm.trans harr')
  refine ⟨h.locked, ⟨by simp only; omega, _, Function.update_self .., caSet_wellFormed hwf _ _,
    by simp only [caSet_size]; omega, ?_⟩, h.slot, ?_⟩
  · simp only [caWindow_caSet hwf hle hroom, hw, push, List.map_append, List.map_cons,
      List.map_nil]
  · intro p hp
    exact (Function.update_of_ne hp _ _).trans (h.only p hp)

theorem rel_grow {locked : Bool} {q : TlQueue α} {a : SlotQueue α} (h : Rel locked q a)
    {old : CircularArray (Option α)} (hold : q.arrays q.array = some old) {new : ℕ}
    (hne : new ≠ q.array) (junk : ℤ → Option α) :
    let arr := circularArrayResize old q.tail q.head junk
    let arrays := Function.update (Function.update q.arrays new (some arr)) q.array none
    Rel locked { q with array := new, arrays := arrays } a ∧ arrays new = some arr ∧
      q.tail - q.head < arr.size := by
  intro arr arrays
  obtain ⟨hle, old', hold', hwf, hfit, hw⟩ := h.holds
  obtain rfl := Option.some.inj (hold.symm.trans hold')
  have harr : arrays new = some arr :=
    (Function.update_of_ne hne _ _).trans (Function.update_self ..)
  have hsize : arr.size = old.size * 2 := copyLoop_size ..
  have hpos := hwf.size_pos
  refine ⟨⟨h.locked, ⟨hle, arr, harr, circularArrayResize_wellFormed hwf _ _ _, ?_, ?_⟩, h.slot,
    ?_⟩, harr, by omega⟩
  · simp only [hsize]
    omega
  · exact (caWindow_resize hwf hfit junk).trans hw
  · intro p hp
    by_cases hpa : p = q.array
    · subst hpa
      exact Function.update_self ..
    · have hpn : p ≠ new := hp
      exact (Function.update_of_ne hpa _ _).trans
        ((Function.update_of_ne hpn _ _).trans (h.only p hpa))

def pushAlone (malloc : Malloc α) (junk : ℤ → Option α) (elt : α) (q : TlQueue α) (pc : Push) :
    Option (TlQueue α × Outcome Push Unit) :=
  tlQueuePush (malloc.block q.arrays) junk (some elt) q pc

theorem append_returns {q : TlQueue α} {a : SlotQueue α} (h : Rel true q a)
    {arr : CircularArray (Option α)} (harr : q.arrays q.array = some arr)
    (hroom : q.tail - q.head < arr.size) (malloc : Malloc α) (junk : ℤ → Option α) (elt : α) :
    ∃ q', Returns (pushAlone malloc junk elt) q (.set q.array q.head q.tail) q' () ∧
      Rel false q' (push elt a) := by
  have hset : pushAlone malloc junk elt q (.set q.array q.head q.tail) =
      some ({ q with
        arrays := Function.update q.arrays q.array (some (caSet arr q.tail (some elt))) },
        .run (.storeTail q.tail)) := by
    simp only [pushAlone, tlQueuePush, harr, Option.bind_eq_bind, Option.bind_some]
  exact ⟨_, .run hset (.run rfl (.done rfl)), rel_locked (rel_append h harr hroom elt) false⟩

theorem push_returns {q : TlQueue α} {a : SlotQueue α} (h : Rel false q a) (malloc : Malloc α)
    (junk : ℤ → Option α) (elt : α) :
    ∃ q', Returns (pushAlone malloc junk elt) q .acquire q' () ∧ Rel false q' (push elt a) := by
  obtain ⟨-, arr, harr, -⟩ := h.holds
  have hrel := rel_locked h true
  have hacquire : pushAlone malloc junk elt q .acquire =
      some ({ q with locked := true }, .run .load) := by
    simp only [pushAlone, tlQueuePush, h.locked, Bool.false_eq_true, if_false]
  by_cases hfull : q.tail - q.head > arr.size - 1
  · have hload : pushAlone malloc junk elt { q with locked := true } .load =
        some ({ q with locked := true }, .run (.resize q.array q.head q.tail)) := by
      simp only [pushAlone, tlQueuePush, harr, Option.bind_eq_bind, Option.bind_some, if_pos hfull]
    have hfree : q.arrays (malloc.block q.arrays) = none :=
      malloc.free _ (q.array + 1) (h.only _ (Nat.succ_ne_self _))
    have hne : malloc.block q.arrays ≠ q.array := by
      intro he
      rw [he, harr] at hfree
      cases hfree
    obtain ⟨hgrown, hnew, hroom⟩ := rel_grow hrel harr hne junk
    obtain ⟨q', hr, hq'⟩ := append_returns hgrown hnew hroom malloc junk elt
    have hresize : pushAlone malloc junk elt { q with locked := true }
        (.resize q.array q.head q.tail) = some ({ q with
          locked := true
          arrays := Function.update q.arrays (malloc.block q.arrays)
            (some (circularArrayResize arr q.tail q.head junk)) },
        .run (.free (malloc.block q.arrays) q.head q.tail)) := by
      simp only [pushAlone, tlQueuePush, harr, Option.bind_eq_bind, Option.bind_some]
    have hfreeOld : pushAlone malloc junk elt { q with
          locked := true
          arrays := Function.update q.arrays (malloc.block q.arrays)
            (some (circularArrayResize arr q.tail q.head junk)) }
        (.free (malloc.block q.arrays) q.head q.tail) = some ({ q with
          locked := true
          arrays := Function.update (Function.update q.arrays (malloc.block q.arrays)
            (some (circularArrayResize arr q.tail q.head junk))) q.array none },
        .run (.storeArray (malloc.block q.arrays) q.head q.tail)) := by
      simp only [pushAlone, tlQueuePush, Function.update_of_ne hne.symm, harr,
        Option.bind_eq_bind, Option.bind_some]
    exact ⟨q', .run hacquire (.run hload (.run hresize (.run hfreeOld (.run rfl hr)))), hq'⟩
  · have hload : pushAlone malloc junk elt { q with locked := true } .load =
        some ({ q with locked := true }, .run (.set q.array q.head q.tail)) := by
      simp only [pushAlone, tlQueuePush, harr, Option.bind_eq_bind, Option.bind_some, if_neg hfull]
    obtain ⟨q', hr, hq'⟩ := append_returns hrel harr
      (show q.tail - q.head < arr.size by omega) malloc junk elt
    exact ⟨q', .run hacquire (.run hload hr), hq'⟩

theorem owner_push {malloc : Malloc α} {junk : ℤ → Option α} {elt : α} {q q' : TlQueue α}
    {pc : Push} {r : Unit} (h : Returns (pushAlone malloc junk elt) q pc q' r) :
    Returns (ownerAlone malloc junk) q (.push elt pc) q' none := by
  refine h.lift (Owner.push elt) (fun _ => none) (fun _ _ _ _ h => ?_) (fun _ _ _ _ h => ?_)
  all_goals
    rw [pushAlone] at h
    simp only [ownerAlone, ownerStep, h, Option.bind_eq_bind, Option.bind_some, Option.map_some]

theorem owner_pushOld {malloc : Malloc α} {junk : ℤ → Option α} {elt old_buffer : α}
    {q q' : TlQueue α} {pc : Push} {r : Unit}
    (h : Returns (pushAlone malloc junk old_buffer) q pc q' r) :
    Returns (ownerAlone malloc junk) q (.pushOld elt old_buffer pc) q' none := by
  refine h.lift (Owner.pushOld elt old_buffer) (fun _ => none) (fun _ _ _ _ h => ?_)
    (fun _ _ _ _ h => ?_)
  all_goals
    rw [pushAlone] at h
    simp only [ownerAlone, ownerStep, h, Option.bind_eq_bind, Option.bind_some, Option.map_some]

theorem priorityPush_returns {q : TlQueue α} {a : SlotQueue α} (h : Rel false q a)
    (malloc : Malloc α) (junk : ℤ → Option α) (elt : α) :
    ∃ q', Returns (ownerAlone malloc junk) q (.loadBuffer elt) q' none ∧
      Rel false q' (priorityPush elt a) := by
  have hrel := rel_buffer h (some elt)
  have hload : ownerAlone malloc junk q (.loadBuffer elt) =
      some (q, .run (.storeBuffer elt a.slot)) := by
    simp only [ownerAlone, ownerStep, h.slot, Option.map_some]
  cases ha : a.slot with
  | none =>
    rw [ha] at hload
    refine ⟨_, .run hload (.done rfl), ?_⟩
    rw [priorityPush, ha, Option.toList_none, List.append_nil]
    exact hrel
  | some old =>
    rw [ha] at hload
    obtain ⟨q', hr, hq'⟩ := push_returns hrel malloc junk old
    refine ⟨q', .run hload (.run rfl (owner_pushOld hr)), ?_⟩
    rw [priorityPush, ha]
    exact hq'

theorem take_returns {q : TlQueue α} {a : SlotQueue α} (h : Rel false q a) :
    ∃ q', Returns takeLocked q .acquire q' (steal a).2 ∧ Rel false q' (steal a).1 := by
  have hacquire : takeLocked q .acquire = some ({ q with locked := true }, .run .load) := by
    simp only [takeLocked, h.locked, Bool.false_eq_true, if_false]
  by_cases he : q.head = q.tail
  · have hload : takeLocked { q with locked := true } .load =
        some ({ q with locked := true }, .run (.release none)) := by
      simp only [takeLocked, if_pos he]
    have hitems := (holds_items h.holds).mpr he
    have hsteal : steal a = (a, none) := by
      obtain ⟨slot, items⟩ := a
      cases hitems
      rfl
    rw [hsteal]
    exact ⟨_, .run hacquire (.run hload (.done rfl)), rel_locked (rel_locked h true) false⟩
  · obtain ⟨arr, elt, rest, harr, ha, hget, hrest⟩ := holds_cons h.holds (lt_of_le_of_ne h.holds.1 he)
    have hload : takeLocked { q with locked := true } .load =
        some ({ q with locked := true }, .run (.get q.array q.head)) := by
      simp only [takeLocked, if_neg he]
    have hgetStep : takeLocked { q with locked := true } (.get q.array q.head) =
        some ({ q with locked := true }, .run (.storeHead q.head (some elt))) := by
      simp only [takeLocked, harr, Option.bind_eq_bind, Option.bind_some, hget]
    have hsteal : steal a = ({ a with items := rest }, some elt) := by
      rw [steal, ha]
      rfl
    rw [hsteal]
    refine ⟨_, .run hacquire (.run hload (.run hgetStep (.run rfl (.done rfl)))), ?_⟩
    exact ⟨rfl, hrest, h.slot, h.only⟩

theorem owner_take {malloc : Malloc α} {junk : ℤ → Option α} {q q' : TlQueue α} {pc : Take α}
    {r : Option α} (h : Returns takeLocked q pc q' r) :
    Returns (ownerAlone malloc junk) q (.pop pc) q' r := by
  refine h.lift Owner.pop id (fun _ _ _ _ h => ?_) (fun _ _ _ _ h => ?_)
  · simp only [ownerAlone, ownerStep, h, Option.bind_eq_bind, Option.bind_some, Option.map_some]
  · simp only [ownerAlone, ownerStep, h, Option.bind_eq_bind, Option.bind_some, Option.map_some, id]

theorem thief_take {q q' : TlQueue α} {pc : Take α} {r : Option α}
    (h : Returns takeLocked q pc q' r) : Returns thiefAlone q (.steal pc) q' r := by
  refine h.lift Thief.steal id (fun _ _ _ _ h => ?_) (fun _ _ _ _ h => ?_)
  · simp only [thiefAlone, thiefStep, h, Option.bind_eq_bind, Option.bind_some, Option.map_some]
  · simp only [thiefAlone, thiefStep, h, Option.bind_eq_bind, Option.bind_some, Option.map_some, id]

theorem pop_returns {q : TlQueue α} {a : SlotQueue α} (h : Rel false q a) (malloc : Malloc α)
    (junk : ℤ → Option α) :
    ∃ q', Returns (ownerAlone malloc junk) q .testBuffer q' (pop a).2 ∧ Rel false q' (pop a).1 := by
  cases ha : a.slot with
  | none =>
    have htest : ownerAlone malloc junk q .testBuffer = some (q, .run (.pop .acquire)) := by
      simp only [ownerAlone, ownerStep, h.slot, ha, Option.isSome_none, Bool.false_eq_true,
        if_false, Option.map_some]
    obtain ⟨q', hr, hq'⟩ := take_returns h
    rw [pop_of_none ha]
    exact ⟨q', .run htest (owner_take hr), hq'⟩
  | some elt =>
    have htest : ownerAlone malloc junk q .testBuffer = some (q, .run .takeBuffer) := by
      simp only [ownerAlone, ownerStep, h.slot, ha, Option.isSome_some, if_true, Option.map_some]
    have htake : ownerAlone malloc junk q .takeBuffer =
        some (q, .run (.clearBuffer (some elt))) := by
      simp only [ownerAlone, ownerStep, h.slot, ha, Option.map_some]
    rw [pop_of_some ha]
    exact ⟨_, .run htest (.run htake (.done rfl)), rel_buffer h none⟩

theorem tlCall_returns (q : TlQueue α) (a : SlotQueue α) (c : Op α × Malloc α × (ℤ → Option α))
    (h : Rel false q a) : ∃ q', tlCall c q q' ((slotQueue α).apply c.1 a).2 ∧
      Rel false q' ((slotQueue α).apply c.1 a).1 := by
  obtain ⟨o, malloc, junk⟩ := c
  cases o with
  | push elt =>
    obtain ⟨q', hr, hq'⟩ := push_returns h malloc junk elt
    exact ⟨q', owner_push hr, hq'⟩
  | priorityPush elt => exact priorityPush_returns h malloc junk elt
  | pop => exact pop_returns h malloc junk
  | steal =>
    obtain ⟨q', hr, hq'⟩ := take_returns h
    exact ⟨q', thief_take hr, hq'⟩

theorem rel_init (log_size array : ℕ) (junk : ℤ → Option α) :
    Rel false (tlQueueInit log_size array junk) (slotQueue α).init := by
  have hwf := circularArrayNew_wellFormed log_size junk
  have harr : (tlQueueInit log_size array junk).arrays array =
      some (circularArrayNew log_size junk) := by
    simp only [tlQueueInit, Function.update_self]
  refine ⟨rfl, ⟨le_rfl, _, harr, hwf, hwf.size_pos.le, caWindow_self _ _⟩, rfl, ?_⟩
  intro p (hp : p ≠ array)
  simp only [tlQueueInit, Function.update_of_ne hp]

end Libseff.LockedQueueCalls
