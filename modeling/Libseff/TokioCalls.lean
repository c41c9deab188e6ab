import Libseff.CompleteCalls
import Libseff.SlotQueues
import Libseff.TokioSteps

namespace Libseff.TokioCalls

open CircularArrays TransitionRuns AtomicObjects SlotQueues CompleteCalls TokioSteps

variable {α : Type}

abbrev Elt (α : Type) := {elt : QueueElt α // isElt elt = true}

def value : Option (Elt α) → QueueElt α
  | none => .EMPTY
  | some elt => elt.val

abbrev Contents (α : Type) := QueueElt α × List (QueueElt α)

def slotContents (a : SlotQueue (Elt α)) : Contents α := (value a.slot, a.items.map Subtype.val)

def tkContents (q : TkQueue α) : Contents α :=
  (q.buffer, caWindow (q.arrays q.array) q.head q.tail)

def ownerAlone (junk : ℤ → QueueElt α) (q : TkQueue α) (o : Owner α) :
    Option (TkQueue α × Outcome (Owner α) (QueueElt α)) :=
  (ownerStep Unit junk q o).map fun (q', o', e) =>
    (q', match o' with
      | .idle => .done (e.result.getD .EMPTY)
      | o' => .run o')

def thiefAlone (q : TkQueue α) (t : Thief α) :
    Option (TkQueue α × Outcome (Thief α) (QueueElt α)) :=
  (thiefStep () q t).map fun (q', t', e) =>
    (q', match t' with
      | .idle => .done (e.result.getD .EMPTY)
      | t' => .run t')

/-- A complete call, with the memory that a growing push gets from `malloc`. -/
def tkCall (c : Op (Elt α) × (ℤ → QueueElt α)) (q q' : TkQueue α) (r : QueueElt α) : Prop :=
  match c.1 with
  | .push elt => Returns (ownerAlone c.2) q (.push elt.val .loadArray) q' r
  | .priorityPush elt => Returns (ownerAlone c.2) q (.priorityPush elt.val) q' r
  | .pop => Returns (ownerAlone c.2) q .pop q' r
  | .steal => Returns thiefAlone q (.steal .loadArray) q' r

structure Rel (q : TkQueue α) (a : SlotQueue (Elt α)) : Prop where
  le : q.head ≤ q.tail
  wellFormed : WellFormed (q.arrays q.array)
  fits : q.tail - q.head ≤ (q.arrays q.array).size
  allocated : q.array < q.allocated
  contents : tkContents q = slotContents a

theorem tkCall_unique (c : Op (Elt α) × (ℤ → QueueElt α)) (q q1 q2 : TkQueue α)
    (r1 r2 : QueueElt α) (h1 : tkCall c q q1 r1) (h2 : tkCall c q q2 r2) :
    q1 = q2 ∧ r1 = r2 := by
  obtain ⟨o, junk⟩ := c
  cases o with
  | push elt | priorityPush elt | pop | steal => exact Returns.unique h1 h2

theorem owner_push_run {junk : ℤ → QueueElt α} {elt : QueueElt α} {q q' : TkQueue α}
    {pc pc' : Push α} (h : tkQueuePush junk elt q pc = (q', .run pc')) :
    ownerAlone junk q (.push elt pc) = some (q', .run (.push elt pc')) := by
  simp only [ownerAlone, ownerStep, h, Option.map_some]

theorem owner_push_done {junk : ℤ → QueueElt α} {elt : QueueElt α} {q q' : TkQueue α}
    {pc : Push α} (h : tkQueuePush junk elt q pc = (q', .done ())) :
    ownerAlone junk q (.push elt pc) = some (q', .done .EMPTY) := by
  simp only [ownerAlone, ownerStep, h, Option.map_some, Option.getD_none]

theorem copy_returns {junk : ℤ → QueueElt α} {elt r : QueueElt α} {q q' : TkQueue α}
    {arr new n : ℕ} {head tail i : ℤ} (hne : arr ≠ new) (hn : (tail - i).toNat = n)
    (h : Returns (ownerAlone junk)
      (storeArrays q new (copyLoop (q.arrays arr) (q.arrays new) i n))
      (.push elt (.storeArray new head tail)) q' r) :
    Returns (ownerAlone junk) q (.push elt (copyNext arr new head tail i)) q' r := by
  induction n generalizing q i with
  | zero =>
    have hi : ¬ i < tail := by omega
    rw [copyNext, if_neg hi]
    rw [copyLoop, storeArrays, Function.update_eq_self] at h
    exact h
  | succ n ih =>
    have hi : i < tail := by omega
    rw [copyNext, if_pos hi]
    refine Returns.run (owner_push_run rfl) (Returns.run (owner_push_run rfl) (ih (by omega) ?_))
    have harr : (storeArrays q new (caSet (q.arrays new) i (caGet (q.arrays arr) i))).arrays arr =
        q.arrays arr := Function.update_of_ne hne _ _
    have hnew : (storeArrays q new (caSet (q.arrays new) i (caGet (q.arrays arr) i))).arrays new =
        caSet (q.arrays new) i (caGet (q.arrays arr) i) := Function.update_self ..
    rw [harr, hnew]
    simp only [storeArrays, Function.update_idem]
    exact h

theorem rel_slot {q : TkQueue α} {a : SlotQueue (Elt α)} (h : Rel q a) :
    q.buffer = value a.slot :=
  congrArg Prod.fst h.contents

theorem rel_items {q : TkQueue α} {a : SlotQueue (Elt α)} (h : Rel q a) :
    caWindow (q.arrays q.array) q.head q.tail = a.items.map Subtype.val :=
  congrArg Prod.snd h.contents

theorem rel_append {q : TkQueue α} {a : SlotQueue (Elt α)} (h : Rel q a)
    (hroom : q.tail - q.head < (q.arrays q.array).size) (elt : Elt α) :
    Rel { storeArrays q q.array (caSet (q.arrays q.array) q.tail elt.val) with
      tail := q.tail + 1 } (push elt a) := by
  have hle := h.le
  have harr : Function.update q.arrays q.array (caSet (q.arrays q.array) q.tail elt.val) q.array =
      caSet (q.arrays q.array) q.tail elt.val := Function.update_self ..
  refine ⟨?_, ?_, ?_, h.allocated, ?_⟩
  · simp only [storeArrays]
    omega
  · simp only [storeArrays, harr]
    exact caSet_wellFormed h.wellFormed _ _
  · simp only [storeArrays, harr, caSet_size]
    omega
  · simp only [tkContents, storeArrays, harr, slotContents, push, List.map_append, List.map_cons,
      List.map_nil]
    rw [caWindow_caSet h.wellFormed h.le hroom, rel_items h, rel_slot h]

theorem append_returns {q : TkQueue α} {a : SlotQueue (Elt α)} (h : Rel q a)
    (hroom : q.tail - q.head < (q.arrays q.array).size) (junk : ℤ → QueueElt α) (elt : Elt α) :
    ∃ q', Returns (ownerAlone junk) q (.push elt.val (.set q.array q.head q.tail)) q' .EMPTY ∧
      Rel q' (push elt a) :=
  ⟨_, .run (owner_push_run rfl) (.done (owner_push_done rfl)), rel_append h hroom elt⟩

theorem rel_grow {q : TkQueue α} {a : SlotQueue (Elt α)} (h : Rel q a) (junk : ℤ → QueueElt α) :
    let q1 := publishArray (storeArrays { q with allocated := q.allocated + 1 } q.allocated
      (circularArrayResize (q.arrays q.array) q.tail q.head junk)) q.allocated q.tail
    Rel q1 a ∧ q1.tail - q1.head < (q1.arrays q1.array).size := by
  intro q1
  have harr : q1.arrays q1.array = circularArrayResize (q.arrays q.array) q.tail q.head junk :=
    Function.update_self ..
  have hsize : (q1.arrays q1.array).size = (q.arrays q.array).size * 2 := by
    rw [harr]
    exact copyLoop_size ..
  have hpos := h.wellFormed.size_pos
  have hfits := h.fits
  have hroom : q1.tail - q1.head < (q1.arrays q1.array).size := by
    rw [hsize]
    change q.tail - q.head < _
    omega
  refine ⟨⟨h.le, ?_, hroom.le, Nat.lt_succ_self _, ?_⟩, hroom⟩
  · rw [harr]
    exact circularArrayResize_wellFormed h.wellFormed _ _ _
  · change (q.buffer, caWindow (q1.arrays q1.array) q.head q.tail) = _
    rw [harr, caWindow_resize h.wellFormed h.fits]
    exact h.contents

theorem push_returns {q : TkQueue α} {a : SlotQueue (Elt α)} (h : Rel q a)
    (junk : ℤ → QueueElt α) (elt : Elt α) :
    ∃ q', Returns (ownerAlone junk) q (.push elt.val .loadArray) q' .EMPTY ∧
      Rel q' (push elt a) := by
  have hload : ownerAlone junk q (.push elt.val .loadArray) =
      some (q, .run (.push elt.val (.loadHead q.array))) := owner_push_run rfl
  have hhead : ownerAlone junk q (.push elt.val (.loadHead q.array)) =
      some (q, .run (.push elt.val (.loadTail q.array q.head))) := owner_push_run rfl
  by_cases hfull : q.tail - q.head > (q.arrays q.array).size - 1
  · obtain ⟨hrel, hroom⟩ := rel_grow h junk
    obtain ⟨q', hr, hq'⟩ := append_returns hrel hroom junk elt
    have htail : tkQueuePush junk elt.val q (.loadTail q.array q.head) =
        ({ storeArrays q q.allocated (circularArrayGrow (q.arrays q.array) junk) with
            allocated := q.allocated + 1 },
          .run (copyNext q.array q.allocated q.head q.tail q.head)) := by
      rw [tkQueuePush, if_pos hfull]
    refine ⟨q', .run hload (.run hhead (.run (owner_push_run htail) ?_)), hq'⟩
    refine copy_returns (Nat.ne_of_lt h.allocated) rfl (.run (owner_push_run rfl) ?_)
    have hold : Function.update q.arrays q.allocated (circularArrayGrow (q.arrays q.array) junk)
        q.array = q.arrays q.array := Function.update_of_ne (Nat.ne_of_lt h.allocated) _ _
    simp only [storeArrays, Function.update_self, Function.update_idem, hold]
    exact hr
  · have htail : tkQueuePush junk elt.val q (.loadTail q.array q.head) =
        (q, .run (.set q.array q.head q.tail)) := by
      rw [tkQueuePush, if_neg hfull]
    obtain ⟨q', hr, hq'⟩ := append_returns h (by omega) junk elt
    exact ⟨q', .run hload (.run hhead (.run (owner_push_run htail) hr)), hq'⟩

theorem rel_buffer {q : TkQueue α} {a : SlotQueue (Elt α)} (h : Rel q a) (slot : Option (Elt α)) :
    Rel { q with buffer := value slot } { a with slot := slot } := by
  have hitems := rel_items h
  exact ⟨h.le, h.wellFormed, h.fits, h.allocated, Prod.ext rfl hitems⟩

theorem priorityPush_returns {q : TkQueue α} {a : SlotQueue (Elt α)} (h : Rel q a)
    (junk : ℤ → QueueElt α) (elt : Elt α) :
    ∃ q', Returns (ownerAlone junk) q (.priorityPush elt.val) q' .EMPTY ∧
      Rel q' (priorityPush elt a) := by
  have hrel := rel_buffer h (some elt)
  have hslot := rel_slot h
  cases ha : a.slot with
  | none =>
    rw [ha] at hslot
    have hstep : ownerAlone junk q (.priorityPush elt.val) =
        some ({ q with buffer := elt.val }, .done .EMPTY) := by
      simp only [ownerAlone, ownerStep, tkQueuePriorityPush, hslot, value, Option.map_some,
        Option.getD_none]
    refine ⟨_, .done hstep, ?_⟩
    rw [priorityPush, ha, Option.toList_none, List.append_nil]
    exact hrel
  | some old =>
    rw [ha] at hslot
    have hstep : ownerAlone junk q (.priorityPush elt.val) =
        some ({ q with buffer := elt.val }, .run (.push old.val .loadArray)) := by
      obtain ⟨old, hold⟩ := old
      cases old with
      | EMPTY => cases hold
      | ABORT | task t =>
        simp only [ownerAlone, ownerStep, tkQueuePriorityPush, hslot, value, Option.map_some]
    obtain ⟨q', hr, hq'⟩ := push_returns hrel junk old
    refine ⟨q', .run hstep hr, ?_⟩
    rw [priorityPush, ha]
    exact hq'

theorem rel_take {q : TkQueue α} {a : SlotQueue (Elt α)} (h : Rel q a)
    (hlt : q.head < q.tail) : ∃ elt rest, a.items = elt :: rest ∧
      caGet (q.arrays q.array) q.head = elt.val ∧
      Rel { q with head := q.head + 1 } { a with items := rest } := by
  have hslot := rel_slot h
  have hitems := rel_items h
  have hfits := h.fits
  rw [caWindow_cons _ hlt] at hitems
  obtain ⟨elt, rest, ha, helt, hrest⟩ := List.map_eq_cons_iff.mp hitems.symm
  refine ⟨elt, rest, ha, helt.symm, by simp only; omega, h.wellFormed, by simp only; omega,
    h.allocated, Prod.ext hslot hrest.symm⟩

theorem rel_empty {q : TkQueue α} {a : SlotQueue (Elt α)} (h : Rel q a)
    (he : q.head = q.tail) : a.items = [] := by
  have hitems := rel_items h
  rw [he, caWindow_self] at hitems
  exact List.map_eq_nil_iff.mp hitems.symm

theorem take_returns {q : TkQueue α} {a : SlotQueue (Elt α)} (h : Rel q a) :
    ∃ q', Returns (fun q pc => some (takeLoop q pc)) q .loadArray q' (value (steal a).2) ∧
      Rel q' (steal a).1 := by
  by_cases he : q.head = q.tail
  · have hitems := rel_empty h he
    have htail : takeLoop q (.loadTail q.array q.head) = (q, .done .EMPTY) := by
      rw [takeLoop, if_pos he]
    have hsteal : steal a = (a, none) := by
      obtain ⟨slot, items⟩ := a
      rw [steal, hitems]
      cases hitems
      rfl
    rw [hsteal]
    exact ⟨q, .run rfl (.run rfl (.done (congrArg some htail))), h⟩
  · obtain ⟨elt, rest, ha, helt, hrel⟩ := rel_take h (lt_of_le_of_ne h.le he)
    have htail : takeLoop q (.loadTail q.array q.head) = (q, .run (.get q.array q.head)) := by
      rw [takeLoop, if_neg he]
    have hcas : takeLoop q (.cas q.array q.head (caGet (q.arrays q.array) q.head)) =
        ({ q with head := q.head + 1 }, .done elt.val) := by
      rw [takeLoop, if_pos rfl, helt]
    have hsteal : steal a = ({ a with items := rest }, some elt) := by
      rw [steal, ha]
      rfl
    rw [hsteal]
    exact ⟨_, .run rfl (.run rfl (.run (congrArg some htail) (.run rfl
      (.done (congrArg some hcas))))), hrel⟩

theorem owner_take {junk : ℤ → QueueElt α} {q q' : TkQueue α} {pc : Take α} {r : QueueElt α}
    (h : Returns (fun q pc => some (takeLoop q pc)) q pc q' r) :
    Returns (ownerAlone junk) q (.popLoop pc) q' r := by
  refine h.lift Owner.popLoop id (fun _ _ _ _ h => ?_) (fun _ _ _ _ h => ?_)
  · simp only [ownerAlone, ownerStep, Option.some.inj h, Option.map_some]
  · simp only [ownerAlone, ownerStep, Option.some.inj h, Option.map_some, Option.getD_some, id]

theorem thief_take {q q' : TkQueue α} {pc : Take α} {r : QueueElt α}
    (h : Returns (fun q pc => some (takeLoop q pc)) q pc q' r) :
    Returns thiefAlone q (.steal pc) q' r := by
  refine h.lift Thief.steal id (fun _ _ _ _ h => ?_) (fun _ _ _ _ h => ?_)
  · simp only [thiefAlone, thiefStep, tkQueueSteal, Option.some.inj h, Option.map_some]
  · simp only [thiefAlone, thiefStep, tkQueueSteal, Option.some.inj h, Option.map_some,
      Option.getD_some, id]

theorem pop_returns {q : TkQueue α} {a : SlotQueue (Elt α)} (h : Rel q a)
    (junk : ℤ → QueueElt α) :
    ∃ q', Returns (ownerAlone junk) q .pop q' (value (pop a).2) ∧ Rel q' (pop a).1 := by
  have hslot := rel_slot h
  cases ha : a.slot with
  | none =>
    rw [ha] at hslot
    have hstep : ownerAlone junk q .pop = some (q, .run (.popLoop .loadArray)) := by
      simp only [ownerAlone, ownerStep, tkQueuePop, hslot, value, Option.map_some]
    obtain ⟨q', hr, hq'⟩ := take_returns h
    rw [pop_of_none ha]
    exact ⟨q', .run hstep (owner_take hr), hq'⟩
  | some elt =>
    rw [ha] at hslot
    have hstep : ownerAlone junk q .pop =
        some ({ q with buffer := .EMPTY }, .done elt.val) := by
      obtain ⟨elt, helt⟩ := elt
      cases elt with
      | EMPTY => cases helt
      | ABORT | task t =>
        simp only [ownerAlone, ownerStep, tkQueuePop, hslot, value, Option.map_some,
          Option.getD_some]
    rw [pop_of_some ha]
    exact ⟨_, .done hstep, rel_buffer h none⟩

theorem tkCall_returns (q : TkQueue α) (a : SlotQueue (Elt α))
    (c : Op (Elt α) × (ℤ → QueueElt α)) (h : Rel q a) :
    ∃ q', tkCall c q q' (value ((slotQueue (Elt α)).apply c.1 a).2) ∧
      Rel q' ((slotQueue (Elt α)).apply c.1 a).1 := by
  obtain ⟨o, junk⟩ := c
  cases o with
  | push elt => exact push_returns h junk elt
  | priorityPush elt => exact priorityPush_returns h junk elt
  | pop => exact pop_returns h junk
  | steal =>
    obtain ⟨q', hr, hq'⟩ := take_returns h
    exact ⟨q', thief_take hr, hq'⟩

theorem rel_init (log_size : ℕ) (junk : ℤ → QueueElt α) :
    Rel (tkQueueInit log_size junk) (slotQueue (Elt α)).init := by
  have hwf := circularArrayNew_wellFormed log_size junk
  exact ⟨le_rfl, hwf, hwf.size_pos.le, Nat.one_pos, Prod.ext rfl (caWindow_self _ _)⟩

end Libseff.TokioCalls
