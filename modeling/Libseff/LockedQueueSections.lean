import Libseff.LockedQueue

namespace Libseff.LockedQueueSections

open CircularArrays TransitionRuns AtomicObjects SlotQueues LockedQueue

variable {α : Type}

def Holds (items : List α) (q : TlQueue α) (p : ℕ) : Prop :=
  q.head ≤ q.tail ∧ ∃ arr, q.arrays p = some arr ∧ WellFormed arr ∧ q.tail - q.head ≤ arr.size ∧
    caWindow arr q.head q.tail = items.map some

def room (q : TlQueue α) (p : ℕ) : Prop :=
  ∃ arr, q.arrays p = some arr ∧ q.tail - q.head < arr.size

/-- The array in force: between the `free` and the store of `self->array` the
queue points to an array that is not allocated any more. -/
def pushArray (q : TlQueue α) : Push → ℕ
  | .storeArray new_array _ _ => new_array
  | _ => q.array

def PushInv (items : List α) (elt : α) (q : TlQueue α) : Push → Prop
  | .resize arr head tail => arr = q.array ∧ head = q.head ∧ tail = q.tail
  | .free new_array head tail => new_array ≠ q.array ∧ head = q.head ∧ tail = q.tail ∧
      Holds items q new_array ∧ room q new_array
  | .storeArray new_array head tail => head = q.head ∧ tail = q.tail ∧ room q new_array
  | .set arr head tail => arr = q.array ∧ head = q.head ∧ tail = q.tail ∧ room q q.array
  | .storeTail tail => tail = q.tail ∧ ∃ arr, q.arrays q.array = some arr ∧
      tail - q.head < arr.size ∧ caGet arr tail = some elt
  | _ => True

def TakeInv (items : List α) (q : TlQueue α) : Take α → Prop
  | .get arr head => arr = q.array ∧ head = q.head ∧ q.head < q.tail
  | .storeHead head elt => head = q.head ∧ q.head < q.tail ∧ elt = items.head?
  | _ => True

def insidePush : Push → Bool
  | .acquire => false
  | _ => true

def insideTake : Take α → Bool
  | .acquire => false
  | _ => true

theorem holds_items {items : List α} {q : TlQueue α} {p : ℕ} (h : Holds items q p) :
    (items = [] ↔ q.head = q.tail) := by
  obtain ⟨hle, arr, -, -, -, hw⟩ := h
  have hlen := congrArg List.length hw
  rw [caWindow, List.length_map, List.length_range, List.length_map] at hlen
  constructor
  · rintro rfl
    rw [List.length_nil] at hlen
    omega
  · intro he
    exact List.length_eq_zero_iff.mp (by omega)

theorem holds_cons {items : List α} {q : TlQueue α} {p : ℕ} (h : Holds items q p)
    (hlt : q.head < q.tail) : ∃ arr elt rest, q.arrays p = some arr ∧ items = elt :: rest ∧
      caGet arr q.head = some elt ∧ Holds rest { q with head := q.head + 1 } p := by
  obtain ⟨-, arr, harr, hwf, hfit, hw⟩ := h
  rw [caWindow_cons arr hlt] at hw
  cases items with
  | nil => cases hw
  | cons elt rest =>
    rw [List.map_cons, List.cons.injEq] at hw
    refine ⟨arr, elt, rest, harr, rfl, hw.1, hlt, arr, harr, hwf, ?_, hw.2⟩
    simp only
    omega

theorem holds_snoc {items : List α} {q : TlQueue α} {arr : CircularArray (Option α)} {elt : α}
    (h : Holds items q q.array) (harr : q.arrays q.array = some arr)
    (hroom : q.tail - q.head < arr.size) (hget : caGet arr q.tail = some elt) :
    Holds (items ++ [elt]) { q with tail := q.tail + 1 } q.array := by
  obtain ⟨hle, arr', harr', hwf, -, hw⟩ := h
  obtain rfl := Option.some.inj (harr.symm.trans harr')
  refine ⟨by simp only; omega, arr, harr, hwf, by simp only; omega, ?_⟩
  simp only [caWindow_snoc arr hle, hw, hget, List.map_append, List.map_cons, List.map_nil]

theorem holds_resize {items : List α} {q : TlQueue α} (new_array : ℕ)
    {old : CircularArray (Option α)} (h : Holds items q q.array)
    (hold : q.arrays q.array = some old) (junk : ℤ → Option α) :
    let arr := circularArrayResize old q.tail q.head junk
    Holds items { q with arrays := Function.update q.arrays new_array (some arr) } new_array ∧
      room { q with arrays := Function.update q.arrays new_array (some arr) } new_array := by
  obtain ⟨hle, old', hold', hwf, hfit, hw⟩ := h
  obtain rfl := Option.some.inj (hold.symm.trans hold')
  have hsize : (circularArrayResize old q.tail q.head junk).size = old.size * 2 := copyLoop_size ..
  have hpos := hwf.size_pos
  refine ⟨⟨hle, _, Function.update_self .., circularArrayResize_wellFormed hwf _ _ _, ?_, ?_⟩,
    _, Function.update_self .., ?_⟩
  · rw [hsize]
    simp only
    omega
  · rw [← hw]
    exact caWindow_congr fun j h1 h2 => circularArrayResize_get hwf hfit junk j h1 h2
  · rw [hsize]
    simp only
    omega

theorem push_step {items : List α} {elt : α} {q q' : TlQueue α} {pc : Push}
    {o : Outcome Push Unit} {new_array : ℕ} {junk : ℤ → Option α}
    (h : Holds items q (pushArray q pc)) (hi : PushInv items elt q pc)
    (hpc : insidePush pc = true) (hfree : q.arrays new_array = none)
    (hq : tlQueuePush new_array junk (some elt) q pc = some (q', o)) :
    q'.buffer = q.buffer ∧
    ((∃ pc', o = .run pc' ∧ pc' ≠ .release ∧ pc ≠ .release ∧ insidePush pc' = true ∧
        q'.locked = q.locked ∧ Holds items q' (pushArray q' pc') ∧ PushInv items elt q' pc') ∨
      (o = .run .release ∧ pc ≠ .release ∧ q'.locked = q.locked ∧
        Holds (items ++ [elt]) q' q'.array) ∨
      (o = .done () ∧ pc = .release ∧ q' = { q with locked := false })) := by
  cases pc with
  | acquire => cases hpc
  | load =>
    obtain ⟨hle, arr, harr, hwf, hfit, hw⟩ := h
    have harr' : q.arrays q.array = some arr := harr
    simp only [tlQueuePush, harr', Option.bind_eq_bind, Option.bind_some] at hq
    split at hq
    · cases hq
      exact ⟨rfl, .inl ⟨_, rfl, nofun, nofun, rfl, rfl, ⟨hle, arr, harr, hwf, hfit, hw⟩,
        rfl, rfl, rfl⟩⟩
    · rename_i hroom
      cases hq
      exact ⟨rfl, .inl ⟨_, rfl, nofun, nofun, rfl, rfl, ⟨hle, arr, harr, hwf, hfit, hw⟩,
        rfl, rfl, rfl, arr, harr', by omega⟩⟩
  | resize arr head tail =>
    obtain ⟨rfl, rfl, rfl⟩ := hi
    have h' : Holds items q q.array := h
    obtain ⟨-, old, hold, -⟩ := h
    have hold' : q.arrays q.array = some old := hold
    simp only [tlQueuePush, hold', Option.bind_eq_bind, Option.bind_some] at hq
    cases hq
    have hne : q.array ≠ new_array := by
      rintro he
      rw [he, hfree] at hold'
      cases hold'
    obtain ⟨hnew, hroom⟩ := holds_resize new_array h' hold' junk
    refine ⟨rfl, .inl ⟨_, rfl, nofun, nofun, rfl, rfl, ?_, hne.symm, rfl, rfl, hnew, hroom⟩⟩
    obtain ⟨hle, arr, harr, hrest⟩ := h'
    exact ⟨hle, arr, (Function.update_of_ne hne _ _).trans harr, hrest⟩
  | free new head tail =>
    obtain ⟨hne, rfl, rfl, ⟨hle, arr, harr, hrest⟩, arr', harr', hroom⟩ := hi
    obtain ⟨-, old, hold, -⟩ := h
    have hold' : q.arrays q.array = some old := hold
    simp only [tlQueuePush, hold', Option.bind_eq_bind, Option.bind_some] at hq
    cases hq
    exact ⟨rfl, .inl ⟨_, rfl, nofun, nofun, rfl, rfl,
      ⟨hle, arr, (Function.update_of_ne hne _ _).trans harr, hrest⟩, rfl, rfl,
      arr', (Function.update_of_ne hne _ _).trans harr', hroom⟩⟩
  | storeArray new head tail =>
    obtain ⟨rfl, rfl, hroom⟩ := hi
    cases hq
    exact ⟨rfl, .inl ⟨_, rfl, nofun, nofun, rfl, rfl, h, rfl, rfl, rfl, hroom⟩⟩
  | set arr head tail =>
    obtain ⟨rfl, rfl, rfl, a, ha, hroom⟩ := hi
    obtain ⟨hle, a', ha', hwf, hfit, hw⟩ := h
    obtain rfl := Option.some.inj (ha.symm.trans ha')
    simp only [tlQueuePush, ha, Option.bind_eq_bind, Option.bind_some] at hq
    cases hq
    refine ⟨rfl, .inl ⟨_, rfl, nofun, nofun, rfl, rfl,
      ⟨hle, _, Function.update_self .., caSet_wellFormed hwf _ _, hfit, ?_⟩, rfl,
      _, Function.update_self .., hroom, caGet_caSet ..⟩⟩
    rw [← hw]
    refine caWindow_congr fun j h1 h2 => caGet_caSet_of_lt hwf h2 ?_ _
    simp only at h1 h2 ⊢
    omega
  | storeTail tail =>
    obtain ⟨rfl, arr, harr, hroom, hget⟩ := hi
    cases hq
    exact ⟨rfl, .inr (.inl ⟨rfl, nofun, rfl, holds_snoc h harr hroom hget⟩)⟩
  | release =>
    cases hq
    exact ⟨rfl, .inr (.inr ⟨rfl, rfl, rfl⟩)⟩

theorem take_step {items : List α} {q q' : TlQueue α} {pc : Take α}
    {o : Outcome (Take α) (Option α)} (h : Holds items q q.array) (hi : TakeInv items q pc)
    (hpc : insideTake pc = true) (hq : takeLocked q pc = some (q', o)) :
    q'.buffer = q.buffer ∧
    ((∃ pc', o = .run pc' ∧ (∀ r, pc' ≠ .release r) ∧ (∀ r, pc ≠ .release r) ∧
        insideTake pc' = true ∧ q' = q ∧ TakeInv items q pc') ∨
      (o = .run (.release items.head?) ∧ (∀ r, pc ≠ .release r) ∧ q'.locked = q.locked ∧
        Holds items.tail q' q'.array) ∨
      (∃ r, o = .done r ∧ pc = .release r ∧ q' = { q with locked := false })) := by
  cases pc with
  | acquire => cases hpc
  | load =>
    by_cases he : q.head = q.tail
    · obtain rfl := (holds_items h).mpr he
      simp only [takeLocked, if_pos he] at hq
      cases hq
      exact ⟨rfl, .inr (.inl ⟨rfl, nofun, rfl, h⟩)⟩
    · simp only [takeLocked, if_neg he] at hq
      cases hq
      exact ⟨rfl, .inl ⟨_, rfl, nofun, nofun, rfl, rfl, rfl, rfl, lt_of_le_of_ne h.1 he⟩⟩
  | get arr head =>
    obtain ⟨rfl, rfl, hlt⟩ := hi
    obtain ⟨a, elt, rest, ha, rfl, hget, -⟩ := holds_cons h hlt
    simp only [takeLocked, ha, Option.bind_eq_bind, Option.bind_some] at hq
    cases hq
    exact ⟨rfl, .inl ⟨_, rfl, nofun, nofun, rfl, rfl, rfl, hlt, hget⟩⟩
  | storeHead head elt =>
    obtain ⟨rfl, hlt, rfl⟩ := hi
    obtain ⟨a, elt, rest, ha, rfl, -, hrest⟩ := holds_cons h hlt
    cases hq
    exact ⟨rfl, .inr (.inl ⟨rfl, nofun, rfl, hrest⟩)⟩
  | release r =>
    cases hq
    exact ⟨rfl, .inr (.inr ⟨r, rfl, rfl, rfl⟩)⟩

theorem push_progress {items : List α} {elt : α} {q : TlQueue α} {pc : Push}
    (h : Holds items q (pushArray q pc)) (hi : PushInv items elt q pc) (new_array : ℕ)
    (junk : ℤ → Option α) : ∃ r, tlQueuePush new_array junk (some elt) q pc = some r := by
  cases pc with
  | acquire =>
    simp only [tlQueuePush]
    split <;> exact ⟨_, rfl⟩
  | load =>
    obtain ⟨-, arr, harr, -⟩ := h
    have harr' : q.arrays q.array = some arr := harr
    simp only [tlQueuePush, harr', Option.bind_eq_bind, Option.bind_some]
    split <;> exact ⟨_, rfl⟩
  | resize arr head tail =>
    obtain ⟨rfl, rfl, rfl⟩ := hi
    obtain ⟨-, old, hold, -⟩ := h
    have hold' : q.arrays q.array = some old := hold
    exact ⟨_, by simp only [tlQueuePush, hold', Option.bind_eq_bind, Option.bind_some]; rfl⟩
  | free new head tail =>
    obtain ⟨-, old, hold, -⟩ := h
    have hold' : q.arrays q.array = some old := hold
    exact ⟨_, by simp only [tlQueuePush, hold', Option.bind_eq_bind, Option.bind_some]; rfl⟩
  | set arr head tail =>
    obtain ⟨rfl, rfl, rfl, a, ha, -⟩ := hi
    exact ⟨_, by simp only [tlQueuePush, ha, Option.bind_eq_bind, Option.bind_some]; rfl⟩
  | _ => exact ⟨_, rfl⟩

theorem take_progress {items : List α} {q : TlQueue α} {pc : Take α}
    (h : Holds items q q.array) (hi : TakeInv items q pc) : ∃ r, takeLocked q pc = some r := by
  cases pc with
  | acquire | load =>
    simp only [takeLocked]
    split <;> exact ⟨_, rfl⟩
  | get arr head =>
    obtain ⟨rfl, rfl, -⟩ := hi
    obtain ⟨-, arr, harr, -⟩ := h
    exact ⟨_, by simp only [takeLocked, harr, Option.bind_eq_bind, Option.bind_some]; rfl⟩
  | _ => exact ⟨_, rfl⟩

end Libseff.LockedQueueSections
