import Libseff.TokioSafety
import Libseff.TokioCalls

namespace Libseff.TokioLinear

open CircularArrays TransitionRuns AtomicObjects SlotQueues TokioSteps TokioInvariant TokioPush
  TokioQueue TokioSafety TokioCalls

variable {ι α : Type}

def elt (r : QueueElt α) : Option (Elt α) :=
  if h : isElt r = true then some ⟨r, h⟩ else none

theorem elt_val (x : Elt α) : elt x.val = some x := dif_pos x.property

theorem elt_empty : elt (.EMPTY : QueueElt α) = none := rfl

theorem eq_value_elt (r : QueueElt α) : r = value (elt r) := by
  cases r <;> rfl

abbrev CallEvent (ι α : Type) := HistoryEvent (Option ι) (Op (Elt α)) (Option (Elt α))

def ownerReturn : Owner α → Event ι α → Option (CallEvent ι α)
  | .idle, e => some (.ret none (e.result.bind elt))
  | _, _ => none

def thiefReturn (i : ι) : Thief α → Event ι α → Option (CallEvent ι α)
  | .idle, e => some (.ret (some i) (e.result.bind elt))
  | _, _ => none

def callEvent (s : State ι α) : Action ι α → Option (CallEvent ι α)
  | .callPush x => (elt x).map fun x => .call none (.push x)
  | .callPriorityPush x => (elt x).map fun x => .call none (.priorityPush x)
  | .callPop => some (.call none .pop)
  | .callSteal i => some (.call (some i) .steal)
  | .owner junk =>
    (ownerStep ι junk s.queue s.owner).bind fun (_, o, e) => ownerReturn o e
  | .thief i =>
    (thiefStep i s.queue (s.thief i)).bind fun (_, t, e) => thiefReturn i t e

def pushesElt : Action ι α → Prop
  | .callPush x | .callPriorityPush x => isElt x = true
  | _ => True

def tkHistories (ι α : Type) [DecidableEq ι] (log_size : ℕ) :
    System (State ι α) (Action ι α) (Option (CallEvent ι α)) :=
  ((tkSystem ι α log_size).restrict fun s a => holdsElement s a ∧ pushesElt a).relabel callEvent

def allowed (s : State ι α) : Action ι α → Bool
  | .callPush x | .callPriorityPush x => isElt x
  | .thief i =>
    match s.thief i with
    | .steal (.cas arr head _) =>
      decide (s.queue.head ≠ head) || (s.queue.replaced arr).all fun tail => decide (head < tail)
    | _ => true
  | _ => true

def thiefPhase : Thief α → Phase (Op (Elt α)) (Option (Elt α))
  | .idle => .idle
  | .steal _ => .pending .steal

/-- Where the owner is in its call. A push that a priority push has called stores
the element that the slot of the object still has. -/
def OwnerAt (q : TkQueue α) (slot : Option (Elt α)) (x : Phase (Op (Elt α)) (Option (Elt α))) :
    Owner α → Prop
  | .idle => q.buffer = value slot ∧ x = .idle
  | .push elt _ =>
    (∃ y, elt = y.val ∧ q.buffer = value slot ∧ x = .pending (.push y)) ∨
      ∃ y old_buffer, elt = old_buffer.val ∧ q.buffer = y.val ∧ slot = some old_buffer ∧
        x = .pending (.priorityPush y)
  | .priorityPush elt => ∃ y, elt = y.val ∧ q.buffer = value slot ∧ x = .pending (.priorityPush y)
  | .pop => q.buffer = value slot ∧ x = .pending .pop
  | .popLoop _ => q.buffer = .EMPTY ∧ slot = none ∧ x = .pending .pop

/-- The queue stands for the object `a` whose calls are at the points `p`: all
operations take place where they return. -/
structure Sim (s : State ι α) (a : SlotQueue (Elt α))
    (p : Option ι → Phase (Op (Elt α)) (Option (Elt α))) : Prop where
  items : ∃ tr, Inv tr s ∧ (appended tr).drop s.queue.head.toNat = a.items.map Subtype.val
  owner : OwnerAt s.queue a.slot (p none) s.owner
  thief : ∀ i, p (some i) = thiefPhase (s.thief i)

variable {s : State ι α} {a : SlotQueue (Elt α)}
  {p : Option ι → Phase (Op (Elt α)) (Option (Elt α))} {hist : List (CallEvent ι α)}

theorem may_of_allowed {x : Action ι α} (h : allowed s x = true) :
    True ∧ holdsElement s x ∧ pushesElt x := by
  cases x with
  | callPush x | callPriorityPush x => exact ⟨trivial, trivial, h⟩
  | thief i =>
    refine ⟨trivial, fun arr head elt ht hhead tail htail => ?_, trivial⟩
    simp only [allowed, ht, hhead, ne_eq, not_true_eq_false, decide_false, Bool.false_or, htail,
      Option.all_some, decide_eq_true_eq] at h
    exact h
  | _ => exact ⟨trivial, trivial, trivial⟩

theorem takeLoop_done {q q' : TkQueue α} {pc : Take α} {r : QueueElt α}
    (h : takeLoop q pc = (q', .done r)) :
    (∃ arr, pc = .loadTail arr q.tail ∧ q' = q ∧ r = .EMPTY) ∨
      ∃ arr, pc = .cas arr q.head r ∧ q' = { q with head := q.head + 1 } := by
  cases pc with
  | loadTail arr head =>
    simp only [takeLoop] at h
    split at h
    · rename_i heq
      subst heq
      cases h
      exact .inl ⟨arr, rfl, rfl, rfl⟩
    · cases h
  | cas arr head elt =>
    simp only [takeLoop] at h
    split at h
    · rename_i heq
      subst heq
      cases h
      exact .inr ⟨arr, rfl, rfl⟩
    · cases h
  | _ => cases h

theorem items_empty {log : List (QueueElt α)} {q : TkQueue α} (h : QueueInv log q) {arr : ℕ}
    (hi : TakeInv log q (.loadTail arr q.tail)) {items : List (Elt α)}
    (hitems : log.drop q.head.toNat = items.map Subtype.val) : items = [] := by
  have hle : q.tail ≤ q.head := hi.2
  have htail := h.tail_eq
  rw [List.drop_of_length_le (by omega)] at hitems
  exact List.map_eq_nil_iff.mp hitems.symm

theorem items_cons {log : List (QueueElt α)} {q : TkQueue α} (h : QueueInv log q) {r : QueueElt α}
    (hr : log[q.head.toNat]? = some r) {items : List (Elt α)}
    (hitems : log.drop q.head.toNat = items.map Subtype.val) :
    ∃ x rest, items = x :: rest ∧ r = x.val ∧
      log.drop (q.head + 1).toNat = rest.map Subtype.val := by
  obtain ⟨hlt, rfl⟩ := List.getElem?_eq_some_iff.mp hr
  have hnonneg := h.head_nonneg
  have hnext : (q.head + 1).toNat = q.head.toNat + 1 := by omega
  rw [List.drop_eq_getElem_cons hlt] at hitems
  obtain ⟨x, rest, rfl, hx, hrest⟩ := List.map_eq_cons_iff.mp hitems.symm
  exact ⟨x, rest, rfl, hx.symm, by rw [hnext, hrest]⟩

variable [DecidableEq ι]

theorem owner_quiet (h : Sim s a p) (hl : Linearized (slotQueue (Elt α)) hist a p)
    {tr : List (Event ι α)} {q : TkQueue α} {o : Owner α}
    (hinv : Inv tr { s with queue := q, owner := o })
    (hitems : (appended tr).drop q.head.toNat = a.items.map Subtype.val)
    (ho : OwnerAt q a.slot (p none) o) :
    ∃ a' p', Sim { s with queue := q, owner := o } a' p' ∧
      Linearized (slotQueue (Elt α)) (hist ++ []) a' p' :=
  ⟨a, p, ⟨⟨tr, hinv, hitems⟩, ho, h.thief⟩, hist.append_nil.symm ▸ hl⟩

theorem owner_returns (h : Sim s a p) (hl : Linearized (slotQueue (Elt α)) hist a p)
    {op : Op (Elt α)} (hpending : p none = .pending op) {tr : List (Event ι α)} {q : TkQueue α}
    (hinv : Inv tr { s with queue := q, owner := .idle })
    (hitems : (appended tr).drop q.head.toNat =
      ((slotQueue (Elt α)).apply op a).1.items.map Subtype.val)
    (hslot : q.buffer = value ((slotQueue (Elt α)).apply op a).1.slot) :
    ∃ a' p', Sim { s with queue := q, owner := .idle } a' p' ∧ Linearized (slotQueue (Elt α))
      (hist ++ [.ret none ((slotQueue (Elt α)).apply op a).2]) a' p' := by
  refine ⟨_, _, ⟨⟨tr, hinv, hitems⟩, ⟨hslot, Function.update_self ..⟩, fun i => ?_⟩,
    hl.point_ret hpending⟩
  rw [Function.update_of_ne (Option.some_ne_none i)]
  exact h.thief i

theorem push_answered (h : Sim s a p) (hl : Linearized (slotQueue (Elt α)) hist a p)
    {tr : List (Event ι α)} (hi : Inv tr s)
    (hitems : (appended tr).drop s.queue.head.toNat = a.items.map Subtype.val) {x : QueueElt α}
    {pc : Push α} (hpc : s.owner = .push x pc) {junk : ℤ → QueueElt α} {q : TkQueue α} {o : Owner α}
    {e : Event ι α} (hs : ownerStep ι junk s.queue s.owner = some (q, o, e)) :
    ∃ a' p', Sim { s with queue := q, owner := o } a' p' ∧
      Linearized (slotQueue (Elt α)) (hist ++ (ownerReturn o e).toList) a' p' := by
  have hinv := owner_push hi hpc hs
  have hat := h.owner
  have hpush := hi.owner
  rw [hpc] at hat hpush
  simp only [ownerStep, hpc] at hs
  rcases hq : tkQueuePush junk x s.queue pc with ⟨q', pc' | ⟨⟩⟩
  · cases hq ▸ hs
    obtain ⟨hsilent, -⟩ := push_step hi.queue hpush hq
    refine owner_quiet h hl hinv ?_ ?_
    · rw [appended_append, hsilent.head]
      exact (congrArg (List.drop _) (List.append_nil _)).trans hitems
    · rw [OwnerAt, hsilent.buffer]
      exact hat
  · cases hq ▸ hs
    obtain ⟨rfl, -⟩ := push_done hi.queue hpush hq
    have hlength : s.queue.head.toNat ≤ (appended tr).length := by
      have hle := hi.queue.head_le
      have htail := hi.queue.tail_eq
      omega
    have hlog : (appended (tr ++ [(⟨none, none, some x, none⟩ : Event ι α)])).drop
        s.queue.head.toNat = a.items.map Subtype.val ++ [x] := by
      rw [appended_append, ← hitems]
      exact List.drop_append_of_le_length hlength
    obtain ⟨y, rfl, hbuffer, hpending⟩ | ⟨y, old_buffer, rfl, hbuffer, hslot, hpending⟩ := hat
    · refine owner_returns h hl hpending hinv (hlog.trans ?_) hbuffer
      change _ = (a.items ++ [y]).map Subtype.val
      rw [List.map_append]
      rfl
    · refine owner_returns h hl hpending hinv (hlog.trans ?_) hbuffer
      change _ = (a.items ++ a.slot.toList).map Subtype.val
      rw [hslot, List.map_append]
      rfl

theorem priorityPush_answered (h : Sim s a p) (hl : Linearized (slotQueue (Elt α)) hist a p)
    {tr : List (Event ι α)} (hi : Inv tr s)
    (hitems : (appended tr).drop s.queue.head.toNat = a.items.map Subtype.val) {x : QueueElt α}
    (hpc : s.owner = .priorityPush x) {junk : ℤ → QueueElt α} {q : TkQueue α} {o : Owner α}
    {e : Event ι α} (hs : ownerStep ι junk s.queue s.owner = some (q, o, e)) :
    ∃ a' p', Sim { s with queue := q, owner := o } a' p' ∧
      Linearized (slotQueue (Elt α)) (hist ++ (ownerReturn o e).toList) a' p' := by
  have hinv := owner_priorityPush hi hpc hs
  have hat := h.owner
  rw [hpc] at hat
  obtain ⟨y, rfl, hbuffer, hpending⟩ := hat
  simp only [ownerStep, hpc, Option.some.injEq, Prod.mk.injEq] at hs
  obtain ⟨hq, ho, rfl⟩ := hs
  have hlog : (appended (tr ++ [(⟨none, none, none, none⟩ : Event ι α)])).drop
      s.queue.head.toNat = a.items.map Subtype.val := by
    rw [appended_append]
    exact (congrArg (List.drop _) (List.append_nil _)).trans hitems
  rw [tkQueuePriorityPush] at hq ho
  cases hslot : a.slot with
  | none =>
    rw [hslot] at hbuffer
    simp only [hbuffer, value] at hq ho
    subst hq ho
    refine owner_returns h hl hpending hinv (hlog.trans ?_) rfl
    change _ = (a.items ++ a.slot.toList).map Subtype.val
    rw [hslot, Option.toList_none, List.append_nil]
  | some old_buffer =>
    rw [hslot] at hbuffer
    have hfull : isElt s.queue.buffer = true := hbuffer ▸ old_buffer.property
    have hstate : q = { s.queue with buffer := y.val } ∧
        o = .push old_buffer.val .loadArray := by
      cases hb : s.queue.buffer with
      | EMPTY =>
        rw [hb] at hfull
        cases hfull
      | _ =>
        simp only [hb] at hq ho
        exact ⟨hq.symm, by rw [← ho, ← hb, hbuffer, value]⟩
    obtain ⟨rfl, rfl⟩ := hstate
    exact owner_quiet h hl hinv hlog (.inr ⟨y, old_buffer, rfl, rfl, hslot, hpending⟩)

theorem pop_answered (h : Sim s a p) (hl : Linearized (slotQueue (Elt α)) hist a p)
    {tr : List (Event ι α)} (hi : Inv tr s)
    (hitems : (appended tr).drop s.queue.head.toNat = a.items.map Subtype.val)
    (hpc : s.owner = .pop) {junk : ℤ → QueueElt α} {q : TkQueue α} {o : Owner α}
    {e : Event ι α} (hs : ownerStep ι junk s.queue s.owner = some (q, o, e)) :
    ∃ a' p', Sim { s with queue := q, owner := o } a' p' ∧
      Linearized (slotQueue (Elt α)) (hist ++ (ownerReturn o e).toList) a' p' := by
  have hinv := owner_pop hi hpc hs
  have hat := h.owner
  rw [hpc] at hat
  obtain ⟨hbuffer, hpending⟩ := hat
  simp only [ownerStep, hpc, tkQueuePop] at hs
  cases hslot : a.slot with
  | none =>
    rw [hslot] at hbuffer
    simp only [hbuffer, value] at hs
    cases hs
    refine owner_quiet h hl hinv ?_ ⟨hbuffer, hslot, hpending⟩
    rw [appended_append]
    exact (congrArg (List.drop _) (List.append_nil _)).trans hitems
  | some x =>
    rw [hslot] at hbuffer
    have hfull : isElt s.queue.buffer = true := hbuffer ▸ x.property
    have happly : (slotQueue (Elt α)).apply Op.pop a = ({ a with slot := none }, some x) :=
      pop_of_some hslot
    have hstate : q = { s.queue with buffer := .EMPTY } ∧ o = .idle ∧
        e = ⟨none, none, none, some x.val⟩ := by
      cases hb : s.queue.buffer with
      | EMPTY =>
        rw [hb] at hfull
        cases hfull
      | _ =>
        simp only [hb, Option.some.injEq, Prod.mk.injEq] at hs
        obtain ⟨rfl, rfl, rfl⟩ := hs
        exact ⟨rfl, rfl, by rw [← hb, hbuffer, value]⟩
    obtain ⟨rfl, rfl, rfl⟩ := hstate
    have hnext := owner_returns h hl hpending hinv (by
      rw [happly, appended_append]
      exact (congrArg (List.drop _) (List.append_nil _)).trans hitems) (by rw [happly]; rfl)
    rw [happly] at hnext
    rw [ownerReturn, Option.bind_some, elt_val]
    exact hnext

theorem popLoop_answered (h : Sim s a p) (hl : Linearized (slotQueue (Elt α)) hist a p)
    {tr : List (Event ι α)} (hi : Inv tr s)
    (hitems : (appended tr).drop s.queue.head.toNat = a.items.map Subtype.val) {pc : Take α}
    (hpc : s.owner = .popLoop pc) {junk : ℤ → QueueElt α} {q : TkQueue α} {o : Owner α}
    {e : Event ι α} (hs : ownerStep ι junk s.queue s.owner = some (q, o, e)) :
    ∃ a' p', Sim { s with queue := q, owner := o } a' p' ∧
      Linearized (slotQueue (Elt α)) (hist ++ (ownerReturn o e).toList) a' p' := by
  have hinv := owner_popLoop hi hpc hs
  have hat := h.owner
  have htake := hi.owner
  rw [hpc] at hat htake
  obtain ⟨hbuffer, hslot, hpending⟩ := hat
  obtain ⟨htake, harr⟩ := htake
  have happly : (slotQueue (Elt α)).apply Op.pop a = SlotQueues.steal a := pop_of_none hslot
  simp only [ownerStep, hpc] at hs
  rcases hq : takeLoop s.queue pc with ⟨q', pc' | r⟩
  · cases hq ▸ hs
    obtain ⟨rfl, -⟩ := take_step hi.queue htake hq
    refine owner_quiet h hl hinv ?_ ⟨hbuffer, hslot, hpending⟩
    rw [appended_append]
    exact (congrArg (List.drop _) (List.append_nil _)).trans hitems
  · cases hq ▸ hs
    have hlog : ∀ i, (appended (tr ++ [(⟨none, none, none, some r⟩ : Event ι α)])).drop i =
        (appended tr).drop i := fun i => by
      rw [appended_append]
      exact congrArg (List.drop _) (List.append_nil _)
    obtain ⟨arr, rfl, rfl, rfl⟩ | ⟨arr, rfl, rfl⟩ := takeLoop_done hq
    · have hempty := items_empty hi.queue htake hitems
      have hsteal : SlotQueues.steal a = (a, none) := by
        obtain ⟨slot, items⟩ := a
        cases hempty
        rfl
      have hnext := owner_returns h hl hpending hinv (by rw [hlog, happly, hsteal]; exact hitems)
        (by rw [happly, hsteal, hslot]; exact hbuffer)
      rw [happly, hsteal] at hnext
      exact hnext
    · obtain rfl := harr arr rfl
      obtain ⟨-, -, hlt, hget⟩ := htake
      obtain ⟨x, rest, hfirst, rfl, hrest⟩ := items_cons hi.queue
        (hget rfl (hlt.trans_eq (bound_current hi.queue).symm)) hitems
      have hsteal : SlotQueues.steal a = ({ a with items := rest }, some x) := by
        rw [SlotQueues.steal, hfirst]
        rfl
      have hnext := owner_returns h hl hpending hinv (by rw [hlog, happly, hsteal]; exact hrest)
        (by rw [happly, hsteal]; exact hbuffer.trans (congrArg value hslot).symm)
      rw [happly, hsteal] at hnext
      rw [ownerReturn, Option.bind_some, elt_val]
      exact hnext

theorem owner_answered (h : Sim s a p) (hl : Linearized (slotQueue (Elt α)) hist a p)
    {junk : ℤ → QueueElt α} {q : TkQueue α} {o : Owner α} {e : Event ι α}
    (hs : ownerStep ι junk s.queue s.owner = some (q, o, e)) :
    ∃ a' p', Sim { s with queue := q, owner := o } a' p' ∧
      Linearized (slotQueue (Elt α)) (hist ++ (ownerReturn o e).toList) a' p' := by
  obtain ⟨tr, hi, hitems⟩ := h.items
  cases hpc : s.owner with
  | idle => simp [ownerStep, hpc] at hs
  | push x pc => exact push_answered h hl hi hitems hpc hs
  | priorityPush x => exact priorityPush_answered h hl hi hitems hpc hs
  | pop => exact pop_answered h hl hi hitems hpc hs
  | popLoop pc => exact popLoop_answered h hl hi hitems hpc hs

theorem sim_thief (h : Sim s a p) (a' : SlotQueue (Elt α)) {tr : List (Event ι α)} {q : TkQueue α}
    {i : ι} {t : Thief α}
    (hinv : Inv tr { s with queue := q, thief := Function.update s.thief i t })
    (hitems : (appended tr).drop q.head.toNat = a'.items.map Subtype.val)
    (hslot : a'.slot = a.slot) (hbuffer : q.buffer = s.queue.buffer) :
    Sim { s with queue := q, thief := Function.update s.thief i t } a'
      (Function.update p (some i) (thiefPhase t)) := by
  refine ⟨⟨tr, hinv, hitems⟩, ?_, fun j => ?_⟩
  · rw [Function.update_of_ne (Option.some_ne_none i).symm, hslot]
    have hat := h.owner
    revert hat
    cases s.owner <;> simp only [OwnerAt, hbuffer] <;> exact id
  · by_cases hj : j = i
    · subst hj
      simp only [Function.update_self]
    · rw [Function.update_of_ne fun he => hj (Option.some.inj he), h.thief]
      simp only [Function.update_of_ne hj]

theorem thief_answered (h : Sim s a p) (hl : Linearized (slotQueue (Elt α)) hist a p) {i : ι}
    (hok : holdsElement s (.thief i)) {q : TkQueue α} {t : Thief α} {e : Event ι α}
    (hs : thiefStep i s.queue (s.thief i) = some (q, t, e)) :
    ∃ a' p', Sim { s with queue := q, thief := Function.update s.thief i t } a' p' ∧
      Linearized (slotQueue (Elt α)) (hist ++ (thiefReturn i t e).toList) a' p' := by
  obtain ⟨tr, hi, hitems⟩ := h.items
  have hinv := thief_step hi hok hs
  have htake := hi.thief i
  cases hpc : s.thief i with
  | idle => simp [thiefStep, hpc] at hs
  | steal pc =>
    have hpending : p (some i) = .pending .steal := by rw [h.thief, hpc, thiefPhase]
    simp only [thiefStep, hpc, tkQueueSteal] at hs
    rw [hpc] at htake
    rcases hq : takeLoop s.queue pc with ⟨q', pc' | r⟩
    · cases hq ▸ hs
      obtain ⟨rfl, -⟩ := take_step hi.queue htake hq
      have hsim := sim_thief h a hinv (by
        rw [appended_append]
        exact (congrArg (List.drop _) (List.append_nil _)).trans hitems) rfl rfl
      rw [thiefPhase, ← hpending, Function.update_eq_self] at hsim
      exact ⟨a, p, hsim, hist.append_nil.symm ▸ hl⟩
    · cases hq ▸ hs
      have hlog : ∀ k, (appended (tr ++ [(⟨some i, none, none, some r⟩ : Event ι α)])).drop k =
          (appended tr).drop k := fun k => by
        rw [appended_append]
        exact congrArg (List.drop _) (List.append_nil _)
      have hpoint := hl.point_ret hpending
      obtain ⟨arr, rfl, rfl, rfl⟩ | ⟨arr, rfl, rfl⟩ := takeLoop_done hq
      · have hempty := items_empty hi.queue htake hitems
        have hsteal : (slotQueue (Elt α)).apply Op.steal a = (a, none) := by
          obtain ⟨slot, items⟩ := a
          cases hempty
          rfl
        rw [hsteal] at hpoint
        exact ⟨a, _, sim_thief h a hinv ((hlog _).trans hitems) rfl rfl, hpoint⟩
      · obtain ⟨-, -, hlt, hget⟩ := htake
        obtain ⟨x, rest, hfirst, rfl, hrest⟩ := items_cons hi.queue
          (hget rfl (lt_bound hlt (hok _ _ _ hpc rfl))) hitems
        have hsteal : (slotQueue (Elt α)).apply Op.steal a =
            ({ a with items := rest }, some x) := by
          change SlotQueues.steal a = _
          rw [SlotQueues.steal, hfirst]
          rfl
        rw [hsteal] at hpoint
        refine ⟨_, _, sim_thief h { a with items := rest } hinv ((hlog _).trans hrest) rfl rfl, ?_⟩
        rw [thiefReturn, Option.bind_some, elt_val]
        exact hpoint

theorem call_answered (h : Sim s a p) (hl : Linearized (slotQueue (Elt α)) hist a p)
    {tr : List (Event ι α)} {e : Event ι α} (he : e.appended = none) {o : Owner α} {op : Op (Elt α)}
    (ho : s.owner = .idle) (hinv : Inv (tr ++ [e]) { s with owner := o })
    (hitems : (appended tr).drop s.queue.head.toNat = a.items.map Subtype.val)
    (hat : s.queue.buffer = value a.slot → OwnerAt s.queue a.slot (.pending op) o) :
    ∃ a' p', Sim { s with owner := o } a' p' ∧
      Linearized (slotQueue (Elt α)) (hist ++ [.call none op]) a' p' := by
  have hidle := h.owner
  rw [ho] at hidle
  refine ⟨a, _, ⟨⟨_, hinv, ?_⟩, ?_, fun i => ?_⟩, hl.call op hidle.2⟩
  · rw [appended_append, he, Option.toList_none, List.append_nil]
    exact hitems
  · rw [Function.update_self]
    exact hat hidle.1
  · rw [Function.update_of_ne (Option.some_ne_none i)]
    exact h.thief i

theorem step_answered (h : Sim s a p) (hl : Linearized (slotQueue (Elt α)) hist a p)
    {x : Action ι α} {s' : State ι α} {e : Event ι α} (hok : holdsElement s x)
    (hpushes : pushesElt x) (hs : step s x = some (s', e)) :
    ∃ a' p', Sim s' a' p' ∧
      Linearized (slotQueue (Elt α)) (hist ++ (callEvent s x).toList) a' p' := by
  obtain ⟨tr, hi, hitems⟩ := h.items
  have hinv := inv_step hi hok hs
  cases x with
  | callPush x | callPriorityPush x =>
    have helt : elt x = some ⟨x, hpushes⟩ := dif_pos hpushes
    rw [callEvent, helt]
    simp only [step] at hs
    split at hs
    · rename_i ho
      cases hs
      refine call_answered h hl rfl ho hinv hitems fun hbuffer => ?_
      first
        | exact .inl ⟨_, rfl, hbuffer, rfl⟩
        | exact ⟨_, rfl, hbuffer, rfl⟩
    · cases hs
  | callPop =>
    simp only [step] at hs
    split at hs
    · rename_i ho
      cases hs
      exact call_answered h hl rfl ho hinv hitems fun hbuffer => ⟨hbuffer, rfl⟩
    · cases hs
  | owner junk =>
    simp only [step, Option.map_eq_some_iff] at hs
    obtain ⟨⟨q, o, e⟩, ho, he⟩ := hs
    cases he
    rw [callEvent, ho]
    exact owner_answered h hl ho
  | callSteal i =>
    simp only [step] at hs
    split at hs
    · rename_i ht
      cases hs
      have hidle : p (some i) = .idle := by rw [h.thief, ht, thiefPhase]
      have hcall := hl.call .steal hidle
      refine ⟨a, _, sim_thief h a (t := .steal .loadArray) hinv ?_ rfl rfl, hcall⟩
      rw [appended_append]
      exact (congrArg (List.drop _) (List.append_nil _)).trans hitems
    · cases hs
  | thief i =>
    simp only [step, Option.map_eq_some_iff] at hs
    obtain ⟨⟨q, t, e⟩, ht, he⟩ := hs
    cases he
    rw [callEvent, ht]
    exact thief_answered h hl hok ht

omit [DecidableEq ι] in
theorem sim_init (log_size : ℕ) (junk : ℤ → QueueElt α) :
    Sim (⟨tkQueueInit log_size junk, .idle, fun _ => .idle⟩ : State ι α)
      (slotQueue (Elt α)).init fun _ => .idle :=
  ⟨⟨[], inv_init log_size junk, rfl⟩, ⟨rfl, rfl⟩, fun _ => rfl⟩

omit [DecidableEq ι] in
theorem contents_of_sim (h : Sim s a p) (ho : s.owner = .idle) :
    tkContents s.queue = slotContents a := by
  obtain ⟨tr, hi, hitems⟩ := h.items
  have hat := h.owner
  rw [ho] at hat
  have hbuffer := hat.1
  have hq := hi.queue
  have hwindow : caWindow (s.queue.arrays s.queue.array) s.queue.head s.queue.tail =
      (appended tr).drop s.queue.head.toNat := by
    have hnonneg := hq.head_nonneg
    have hle := hq.head_le
    have htail := hq.tail_eq
    apply List.ext_getElem?
    intro k
    rw [caWindow, List.getElem?_map, List.getElem?_drop]
    by_cases hk : k < (s.queue.tail - s.queue.head).toNat
    · have hindex : s.queue.head.toNat + k = (s.queue.head + k).toNat := by omega
      have hholds := hq.holds s.queue.array (.inl rfl) (s.queue.head + k) (by omega)
        (by rw [bound_current hq]; omega)
      rw [hindex, hholds, List.getElem?_range hk, Option.map_some]
    · rw [List.getElem?_eq_none (by rw [List.length_range]; omega), Option.map_none,
        List.getElem?_eq_none (by omega)]
  rw [tkContents, slotContents, hbuffer, hwindow, hitems]

/-- The lock-free queue has the histories of the same object as the locked one,
as long as no steal takes an element that the array it loaded never held. -/
theorem tkQueue_linearizable {log_size : ℕ} {trh : List (Option (CallEvent ι α))}
    (h : Run (tkHistories ι α log_size) trh s) :
    ∃ a p, Linearized (slotQueue (Elt α)) (trh.flatMap Option.toList) a p ∧
      (s.owner = .idle → tkContents s.queue = slotContents a) := by
  obtain ⟨a, p, hsim, hl⟩ := Linearized.of_run (O := slotQueue (Elt α)) Option.toList Sim
    (by
      rintro s ⟨junk, rfl⟩
      exact sim_init log_size junk)
    (fun s x s' e hist a p hsim hl hm hs => by
      obtain ⟨⟨u, e⟩, hu, he⟩ := Option.map_eq_some_iff.mp hs
      cases he
      exact step_answered hsim hl hm.2.1 hm.2.2 hu) h
  exact ⟨a, p, hl, contents_of_sim hsim⟩

theorem tkQueue_linearizable_displaced : ∃ tr s, Run (tkHistories Unit ℕ 0) tr s ∧
    tr.flatMap Option.toList =
      [.call none (.priorityPush ⟨.task 1, rfl⟩), .ret none none,
        .call none (.priorityPush ⟨.task 2, rfl⟩), .call (some ()) .steal, .ret none none,
        .call none (.push ⟨.task 3, rfl⟩), .ret none none,
        .ret (some ()) (some ⟨.task 1, rfl⟩)] ∧
    ∃ a p, Linearized (slotQueue (Elt ℕ)) (tr.flatMap Option.toList) a p := by
  let o : TokioSteps.Action Unit ℕ := .owner fun _ => .EMPTY
  let t : TokioSteps.Action Unit ℕ := .thief ()
  obtain ⟨tr, s, h, he⟩ : ∃ tr s, Run (tkHistories Unit ℕ 0) tr s ∧ tr.flatMap Option.toList =
      [.call none (.priorityPush ⟨.task 1, rfl⟩), .ret none none,
        .call none (.priorityPush ⟨.task 2, rfl⟩), .call (some ()) .steal, .ret none none,
        .call none (.push ⟨.task 3, rfl⟩), .ret none none,
        .ret (some ()) (some ⟨.task 1, rfl⟩)] :=
    Run.exists_of_exec (S := tkHistories Unit ℕ 0) (fun _ _ => may_of_allowed)
      [.callPriorityPush (.task 1), o, .callPriorityPush (.task 2), o, .callSteal (), t, t, o, o, o,
        o, o, .callPush (.task 3), o, o, o, o, o, o, o, o, t, t, t]
      ⟨fun _ => .EMPTY, rfl⟩ (fun p => p.2.flatMap Option.toList) rfl
  obtain ⟨a, p, hl, -⟩ := tkQueue_linearizable h
  exact ⟨tr, s, h, he, a, p, hl⟩

end Libseff.TokioLinear
