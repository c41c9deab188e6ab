import Libseff.NetCalls
import Libseff.TransitionRuns
import Mathlib.Data.List.Nodup

namespace Libseff.NetSendAll

open FixedWidth TransitionRuns NetCalls

/-- The variables of `await_send_all`; `n` has no value before the first
iteration. -/
structure SendAll where
  total : ℤ
  bytesleft : ℤ
  n : Option ℤ
  deriving DecidableEq

structure Iteration where
  answers : List Answer
  effects : List Effect
  n : ℤ
  deriving DecidableEq

def sendAllInit (bufsz : ℕ) : SendAll := ⟨0, int32 bufsz, none⟩

/-- `break` leaves `n` at -1. -/
def Continues (bufsz : ℕ) (s : SendAll) : Prop := s.n ≠ some (-1) ∧ sizeT s.total < bufsz

instance (bufsz : ℕ) (s : SendAll) : Decidable (Continues bufsz s) :=
  inferInstanceAs (Decidable (_ ∧ _))

/-- A sum that is too large for an `int` wraps around here. -/
def sendAllNext (s : SendAll) (n : ℤ) : SendAll :=
  if n = -1 then { s with n := some n }
  else ⟨int32 (s.total + n), int32 (s.bytesleft - n), some n⟩

def sendAllStep (bufsz : ℕ) (s : SendAll) (answers : List Answer) :
    Option (SendAll × Iteration) :=
  if Continues bufsz s then
    (complete (awaitSend s.total (sizeT s.bytesleft)) answers).map fun p =>
      (sendAllNext s p.1, ⟨answers, p.2, p.1⟩)
  else none

/-- The value returned, which an uninitialised `n` leaves undefined. -/
def sendAllResult (s : SendAll) : Option ℤ := s.n.map fun n => if n = -1 then -1 else s.total

/-- A successful `send` accepts at most what it is asked for, and something of a
range that is not empty. -/
def Accepts (bufsz : ℕ) (answers : List Answer) : Prop :=
  ∀ count, .send (some count) ∈ answers → count ≤ bufsz ∧ (0 < bufsz → 0 < count)

def sendAllSystem (bufsz : ℕ) : System SendAll (List Answer) Iteration where
  init s := s = sendAllInit bufsz
  may s answers := Accepts (sizeT s.bytesleft) answers
  step := sendAllStep bufsz

def NoHangup (answers : List Answer) : Prop :=
  ∀ ret revents, .poll ret revents ∈ answers → ret ≠ 0 → HANGUP &&& revents = 0

def accepted : Effect → List ℤ
  | .send offset _ (some count) => (List.range count).map fun k : ℕ => offset + k
  | _ => []

def acceptedBy (it : Iteration) : List ℤ := it.effects.flatMap accepted

def AsksWithin (bufsz : ℕ) : Effect → Prop
  | .send offset len _ => 0 ≤ offset ∧ offset + len ≤ bufsz
  | _ => True

/-- What `await_send_all` promises of the iterations so far and of its state
after them. -/
structure SendsAll (bufsz : ℕ) (tr : List Iteration) (s : SendAll) : Prop where
  in_order : ∃ m ≤ bufsz, tr.flatMap acceptedBy = (List.range m).map fun k : ℕ => (k : ℤ)
  within : ∀ it ∈ tr, ∀ e ∈ it.effects, AsksWithin bufsz e
  returns : ¬Continues bufsz s → ∃ r, sendAllResult s = some r ∧
    (r = -1 ↔ ∃ it ∈ tr, it.n < 0) ∧ (r ≠ -1 → r = bufsz)
  progress : ∀ tr' it rest, tr = tr' ++ it :: rest → acceptedBy it = [] →
    rest = [] ∧ ¬Continues bufsz s
  iterations_le : tr.length ≤ bufsz

inductive Sent (offset : ℤ) (len : ℕ) (answers : List Answer) : ℤ → List Effect → Prop
  | failed {es : List Effect} (hes : es.flatMap accepted = []) (h : NoHangup answers) :
      Sent offset len answers (-1) es
  | hangup {es : List Effect} (hes : es.flatMap accepted = []) (h : ¬NoHangup answers) :
      Sent offset len answers 0 es
  | sent {es : List Effect} {count : ℕ} (hpos : 0 < count) (hle : count ≤ len)
      (hes : es.flatMap accepted = (List.range count).map fun k : ℕ => offset + k)
      (h : NoHangup answers) : Sent offset len answers count es

theorem polled_noHangup {ps : List Answer} {revents : BitVec 16} (h : Polled ps revents) :
    NoHangup ps ↔ HANGUP &&& revents = 0 := by
  induction h with
  | @ready ret revents hret =>
    constructor
    · exact fun h => h ret revents (List.mem_singleton.mpr rfl) hret
    · rintro h _ _ hmem -
      cases List.mem_singleton.mp hmem
      exact h
  | @again answers revents revents' _ ih =>
    rw [← ih]
    constructor
    · exact fun h ret revents hmem => h ret revents (List.mem_cons_of_mem _ hmem)
    · intro h ret revents hmem hret
      obtain heq | hmem := List.mem_cons.mp hmem
      · cases heq
        exact absurd rfl hret
      · exact h ret revents hmem hret

theorem noHangup_append {answers answers' : List Answer} :
    NoHangup (answers ++ answers') ↔ NoHangup answers ∧ NoHangup answers' := by
  constructor
  · intro h
    exact ⟨fun ret revents hmem => h ret revents (List.mem_append_left _ hmem),
      fun ret revents hmem => h ret revents (List.mem_append_right _ hmem)⟩
  · rintro ⟨h, h'⟩ ret revents hmem
    obtain hmem | hmem := List.mem_append.mp hmem
    · exact h ret revents hmem
    · exact h' ret revents hmem

theorem noHangup_send (count : Option ℕ) : NoHangup [.send count] := by simp [NoHangup]

theorem noHangup_failed (err : ℤ) : NoHangup [.send none, .errno err] := by simp [NoHangup]

theorem sent_of_complete {offset : ℤ} {len : ℕ} {answers : List Answer} {n : ℤ} {es : List Effect}
    (hpos : 0 < len) (hlt : len < 2 ^ 31) (haccepts : Accepts len answers)
    (h : complete (awaitSend offset len) answers = some (n, es)) :
    Sent offset len answers n es ∧ ∀ e ∈ es, ∃ count, e = .send offset len count := by
  have hcount {count : ℕ} (hmem : .send (some count) ∈ answers) : int32 count = count := by
    have := (haccepts count hmem).1
    exact int32_natCast_of_lt (by omega)
  have hfailed {a : Answer} {n : ℤ} {es : List Effect} (hmem : a ∈ answers)
      (hf : send offset len a = some (n, es)) (hn : n < 0) :
      a = .send none ∧ es = [.send offset len none] := by
    obtain ⟨rfl, -, rfl⟩ | ⟨count, rfl, rfl, -⟩ := send_cases hf
    · exact ⟨rfl, rfl⟩
    · rw [hcount hmem] at hn
      omega
  cases complete_iff.mp h with
  | @immediate a n es hf hn =>
    obtain ⟨-, rfl, -⟩ | ⟨count, rfl, rfl, rfl⟩ := send_cases hf
    · cases hn
    · obtain ⟨hle, hcpos⟩ := haccepts count (by simp)
      rw [hcount (by simp)]
      exact ⟨Sent.sent (hcpos hpos) hle (by simp [accepted]) (noHangup_send _), by simp⟩
  | @failed a n err es hf hn herr =>
    obtain ⟨rfl, rfl⟩ := hfailed (by simp) hf hn
    cases hf
    exact ⟨Sent.failed rfl (noHangup_failed err), by simp⟩
  | @hangup a n err es ps revents hf hn herr hp hup =>
    obtain ⟨rfl, rfl⟩ := hfailed (by simp) hf hn
    refine ⟨Sent.hangup rfl fun hno => hup ?_, by simp⟩
    have hsplit := @noHangup_append [.send none, .errno err] ps
    exact (polled_noHangup hp).mp (hsplit.mp hno).2
  | @unready a n err es ps revents hf hn herr hp hup hev =>
    obtain ⟨rfl, rfl⟩ := hfailed (by simp) hf hn
    have hps := (polled_noHangup hp).mpr (not_ne_iff.mp hup)
    exact ⟨Sent.failed rfl (noHangup_append.mpr ⟨noHangup_failed err, hps⟩), by simp⟩
  | @polled a b n m err es es' ps revents hf hn herr hp hup hev hb =>
    obtain ⟨rfl, rfl⟩ := hfailed (by simp) hf hn
    have hps := (polled_noHangup hp).mpr (not_ne_iff.mp hup)
    have hwait := noHangup_append.mpr ⟨noHangup_failed err, hps⟩
    obtain ⟨rfl, rfl, rfl⟩ | ⟨count, rfl, rfl, rfl⟩ := send_cases hb
    · exact ⟨Sent.failed rfl (noHangup_append.mpr ⟨hwait, noHangup_send _⟩), by simp⟩
    · obtain ⟨hle, hcpos⟩ := haccepts count (by simp)
      rw [hcount (by simp)]
      exact ⟨Sent.sent (hcpos hpos) hle (by simp [accepted])
        (noHangup_append.mpr ⟨hwait, noHangup_send _⟩), by simp⟩

structure Inv (bufsz m : ℕ) (tr : List Iteration) (s : SendAll) : Prop where
  total_eq : s.total = m
  bytesleft_eq : s.bytesleft = bufsz - m
  le : m ≤ bufsz
  in_order : tr.flatMap acceptedBy = (List.range m).map fun k : ℕ => (k : ℤ)
  within : ∀ it ∈ tr, ∀ e ∈ it.effects, AsksWithin bufsz e
  unset : s.n = none → tr = []
  failed : s.n = some (-1) ↔ ∃ it ∈ tr, it.n < 0
  failed_lt : s.n = some (-1) → m < bufsz
  hung : ∀ it ∈ tr, ¬NoHangup it.answers → acceptedBy it = []
  hung_last : ∀ it, tr.getLast? = some it → ¬NoHangup it.answers → Continues bufsz s
  moves : ∀ it ∈ tr.dropLast, NoHangup it.answers → acceptedBy it ≠ []
  moves_last : s.n ≠ some (-1) → ∀ it ∈ tr, NoHangup it.answers → acceptedBy it ≠ []
  length_le : (∀ it ∈ tr, NoHangup it.answers) →
    tr.length ≤ m + (if s.n = some (-1) then 1 else 0)

theorem continues_iff {bufsz m : ℕ} {tr : List Iteration} {s : SendAll} (hlt : bufsz < 2 ^ 31)
    (h : Inv bufsz m tr s) : Continues bufsz s ↔ s.n ≠ some (-1) ∧ m < bufsz := by
  have hm := h.le
  rw [Continues, h.total_eq, sizeT_natCast_of_lt (by omega)]

theorem inv_init {bufsz : ℕ} (hlt : bufsz < 2 ^ 31) : Inv bufsz 0 [] (sendAllInit bufsz) where
  total_eq := rfl
  bytesleft_eq := by
    rw [sendAllInit, int32_natCast_of_lt hlt]
    simp
  le := Nat.zero_le _
  in_order := rfl
  within := by simp
  unset _ := rfl
  failed := by simp [sendAllInit]
  failed_lt := by simp [sendAllInit]
  hung := by simp
  hung_last := by simp
  moves := by simp
  moves_last := by simp
  length_le := by simp

theorem range_add (m c : ℕ) : (List.range (m + c)).map (fun k : ℕ => (k : ℤ)) =
    (List.range m).map (fun k : ℕ => (k : ℤ)) ++ (List.range c).map fun k : ℕ => (m : ℤ) + k := by
  rw [List.range_add, List.map_append, List.map_map]
  rfl

theorem inv_append {bufsz m c : ℕ} {tr : List Iteration} {s s' : SendAll} {it : Iteration}
    (hlt : bufsz < 2 ^ 31) (h : Inv bufsz m tr s) (hs : Continues bufsz s) (hle : m + c ≤ bufsz)
    (htotal : s'.total = (m + c : ℕ)) (hbytes : s'.bytesleft = bufsz - (m + c : ℕ))
    (hn : s'.n = some it.n) (hneg : it.n < 0 ↔ it.n = -1)
    (hacc : acceptedBy it = (List.range c).map fun k : ℕ => (m : ℤ) + k)
    (hwithin : ∀ e ∈ it.effects, AsksWithin bufsz e) (hfail : it.n = -1 → c = 0)
    (hhung : ¬NoHangup it.answers → c = 0 ∧ it.n ≠ -1)
    (hmoves : NoHangup it.answers → c = 0 → it.n = -1) : Inv bufsz (m + c) (tr ++ [it]) s' := by
  obtain ⟨hne, hm⟩ := (continues_iff hlt h).mp hs
  have hempty : acceptedBy it = [] ↔ c = 0 := by rw [hacc]; simp
  have hfailed : s'.n = some (-1) ↔ it.n = -1 := by rw [hn, Option.some.injEq]
  refine ⟨htotal, hbytes, hle, ?_, ?_, ?_, ?_, ?_, ?_, ?_, ?_, ?_, ?_⟩
  · rw [List.flatMap_append, List.flatMap_singleton, h.in_order, hacc, range_add]
  · rw [List.forall_mem_append, List.forall_mem_singleton]
    exact ⟨h.within, hwithin⟩
  · simp [hn]
  · have hnone := mt h.failed.mpr hne
    rw [hfailed, ← hneg]
    constructor
    · exact fun hit => ⟨it, by simp, hit⟩
    · rintro ⟨it', hit, hlt'⟩
      obtain hit | hit := List.mem_append.mp hit
      · exact absurd ⟨it', hit, hlt'⟩ hnone
      · rwa [← List.mem_singleton.mp hit]
  · intro hfail'
    rw [hfail (hfailed.mp hfail')]
    exact hm
  · rw [List.forall_mem_append, List.forall_mem_singleton]
    exact ⟨h.hung, fun hup => hempty.mpr (hhung hup).1⟩
  · intro it' hit hup
    obtain rfl : it = it' := Option.some.inj (List.getLast?_concat.symm.trans hit)
    obtain ⟨rfl, hne'⟩ := hhung hup
    refine ⟨mt hfailed.mp hne', ?_⟩
    rwa [htotal, sizeT_natCast_of_lt (by omega)]
  · rw [List.dropLast_concat]
    exact h.moves_last hne
  · intro hne'
    rw [List.forall_mem_append, List.forall_mem_singleton]
    refine ⟨h.moves_last hne, fun hno hnil => ?_⟩
    exact hne' (hfailed.mpr (hmoves hno (hempty.mp hnil)))
  · intro hall
    have hlen := h.length_le fun it' hit => hall it' (List.mem_append_left _ hit)
    rw [if_neg hne] at hlen
    rw [List.length_append, List.length_singleton]
    split
    · omega
    · rename_i hnf
      have hc : c ≠ 0 := fun hc => hnf (hfailed.mpr (hmoves (hall it (by simp)) hc))
      omega

theorem next_counters {bufsz m count : ℕ} {tr : List Iteration} {s : SendAll}
    (hlt : bufsz < 2 ^ 31) (h : Inv bufsz m tr s) (hle : m + count ≤ bufsz) :
    (sendAllNext s count).total = (m + count : ℕ) ∧
      (sendAllNext s count).bytesleft = bufsz - (m + count : ℕ) := by
  have hne : (count : ℤ) ≠ -1 := by omega
  rw [sendAllNext, if_neg hne, h.total_eq, h.bytesleft_eq, int32_of_lt (by omega) (by omega),
    int32_of_lt (by omega) (by omega)]
  refine ⟨(Nat.cast_add m count).symm, ?_⟩
  push_cast
  omega

theorem inv_step {bufsz m : ℕ} {tr : List Iteration} {s s' : SendAll} {answers : List Answer}
    {it : Iteration} (hlt : bufsz < 2 ^ 31) (h : Inv bufsz m tr s)
    (hmay : (sendAllSystem bufsz).may s answers) (hs : sendAllStep bufsz s answers = some (s', it)) :
    ∃ m', Inv bufsz m' (tr ++ [it]) s' := by
  have hcontinues : Continues bufsz s := by
    by_contra hnot
    rw [sendAllStep, if_neg hnot] at hs
    cases hs
  obtain ⟨hne, hm⟩ := (continues_iff hlt h).mp hcontinues
  rw [sendAllStep, if_pos hcontinues, Option.map_eq_some_iff] at hs
  obtain ⟨⟨n, es⟩, hcall, hs⟩ := hs
  obtain ⟨rfl, rfl⟩ := Prod.mk.inj hs
  have hlen : sizeT s.bytesleft = bufsz - m := by
    rw [h.bytesleft_eq, sizeT_of_lt (by omega) (by omega)]
    omega
  have haccepts : Accepts (sizeT s.bytesleft) answers := hmay
  rw [h.total_eq, hlen] at hcall
  rw [hlen] at haccepts
  obtain ⟨hsent, hsends⟩ := sent_of_complete (by omega) (by omega) haccepts hcall
  have hwithin : ∀ e ∈ es, AsksWithin bufsz e := by
    intro e he
    obtain ⟨count, rfl⟩ := hsends e he
    exact ⟨by omega, by push_cast [hm.le]; omega⟩
  cases hsent with
  | failed hes hno =>
    exact ⟨m + 0, inv_append hlt h hcontinues h.le h.total_eq h.bytesleft_eq rfl (by simp) hes
      hwithin (fun _ => rfl) (fun hup => absurd hno hup) fun _ _ => rfl⟩
  | hangup hes hup =>
    obtain ⟨htotal, hbytes⟩ := @next_counters bufsz m 0 tr s hlt h h.le
    exact ⟨m + 0, inv_append hlt h hcontinues h.le htotal hbytes rfl (by simp) hes hwithin
      (fun _ => rfl) (fun _ => ⟨rfl, by simp⟩) fun hno => absurd hno hup⟩
  | @sent _ count hpos hle hes hno =>
    have hle' : m + count ≤ bufsz := by omega
    obtain ⟨htotal, hbytes⟩ := next_counters hlt h hle'
    exact ⟨m + count, inv_append hlt h hcontinues hle' htotal hbytes rfl (by simp) hes hwithin
      (by simp) (fun hup => absurd hno hup) fun _ hc => absurd hc hpos.ne'⟩

theorem run_inv {bufsz : ℕ} (hlt : bufsz < 2 ^ 31) {tr : List Iteration} {s : SendAll}
    (h : Run (sendAllSystem bufsz) tr s) : ∃ m, Inv bufsz m tr s := by
  refine Run.invariant (fun tr s => ∃ m, Inv bufsz m tr s) ?_ ?_ h
  · rintro s rfl
    exact ⟨0, inv_init hlt⟩
  · rintro tr s answers s' it ⟨m, hinv⟩ hmay hs
    exact inv_step hlt hinv hmay hs

theorem inv_returns {bufsz m : ℕ} {tr : List Iteration} {s : SendAll} (hpos : 0 < bufsz)
    (hlt : bufsz < 2 ^ 31) (h : Inv bufsz m tr s) (hdone : ¬Continues bufsz s) :
    ∃ r, sendAllResult s = some r ∧ (r = -1 ↔ ∃ it ∈ tr, it.n < 0) ∧ (r ≠ -1 → r = bufsz) := by
  have hle := h.le
  rw [continues_iff hlt h] at hdone
  cases hn : s.n with
  | none =>
    have htr := h.unset hn
    have hzero : m = 0 := by simpa [htr] using h.in_order.symm
    exact absurd ⟨by simp [hn], by omega⟩ hdone
  | some n =>
    have hiff : s.n = some (-1) ↔ n = -1 := by rw [hn, Option.some.injEq]
    have hfailed := h.failed
    rw [hiff] at hfailed
    rw [ne_eq, hiff] at hdone
    rw [sendAllResult, hn, Option.map_some]
    by_cases hneg : n = -1
    · rw [if_pos hneg]
      exact ⟨-1, rfl, iff_of_true rfl (hfailed.mp hneg), fun hne => absurd rfl hne⟩
    · have hm : m = bufsz := by
        have hge := mt (And.intro hneg) hdone
        omega
      rw [if_neg hneg, h.total_eq]
      exact ⟨m, rfl, iff_of_false (by omega) (mt hfailed.mpr hneg), fun _ => by rw [hm]⟩

theorem mem_dropLast {β : Type} {tr rest : List β} {it : β} (h : rest ≠ []) :
    it ∈ (tr ++ it :: rest).dropLast := by
  rw [List.dropLast_append_of_ne_nil (List.cons_ne_nil it rest), List.dropLast_cons_of_ne_nil h]
  simp

/-- For a buffer of a size between 1 and `INT_MAX` the promise is kept exactly
along the runs without a hang-up. -/
theorem sendsAll_of_fits {bufsz : ℕ} (hpos : 0 < bufsz) (hlt : bufsz < 2 ^ 31)
    {tr : List Iteration} {s : SendAll} (h : Run (sendAllSystem bufsz) tr s) :
    SendsAll bufsz tr s ↔ ∀ it ∈ tr, NoHangup it.answers := by
  obtain ⟨m, hinv⟩ := run_inv hlt h
  constructor
  · intro hsends it hit
    by_contra hup
    obtain ⟨tr', rest, rfl⟩ := List.append_of_mem hit
    obtain ⟨rfl, hdone⟩ := hsends.progress tr' it rest rfl (hinv.hung it hit hup)
    exact hdone (hinv.hung_last it List.getLast?_concat hup)
  · intro hall
    have hle := hinv.le
    refine ⟨⟨m, hle, hinv.in_order⟩, hinv.within, inv_returns hpos hlt hinv, ?_, ?_⟩
    · rintro tr' it rest rfl hnil
      have hno := hall it (by simp)
      have hrest : rest = [] := by
        by_contra hne
        exact hinv.moves it (mem_dropLast hne) hno hnil
      refine ⟨hrest, fun hcontinues => ?_⟩
      exact hinv.moves_last hcontinues.1 it (by simp) hno hnil
    · have hlen := hinv.length_le hall
      split at hlen
      · have := hinv.failed_lt (by assumption)
        omega
      · omega

theorem step_answers {bufsz : ℕ} {s s' : SendAll} {answers : List Answer} {it : Iteration}
    (hs : sendAllStep bufsz s answers = some (s', it)) : it.answers = answers := by
  rw [sendAllStep] at hs
  split at hs
  · obtain ⟨⟨n, es⟩, -, hs⟩ := Option.map_eq_some_iff.mp hs
    obtain ⟨-, rfl⟩ := Prod.mk.inj hs
    rfl
  · cases hs

def quietSystem (bufsz : ℕ) : System SendAll (List Answer) Iteration :=
  (sendAllSystem bufsz).restrict fun _ answers => NoHangup answers

theorem run_quiet {bufsz : ℕ} {tr : List Iteration} {s : SendAll}
    (h : Run (quietSystem bufsz) tr s) : ∀ it ∈ tr, NoHangup it.answers := by
  refine Run.invariant (fun tr _ => ∀ it ∈ tr, NoHangup it.answers) (by simp) ?_ h
  intro tr s answers s' it hall hmay hs
  rw [List.forall_mem_append, List.forall_mem_singleton, step_answers hs]
  exact ⟨hall, hmay.2⟩

def sendOnce (s : SendAll) (count : ℕ) : Iteration :=
  ⟨[.send (some count)], [.send s.total (sizeT s.bytesleft) (some count)], int32 count⟩

theorem run_sendOnce {bufsz count : ℕ} {tr : List Iteration} {s : SendAll}
    (h : Run (quietSystem bufsz) tr s) (hs : Continues bufsz s) (hn : 0 ≤ int32 count)
    (hle : count ≤ sizeT s.bytesleft) (hpos : 0 < sizeT s.bytesleft → 0 < count) :
    Run (quietSystem bufsz) (tr ++ [sendOnce s count]) (sendAllNext s (int32 count)) := by
  have hcall : complete (awaitSend s.total (sizeT s.bytesleft)) [.send (some count)] =
      some (int32 count, [.send s.total (sizeT s.bytesleft) (some count)]) :=
    complete_iff.mpr (@Await.immediate (send s.total (sizeT s.bytesleft)) (fun _ => []) WRITE
      (.send (some count)) _ _ rfl hn)
  have haccepts : Accepts (sizeT s.bytesleft) [.send (some count)] := by
    intro count' hmem
    cases List.mem_singleton.mp hmem
    exact ⟨hle, hpos⟩
  refine Run.next h ⟨haccepts, noHangup_send _⟩ ?_
  change sendAllStep bufsz s [.send (some count)] = _
  rw [sendAllStep, if_pos hs, hcall]
  rfl

section Oversized

variable {bufsz : ℕ} (hlarge : 2 ^ 31 ≤ bufsz)

include hlarge

theorem continues_init : Continues bufsz (sendAllInit bufsz) :=
  ⟨by simp [sendAllInit], by change sizeT 0 < bufsz; rw [sizeT_of_lt] <;> omega⟩

/-- The size is cut down to a smaller one that is not negative: after so many
bytes the loop asks for none, again and again. -/
theorem not_sendsAll_cut (hsize : 0 ≤ int32 bufsz) :
    ∃ tr s, Run (quietSystem bufsz) tr s ∧ ¬SendsAll bufsz tr s := by
  have hlt := int32_lt bufsz
  obtain ⟨c, hc⟩ := Int.eq_ofNat_of_zero_le hsize
  have hc32 : int32 c = c := int32_natCast_of_lt (by omega)
  have hcT : sizeT c = c := sizeT_natCast_of_lt (by omega)
  have h0 : int32 (0 : ℕ) = 0 := int32_natCast_of_lt (by omega)
  have hfirst : sendAllNext (sendAllInit bufsz) c = ⟨c, 0, some c⟩ := by
    rw [sendAllNext, if_neg (by omega), sendAllInit, hc, zero_add, hc32, sub_self]
    exact congrArg (SendAll.mk c · (some c)) h0
  have hcontinues : ∀ n : ℕ, Continues bufsz ⟨c, 0, some n⟩ := by
    refine fun n => ⟨?_, ?_⟩
    · rw [ne_eq, Option.some.injEq]
      omega
    · rw [hcT]
      omega
  have hrun := @run_sendOnce bufsz c _ _ (Run.start rfl) (continues_init hlarge) (by omega)
    (by change c ≤ sizeT (int32 bufsz); rw [hc, hcT])
    (by change 0 < sizeT (int32 bufsz) → 0 < c; rw [hc, hcT]; exact id)
  rw [hc32, hfirst] at hrun
  have hrun' := @run_sendOnce bufsz 0 _ _ hrun (hcontinues c) (by omega) (Nat.zero_le _)
    (by change 0 < sizeT 0 → 0 < 0; rw [sizeT_of_lt] <;> omega)
  have hsecond : sendAllNext ⟨c, 0, some c⟩ 0 = ⟨c, 0, some 0⟩ := by
    rw [sendAllNext, if_neg (by omega), add_zero, hc32, sub_self]
    exact congrArg (SendAll.mk c · (some 0)) h0
  rw [h0, hsecond] at hrun'
  refine ⟨_, _, hrun', fun hsends => ?_⟩
  exact (hsends.progress [_] _ [] rfl rfl).2 (hcontinues 0)

theorem not_sendsAll_beyond (hbeyond : bufsz < sizeT (int32 bufsz)) :
    ∃ tr s, Run (quietSystem bufsz) tr s ∧ ¬SendsAll bufsz tr s := by
  have hone : int32 (1 : ℕ) = 1 := int32_natCast_of_lt (by omega)
  have hrun := @run_sendOnce bufsz 1 _ _ (Run.start rfl) (continues_init hlarge) (by omega)
    (by change 1 ≤ sizeT (int32 bufsz); omega) (fun _ => one_pos)
  refine ⟨_, _, hrun, fun hsends => ?_⟩
  have hwithin := hsends.within (sendOnce (sendAllInit bufsz) 1) (by simp)
    (.send 0 (sizeT (int32 bufsz)) (some 1)) (by simp [sendOnce, sendAllInit])
  have hle := hwithin.2
  omega

/-- A count of 2 ^ 32 is taken for 0, and the same bytes are sent again. -/
theorem not_sendsAll_repeated (hsize : 2 ^ 32 ≤ sizeT (int32 bufsz)) :
    ∃ tr s, Run (quietSystem bufsz) tr s ∧ ¬SendsAll bufsz tr s := by
  obtain ⟨c, hpos, hc, hle⟩ : ∃ c : ℕ, 0 < c ∧ int32 c = 0 ∧ c ≤ sizeT (int32 bufsz) :=
    ⟨2 ^ 32, Nat.two_pow_pos 32, by decide +kernel, hsize⟩
  have h0 : int32 0 = 0 := int32_of_lt (by omega) (by omega)
  have hnext : ∀ n : Option ℤ, sendAllNext ⟨0, int32 bufsz, n⟩ 0 = ⟨0, int32 bufsz, some 0⟩ := by
    intro n
    rw [sendAllNext, if_neg (by omega), add_zero, sub_zero, h0, int32_int32]
  have hcontinues : Continues bufsz ⟨0, int32 bufsz, some 0⟩ :=
    ⟨by simp, (continues_init hlarge).2⟩
  have hrun := @run_sendOnce bufsz c _ _ (Run.start rfl) (continues_init hlarge) hc.ge hle
    fun _ => hpos
  rw [hc, sendAllInit, hnext] at hrun
  have hrun' := @run_sendOnce bufsz c _ _ hrun hcontinues hc.ge hle fun _ => hpos
  refine ⟨_, _, hrun', fun hsends => ?_⟩
  obtain ⟨m, -, horder⟩ := hsends.in_order
  have hnodup : ((List.range m).map fun k : ℕ => (k : ℤ)).Nodup :=
    List.Nodup.map Nat.cast_injective List.nodup_range
  rw [← horder, List.flatMap_append, List.nodup_append] at hnodup
  have hzero : ∀ n : Option ℤ, (0 : ℤ) ∈ acceptedBy (sendOnce ⟨0, int32 bufsz, n⟩ c) := by
    intro n
    simp [acceptedBy, sendOnce, accepted, hpos]
  exact hnodup.2.2 0 (by simpa using hzero none) 0 (by simpa using hzero (some 0)) rfl

end Oversized

theorem exists_not_sendsAll {bufsz : ℕ} (hsize : bufsz < 2 ^ 64) (h : ¬(0 < bufsz ∧ bufsz < 2 ^ 31)) :
    ∃ tr s, Run (quietSystem bufsz) tr s ∧ ¬SendsAll bufsz tr s := by
  obtain rfl | hlarge : bufsz = 0 ∨ 2 ^ 31 ≤ bufsz := by omega
  · refine ⟨[], sendAllInit 0, Run.start rfl, fun hsends => ?_⟩
    obtain ⟨r, hr, -⟩ := hsends.returns fun hcontinues => absurd hcontinues.2 (Nat.not_lt_zero _)
    cases hr
  · obtain hneg | hnonneg := lt_or_ge (int32 bufsz) 0
    · obtain hbeyond | hle := Nat.lt_or_ge bufsz (sizeT (int32 bufsz))
      · exact not_sendsAll_beyond hlarge hbeyond
      · have hlow := le_int32 bufsz
        refine not_sendsAll_repeated hlarge ?_
        rw [sizeT]
        omega
    · exact not_sendsAll_cut hlarge hnonneg

/-- The sizes for which all runs without a hang-up keep the promise are those
from 1 to `INT_MAX`, and for these sizes a hang-up always breaks it. -/
theorem awaitSendAll_iff {bufsz : ℕ} (hsize : bufsz < 2 ^ 64) :
    ((∀ tr s, Run (quietSystem bufsz) tr s → SendsAll bufsz tr s) ↔
      0 < bufsz ∧ bufsz < 2 ^ 31) ∧
    (0 < bufsz ∧ bufsz < 2 ^ 31 → ∀ tr s, Run (sendAllSystem bufsz) tr s →
      (SendsAll bufsz tr s ↔ ∀ it ∈ tr, NoHangup it.answers)) := by
  refine ⟨⟨?_, ?_⟩, ?_⟩
  · intro hall
    by_contra hnot
    obtain ⟨tr, s, hrun, hsends⟩ := exists_not_sendsAll hsize hnot
    exact hsends (hall tr s hrun)
  · rintro ⟨hpos, hlt⟩ tr s hrun
    exact (sendsAll_of_fits hpos hlt hrun.of_restrict).mpr (run_quiet hrun)
  · rintro ⟨hpos, hlt⟩ tr s hrun
    exact sendsAll_of_fits hpos hlt hrun

def decideAccepts (s : SendAll) (answers : List Answer) : Bool :=
  answers.all fun
    | .send (some count) => count ≤ sizeT s.bytesleft ∧ (0 < sizeT s.bytesleft → 0 < count)
    | _ => true

theorem accepts_of_decide (s : SendAll) (answers : List Answer)
    (h : decideAccepts s answers = true) : Accepts (sizeT s.bytesleft) answers := by
  intro count hmem
  exact of_decide_eq_true (List.all_eq_true.mp h _ hmem)

theorem awaitSendAll_iff_five :
    5 < 2 ^ 64 ∧ ∃ tr s, Run (sendAllSystem 5) tr s ∧ sendAllResult s = some 5 ∧
      (SendsAll 5 tr s ↔ ∀ it ∈ tr, NoHangup it.answers) := by
  obtain ⟨tr, s, hrun, hr⟩ := Run.exists_of_exec (S := sendAllSystem 5) accepts_of_decide
    [[.send (some 3)], [.send none, .errno 11, .poll 0 0, .poll 1 0x004, .send (some 2)]]
    (s := sendAllInit 5) rfl (fun p => sendAllResult p.1) (b := some 5) (by decide +kernel)
  have hsize : 5 < 2 ^ 64 := by decide
  exact ⟨hsize, tr, s, hrun, hr, (awaitSendAll_iff hsize).2 ⟨by decide, by decide⟩ tr s hrun⟩

/-- The peer has hung up: every call returns 0 at once, and the loop spins. -/
theorem not_sendsAll_hangup :
    ¬∀ (bufsz : ℕ) (tr : List Iteration) (s : SendAll), bufsz < 2 ^ 64 →
      Run (sendAllSystem bufsz) tr s → SendsAll bufsz tr s := by
  intro hall
  have hstep : sendAllStep 1 (sendAllInit 1) [.send none, .errno 11, .poll 1 0x010] =
      some (⟨0, 1, some 0⟩,
        ⟨[.send none, .errno 11, .poll 1 0x010], [.send 0 1 none], 0⟩) := by
    decide +kernel
  have hmay : (sendAllSystem 1).may (sendAllInit 1) [.send none, .errno 11, .poll 1 0x010] :=
    accepts_of_decide _ _ (by decide +kernel)
  have hrun : Run (sendAllSystem 1) _ _ := Run.next (Run.start rfl) hmay hstep
  have hsends := hall 1 _ _ (by decide) hrun
  exact (hsends.progress [] _ [] rfl rfl).2 (by decide +kernel)

end Libseff.NetSendAll
