import Libseff.NetCalls

namespace Libseff.NetResults

open FixedWidth NetCalls

inductive SocketOp where
  | accept4
  | recv (bufsz : ℕ)
  | send (offset : ℤ) (bufsz : ℕ)

def await : SocketOp → Net ℤ
  | .accept4 => awaitAccept4
  | .recv bufsz => awaitRecv bufsz
  | .send offset bufsz => awaitSend offset bufsz

def succeeded : SocketOp → Answer → Option ℕ
  | .accept4, .accept4 (some fd) => some fd.val
  | .recv _, .recv (some bytes) => some bytes.length
  | .send _ _, .send (some count) => some count
  | _, _ => none

/-- A result that is not negative is one with which the operating system
answered one of the calls. -/
def Honest (o : SocketOp) (answers : List Answer) (r : ℤ) : Prop :=
  r < 0 ∨ ∃ a ∈ answers, ∃ n, succeeded o a = some n ∧ r = n

/-- An answer that keeps its meaning: an `int` has room for the count or shows
an error in its place, and the end of a wait is not a hang-up. -/
def Plain : Answer → Prop
  | .recv (some bytes) => int32 bytes.length = bytes.length ∨ int32 bytes.length < 0
  | .send (some count) => int32 count = count ∨ int32 count < 0
  | .poll ret revents => ret ≠ 0 → HANGUP &&& revents = 0
  | _ => True

def call : SocketOp → Answer → Option (ℤ × List Effect)
  | .accept4 => accept4
  | .recv bufsz => recv bufsz
  | .send offset bufsz => send offset bufsz

theorem await_eq (o : SocketOp) : ∃ happy event, await o = awaitCall (call o) happy event := by
  cases o with
  | accept4 => exact ⟨_, _, rfl⟩
  | recv bufsz => exact ⟨_, _, rfl⟩
  | send offset bufsz => exact ⟨_, _, rfl⟩

theorem int32_nonneg {k : ℕ} (h : int32 k < 0) : 2 ^ 31 ≤ k := by
  by_contra hk
  rw [int32_natCast_of_lt (by omega)] at h
  omega

theorem call_plain {o : SocketOp} {a : Answer} {n : ℤ} {es : List Effect}
    (h : call o a = some (n, es)) :
    (Plain a ↔ n < 0 ∨ ∃ k : ℕ, succeeded o a = some k ∧ n = k) ∧
      (∀ k, succeeded o a = some k → n < 0 → 2 ^ 31 ≤ k) ∧ n < 2 ^ 31 := by
  have hcount (k : ℕ) : (int32 k = k ∨ int32 k < 0) ↔
      int32 k < 0 ∨ ∃ k', some k = some k' ∧ int32 k = (k' : ℤ) := by
    simp [or_comm]
  have hbound (k : ℕ) : ∀ k', some k = some k' → int32 k < 0 → 2 ^ 31 ≤ k' := by
    rintro _ ⟨rfl⟩ hneg
    exact int32_nonneg hneg
  have hfailed {a : Answer} (hplain : Plain a) (hnone : succeeded o a = none) :
      (Plain a ↔ (-1 : ℤ) < 0 ∨ ∃ k : ℕ, succeeded o a = some k ∧ (-1 : ℤ) = k) ∧
        (∀ k, succeeded o a = some k → (-1 : ℤ) < 0 → 2 ^ 31 ≤ k) ∧ (-1 : ℤ) < 2 ^ 31 :=
    ⟨iff_of_true hplain (Or.inl (by decide)), by simp [hnone], by decide⟩
  cases o with
  | accept4 =>
    obtain ⟨rfl, rfl⟩ | ⟨fd, rfl, rfl⟩ := accept4_cases h
    · exact hfailed trivial rfl
    · exact ⟨iff_of_true trivial (Or.inr ⟨fd.val, rfl, rfl⟩), by omega, by omega⟩
  | recv bufsz =>
    obtain ⟨rfl, rfl, -⟩ | ⟨bytes, rfl, rfl, -⟩ := recv_cases h
    · exact hfailed trivial rfl
    · exact ⟨hcount bytes.length, hbound bytes.length, int32_lt bytes.length⟩
  | send offset bufsz =>
    obtain ⟨rfl, rfl, -⟩ | ⟨count, rfl, rfl, -⟩ := send_cases h
    · exact hfailed trivial rfl
    · exact ⟨hcount count, hbound count, int32_lt count⟩

@[simp] theorem plain_errno (err : ℤ) : Plain (.errno err) := trivial

@[simp] theorem plain_poll {ret : ℤ} {revents : BitVec 16} :
    Plain (.poll ret revents) ↔ (ret ≠ 0 → HANGUP &&& revents = 0) := Iff.rfl

@[simp] theorem succeeded_errno (o : SocketOp) (err : ℤ) : succeeded o (.errno err) = none := by
  cases o <;> rfl

@[simp] theorem succeeded_poll (o : SocketOp) (ret : ℤ) (revents : BitVec 16) :
    succeeded o (.poll ret revents) = none := by
  cases o <;> rfl

theorem polled_plain {ps : List Answer} {revents : BitVec 16} (h : Polled ps revents) :
    (∀ p ∈ ps, Plain p) ↔ HANGUP &&& revents = 0 := by
  induction h with
  | ready hret => simp [hret]
  | again _ ih => simpa using ih

theorem polled_succeeded {o : SocketOp} {ps : List Answer} {revents : BitVec 16}
    (h : Polled ps revents) : ∀ p ∈ ps, succeeded o p = none := by
  induction h with
  | ready hret => simp
  | again _ ih => simpa using ih

/-- A result is honest exactly when all answers that led to it keep their
meaning: a hang-up becomes 0, which is neither a descriptor nor a count nor a
failure. -/
theorem await_honest_iff (o : SocketOp) (answers : List Answer) {r : ℤ} {es : List Effect}
    (h : complete (await o) answers = some (r, es)) :
    Honest o answers r ↔ ∀ a ∈ answers, Plain a := by
  obtain ⟨happy, event, hawait⟩ := await_eq o
  rw [hawait] at h
  cases complete_iff.mp h with
  | @immediate a n es hf hn =>
    obtain ⟨hplain, -, -⟩ := call_plain hf
    simp [Honest, hplain]
  | @failed a n err es hf hn herr =>
    obtain ⟨hplain, -, -⟩ := call_plain hf
    simp [Honest, hplain, hn]
  | @hangup a n err es ps revents hf hn herr hp hup =>
    obtain ⟨-, hlarge, -⟩ := call_plain hf
    have hnot := mt (polled_plain hp).mp hup
    refine iff_of_false ?_ fun hall => hnot fun p hmem => hall p (by simp [hmem])
    rintro (hneg | ⟨c, hc, k, hk, hzero⟩)
    · omega
    · obtain rfl | rfl | hmem : c = a ∨ c = .errno err ∨ c ∈ ps := by simpa using hc
      · have := hlarge k hk hn
        omega
      · simp at hk
      · simp [polled_succeeded hp c hmem] at hk
  | @unready a n err es ps revents hf hn herr hp hup hev =>
    obtain ⟨hplain, -, -⟩ := call_plain hf
    have hps := (polled_plain hp).mpr (not_ne_iff.mp hup)
    simpa [Honest, hplain, hn] using hps
  | @polled a b n m err es es' ps revents hf hn herr hp hup hev hb =>
    obtain ⟨hplain, hlarge, -⟩ := call_plain hf
    obtain ⟨hplain', -, hlt⟩ := call_plain hb
    have hps := (polled_plain hp).mpr (not_ne_iff.mp hup)
    constructor
    · rintro hhonest c hc
      obtain rfl | rfl | hmem | rfl : c = a ∨ c = .errno err ∨ c ∈ ps ∨ c = b := by
        simpa using hc
      · exact hplain.mpr (Or.inl hn)
      · trivial
      · exact hps c hmem
      · obtain hneg | ⟨d, hd, k, hk, rfl⟩ := hhonest
        · exact hplain'.mpr (Or.inl hneg)
        · obtain rfl | rfl | hmem | rfl : d = a ∨ d = .errno err ∨ d ∈ ps ∨ d = c := by
            simpa using hd
          · -- the failed attempt did not get this count, which an int has no room for
            have := hlarge k hk hn
            omega
          · simp at hk
          · simp [polled_succeeded hp d hmem] at hk
          · exact hplain'.mpr (Or.inr ⟨k, hk, rfl⟩)
    · intro hall
      obtain hneg | ⟨k, hk, hm⟩ := hplain'.mp (hall b (by simp))
      · exact Or.inl hneg
      · exact Or.inr ⟨b, by simp, k, hk, hm⟩

theorem await_honest_iff_accept4 :
    complete (await .accept4) [.accept4 none, .errno 11, .poll 1 0x001, .accept4 (some 5)] =
        some (5, []) ∧
      (Honest .accept4 [.accept4 none, .errno 11, .poll 1 0x001, .accept4 (some 5)] 5 ↔
        ∀ a ∈ [.accept4 none, .errno 11, .poll 1 0x001, .accept4 (some 5)], Plain a) :=
  ⟨by decide +kernel, @await_honest_iff .accept4 _ _ [] (by decide +kernel)⟩

/-- A peer that sends its last bytes and closes: `poll` reports both, and the
bytes are lost in an end of stream. -/
theorem not_honest_hangup :
    ¬∀ (o : SocketOp) (answers : List Answer) (r : ℤ) (es : List Effect),
      complete (await o) answers = some (r, es) → Honest o answers r := by
  intro hall
  have h := hall (.recv 512) [.recv none, .errno 11, .poll 1 0x011] 0 [.recv 512 none]
    (by decide +kernel)
  simp [Honest, succeeded] at h

end Libseff.NetResults
