import Libseff.FixedWidth

namespace Libseff.NetCalls

open FixedWidth

abbrev Byte := BitVec 8

/-- An answer of the operating system to a call, where `none` is a failure. The
file descriptor, the data and the count are those of the system call itself,
before the wrapper turns them into an `int`. -/
inductive Answer where
  | accept4 (fd : Option (Fin (2 ^ 31)))
  | recv (bytes : Option (List Byte))
  | send (count : Option ℕ)
  | errno (err : ℤ)
  | poll (ret : ℤ) (revents : BitVec 16)
  deriving DecidableEq

/-- What is done with the buffer of the caller: `recv` gets so many bytes of it
to fill, `send` so many bytes of it from an offset on, or a byte is stored. -/
inductive Effect where
  | recv (bufsz : ℕ) (bytes : Option (List Byte))
  | send (offset : ℤ) (bufsz : ℕ) (count : Option ℕ)
  | store (index : ℤ) (value : Byte)
  deriving DecidableEq

structure Os where
  answers : List Answer
  effects : List Effect

/-- A computation gets stuck when it asks for an answer that does not come. -/
abbrev Net := StateT Os Option

def READ : BitVec 16 := 0x001
def WRITE : BitVec 16 := 0x004
def ERROR : BitVec 16 := 0x008
def HANGUP : BitVec 16 := 0x010

def EAGAIN : ℤ := 11
def EWOULDBLOCK : ℤ := 11

def record (effects : List Effect) : Net Unit := fun os =>
  some ((), { os with effects := os.effects ++ effects })

def socketCall (f : Answer → Option (ℤ × List Effect)) : Net ℤ := fun os =>
  match os.answers with
  | [] => none
  | answer :: answers => (f answer).map fun p => (p.1, ⟨answers, os.effects ++ p.2⟩)

def accept4 : Answer → Option (ℤ × List Effect)
  | .accept4 none => some (-1, [])
  | .accept4 (some fd) => some (fd.val, [])
  | _ => none

def recv (bufsz : ℕ) : Answer → Option (ℤ × List Effect)
  | .recv none => some (-1, [.recv bufsz none])
  | .recv (some bytes) => some (int32 bytes.length, [.recv bufsz (some bytes)])
  | _ => none

def send (offset : ℤ) (bufsz : ℕ) : Answer → Option (ℤ × List Effect)
  | .send none => some (-1, [.send offset bufsz none])
  | .send (some count) => some (int32 count, [.send offset bufsz (some count)])
  | _ => none

def getErrno : Net ℤ := fun os =>
  match os.answers with
  | .errno err :: answers => some (err, { os with answers := answers })
  | _ => none

/-- The scheduler calls `poll_await_condition` until it is true. -/
def pollLoop : List Answer → Option (BitVec 16 × List Answer)
  | .poll ret revents :: answers => if ret ≠ 0 then some (revents, answers) else pollLoop answers
  | _ => none

def pollAwait : Net (BitVec 16) := fun os =>
  (pollLoop os.answers).map fun p => (p.1, { os with answers := p.2 })

/-- The body that the three functions share: `happy` is what they do when the
immediate attempt succeeds, `event` what they wait for when it would block. -/
def awaitCall (f : Answer → Option (ℤ × List Effect)) (happy : ℤ → List Effect)
    (event : BitVec 16) : Net ℤ := do
  let n_read ← socketCall f
  if 0 ≤ n_read then
    record (happy n_read)
    return n_read
  let err ← getErrno
  if err ≠ EAGAIN ∧ err ≠ EWOULDBLOCK then return n_read
  let revents ← pollAwait
  if HANGUP &&& revents ≠ 0 then return 0
  if event &&& revents = 0 then return -1
  socketCall f

def awaitAccept4 : Net ℤ := awaitCall accept4 (fun _ => []) READ

/-- `buffer[n_read] = 0` is part of the immediate attempt only. -/
def awaitRecv (bufsz : ℕ) : Net ℤ :=
  awaitCall (recv bufsz) (fun n_read => [.store n_read 0]) READ

def awaitSend (offset : ℤ) (bufsz : ℕ) : Net ℤ := awaitCall (send offset bufsz) (fun _ => []) WRITE

def complete (x : Net ℤ) (answers : List Answer) : Option (ℤ × List Effect) :=
  match x ⟨answers, []⟩ with
  | some (r, ⟨[], effects⟩) => some (r, effects)
  | _ => none

inductive Polled : List Answer → BitVec 16 → Prop
  | ready {ret : ℤ} {revents : BitVec 16} (h : ret ≠ 0) : Polled [.poll ret revents] revents
  | again {answers : List Answer} {revents revents' : BitVec 16} (h : Polled answers revents) :
      Polled (.poll 0 revents' :: answers) revents

/-- The five ways through `awaitCall`, by the answers that it uses up. -/
inductive Await (f : Answer → Option (ℤ × List Effect)) (happy : ℤ → List Effect)
    (event : BitVec 16) : List Answer → ℤ → List Effect → Prop
  | immediate {a : Answer} {n : ℤ} {es : List Effect} (h : f a = some (n, es)) (hn : 0 ≤ n) :
      Await f happy event [a] n (es ++ happy n)
  | failed {a : Answer} {n err : ℤ} {es : List Effect} (h : f a = some (n, es)) (hn : n < 0)
      (herr : err ≠ EAGAIN ∧ err ≠ EWOULDBLOCK) : Await f happy event [a, .errno err] n es
  | hangup {a : Answer} {n err : ℤ} {es : List Effect} {ps : List Answer} {revents : BitVec 16}
      (h : f a = some (n, es)) (hn : n < 0) (herr : ¬(err ≠ EAGAIN ∧ err ≠ EWOULDBLOCK))
      (hp : Polled ps revents) (hup : HANGUP &&& revents ≠ 0) :
      Await f happy event (a :: .errno err :: ps) 0 es
  | unready {a : Answer} {n err : ℤ} {es : List Effect} {ps : List Answer} {revents : BitVec 16}
      (h : f a = some (n, es)) (hn : n < 0) (herr : ¬(err ≠ EAGAIN ∧ err ≠ EWOULDBLOCK))
      (hp : Polled ps revents) (hup : ¬HANGUP &&& revents ≠ 0) (hev : event &&& revents = 0) :
      Await f happy event (a :: .errno err :: ps) (-1) es
  | polled {a b : Answer} {n m err : ℤ} {es es' : List Effect} {ps : List Answer}
      {revents : BitVec 16} (h : f a = some (n, es)) (hn : n < 0)
      (herr : ¬(err ≠ EAGAIN ∧ err ≠ EWOULDBLOCK)) (hp : Polled ps revents)
      (hup : ¬HANGUP &&& revents ≠ 0) (hev : ¬event &&& revents = 0) (hb : f b = some (m, es')) :
      Await f happy event (a :: .errno err :: (ps ++ [b])) m (es ++ es')

theorem accept4_cases {a : Answer} {n : ℤ} {es : List Effect} (h : accept4 a = some (n, es)) :
    (a = .accept4 none ∧ n = -1) ∨
      ∃ fd : Fin (2 ^ 31), a = .accept4 (some fd) ∧ n = fd.val := by
  cases a with
  | accept4 fd =>
    cases fd with
    | none =>
      cases h
      exact Or.inl ⟨rfl, rfl⟩
    | some fd =>
      cases h
      exact Or.inr ⟨fd, rfl, rfl⟩
  | _ => cases h

theorem recv_cases {bufsz : ℕ} {a : Answer} {n : ℤ} {es : List Effect}
    (h : recv bufsz a = some (n, es)) :
    (a = .recv none ∧ n = -1 ∧ es = [.recv bufsz none]) ∨
      ∃ bytes, a = .recv (some bytes) ∧ n = int32 bytes.length ∧
        es = [.recv bufsz (some bytes)] := by
  cases a with
  | recv bytes =>
    cases bytes with
    | none =>
      cases h
      exact Or.inl ⟨rfl, rfl, rfl⟩
    | some bytes =>
      obtain ⟨rfl, rfl⟩ := Prod.mk.inj (Option.some.inj h)
      exact Or.inr ⟨bytes, rfl, rfl, rfl⟩
  | _ => cases h

theorem send_cases {offset : ℤ} {len : ℕ} {a : Answer} {n : ℤ} {es : List Effect}
    (h : send offset len a = some (n, es)) :
    (a = .send none ∧ n = -1 ∧ es = [.send offset len none]) ∨
      ∃ count : ℕ, a = .send (some count) ∧ n = int32 count ∧
        es = [.send offset len (some count)] := by
  cases a with
  | send count =>
    cases count with
    | none =>
      cases h
      exact Or.inl ⟨rfl, rfl, rfl⟩
    | some count =>
      cases h
      exact Or.inr ⟨count, rfl, rfl, rfl⟩
  | _ => cases h

theorem pollLoop_polled {answers rest : List Answer} {revents : BitVec 16} :
    pollLoop answers = some (revents, rest) ↔ ∃ ps, Polled ps revents ∧ answers = ps ++ rest := by
  constructor
  · intro h
    induction answers with
    | nil => cases h
    | cons a answers ih =>
      cases a with
      | poll ret revents' =>
        rw [pollLoop] at h
        split at h
        · rename_i hret
          cases h
          exact ⟨_, Polled.ready hret, rfl⟩
        · rename_i hret
          obtain ⟨ps, hp, rfl⟩ := ih h
          obtain rfl := not_ne_iff.mp hret
          exact ⟨_, Polled.again hp, rfl⟩
      | _ => cases h
  · rintro ⟨ps, hp, rfl⟩
    induction hp with
    | ready h => exact if_pos h
    | again _ ih => exact ih

theorem socketCall_iff {f : Answer → Option (ℤ × List Effect)} {os os' : Os} {n : ℤ} :
    socketCall f os = some (n, os') ↔ ∃ a answers es, os.answers = a :: answers ∧
      f a = some (n, es) ∧ os' = ⟨answers, os.effects ++ es⟩ := by
  obtain ⟨answers, effects⟩ := os
  cases answers with
  | nil => simp [socketCall]
  | cons a answers =>
    simp only [socketCall, Option.map_eq_some_iff, Prod.mk.injEq, List.cons.injEq]
    constructor
    · rintro ⟨⟨n, es⟩, h, rfl, rfl⟩
      exact ⟨a, answers, es, ⟨rfl, rfl⟩, h, rfl⟩
    · rintro ⟨a, answers, es, ⟨rfl, rfl⟩, h, rfl⟩
      exact ⟨_, h, rfl, rfl⟩

theorem bind_iff {α β : Type} {x : Net α} {g : α → Net β} {os os' : Os} {b : β} :
    (x >>= g) os = some (b, os') ↔ ∃ a os1, x os = some (a, os1) ∧ g a os1 = some (b, os') := by
  simp [bind, StateT.bind, Option.bind_eq_some_iff]

theorem bind_of_eq {α β : Type} {x : Net α} {g : α → Net β} {os os1 : Os} {a : α}
    (h : x os = some (a, os1)) : (x >>= g) os = g a os1 := by
  simp [bind, StateT.bind, h]

theorem pure_iff {α : Type} {os os' : Os} {a b : α} :
    (pure a : Net α) os = some (b, os') ↔ a = b ∧ os = os' := by
  constructor
  · intro h
    have heq : some (a, os) = some (b, os') := h
    cases heq
    exact ⟨rfl, rfl⟩
  · rintro ⟨rfl, rfl⟩
    rfl

theorem getErrno_iff {os os' : Os} {err : ℤ} :
    getErrno os = some (err, os') ↔
      os.answers = .errno err :: os'.answers ∧ os'.effects = os.effects := by
  obtain ⟨answers, effects⟩ := os
  obtain ⟨answers', effects'⟩ := os'
  constructor
  · intro h
    simp only [getErrno] at h
    split at h
    · cases h
      exact ⟨rfl, rfl⟩
    · cases h
  · rintro ⟨h, rfl⟩
    simp only at h
    rw [getErrno, h]

theorem pollAwait_iff {os os' : Os} {revents : BitVec 16} :
    pollAwait os = some (revents, os') ↔
      ∃ ps, Polled ps revents ∧ os.answers = ps ++ os'.answers ∧ os'.effects = os.effects := by
  obtain ⟨answers', effects'⟩ := os'
  simp only [pollAwait, Option.map_eq_some_iff, Prod.mk.injEq, Os.mk.injEq]
  constructor
  · rintro ⟨⟨revents, answers⟩, h, rfl, rfl, rfl⟩
    obtain ⟨ps, hp, ha⟩ := pollLoop_polled.mp h
    exact ⟨ps, hp, ha, rfl⟩
  · rintro ⟨ps, hp, ha, rfl⟩
    exact ⟨_, pollLoop_polled.mpr ⟨ps, hp, ha⟩, rfl, rfl, rfl⟩

section Await

variable {f : Answer → Option (ℤ × List Effect)} {happy : ℤ → List Effect} {event : BitVec 16}
  {r : ℤ}

theorem await_of_awaitCall {os os' : Os} (h : awaitCall f happy event os = some (r, os')) :
    ∃ used es, Await f happy event used r es ∧ os.answers = used ++ os'.answers ∧
      os'.effects = os.effects ++ es := by
  rw [awaitCall, bind_iff] at h
  obtain ⟨n, os1, hcall, h⟩ := h
  obtain ⟨a, answers, es, ha, hf, rfl⟩ := socketCall_iff.mp hcall
  split at h
  · rename_i hn
    obtain ⟨_, os2, hrec, h⟩ := bind_iff.mp h
    cases hrec
    obtain ⟨rfl, rfl⟩ := pure_iff.mp h
    exact ⟨[a], _, Await.immediate hf hn, ha, List.append_assoc ..⟩
  · rename_i hn
    obtain ⟨err, os2, herrno, h⟩ := bind_iff.mp h
    obtain ⟨herr, heff⟩ := getErrno_iff.mp herrno
    simp only at herr heff
    split at h
    · rename_i hfail
      obtain ⟨rfl, rfl⟩ := pure_iff.mp h
      exact ⟨[a, .errno err], es, Await.failed hf (not_le.mp hn) hfail, by rw [ha, herr]; rfl, heff⟩
    · rename_i hagain
      obtain ⟨revents, os3, hpoll, h⟩ := bind_iff.mp h
      obtain ⟨ps, hp, hps, heff'⟩ := pollAwait_iff.mp hpoll
      split at h
      · rename_i hup
        obtain ⟨rfl, rfl⟩ := pure_iff.mp h
        exact ⟨_, es, Await.hangup hf (not_le.mp hn) hagain hp hup, by rw [ha, herr, hps]; rfl,
          heff'.trans heff⟩
      · rename_i hup
        split at h
        · rename_i hev
          obtain ⟨rfl, rfl⟩ := pure_iff.mp h
          exact ⟨_, es, Await.unready hf (not_le.mp hn) hagain hp hup hev,
            by rw [ha, herr, hps]; rfl, heff'.trans heff⟩
        · rename_i hev
          obtain ⟨b, rest, es', hb, hfb, rfl⟩ := socketCall_iff.mp h
          refine ⟨_, _, Await.polled hf (not_le.mp hn) hagain hp hup hev hfb, ?_, ?_⟩
          · rw [ha, herr, hps, hb]
            simp
          · rw [heff', heff, List.append_assoc]

theorem socketCall_cons {a : Answer} {n : ℤ} {answers : List Answer} {es es0 : List Effect}
    (hf : f a = some (n, es)) :
    socketCall f ⟨a :: answers, es0⟩ = some (n, ⟨answers, es0 ++ es⟩) :=
  socketCall_iff.mpr ⟨a, answers, es, rfl, hf, rfl⟩

theorem awaitCall_wait {a : Answer} {n err : ℤ} {es es0 : List Effect} {ps rest : List Answer}
    {revents : BitVec 16} (hf : f a = some (n, es)) (hn : n < 0)
    (herr : ¬(err ≠ EAGAIN ∧ err ≠ EWOULDBLOCK)) (hp : Polled ps revents) :
    awaitCall f happy event ⟨a :: .errno err :: (ps ++ rest), es0⟩ =
      (if HANGUP &&& revents ≠ 0 then pure 0
        else if event &&& revents = 0 then pure (-1) else socketCall f : Net ℤ)
        ⟨rest, es0 ++ es⟩ := by
  have hpoll : pollAwait ⟨ps ++ rest, es0 ++ es⟩ = some (revents, ⟨rest, es0 ++ es⟩) :=
    pollAwait_iff.mpr ⟨ps, hp, rfl, rfl⟩
  refine (bind_of_eq (socketCall_cons hf)).trans ?_
  rw [if_neg (not_le.mpr hn)]
  refine (bind_of_eq (x := getErrno) rfl).trans ?_
  rw [if_neg herr]
  exact bind_of_eq hpoll

theorem awaitCall_of_await {used rest : List Answer} {es es0 : List Effect}
    (h : Await f happy event used r es) :
    awaitCall f happy event ⟨used ++ rest, es0⟩ = some (r, ⟨rest, es0 ++ es⟩) := by
  cases h with
  | immediate hf hn =>
    refine (bind_of_eq (socketCall_cons hf)).trans ?_
    rw [if_pos hn, ← List.append_assoc]
    rfl
  | failed hf hn herr =>
    refine (bind_of_eq (socketCall_cons hf)).trans ?_
    rw [if_neg (not_le.mpr hn)]
    refine (bind_of_eq (x := getErrno) rfl).trans ?_
    rw [if_pos herr]
    rfl
  | hangup hf hn herr hp hup =>
    refine (awaitCall_wait hf hn herr hp).trans ?_
    rw [if_pos hup]
    rfl
  | unready hf hn herr hp hup hev =>
    refine (awaitCall_wait hf hn herr hp).trans ?_
    rw [if_neg hup, if_pos hev]
    rfl
  | @polled a b n m err es es' ps revents hf hn herr hp hup hev hb =>
    have hps : a :: .errno err :: (ps ++ [b]) ++ rest = a :: .errno err :: (ps ++ b :: rest) := by
      simp
    rw [hps, awaitCall_wait hf hn herr hp, if_neg hup, if_neg hev, ← List.append_assoc]
    exact socketCall_cons hb

theorem complete_iff {answers : List Answer} {es : List Effect} :
    complete (awaitCall f happy event) answers = some (r, es) ↔
      Await f happy event answers r es := by
  constructor
  · intro h
    simp only [complete] at h
    split at h
    · rename_i hrun
      cases h
      obtain ⟨used, es', hawait, hused, hes⟩ := await_of_awaitCall hrun
      simp only [List.append_nil, List.nil_append] at hused hes
      rwa [hused, hes]
    · cases h
  · intro h
    have hrun := @awaitCall_of_await f happy event r answers [] es [] h
    rw [List.append_nil] at hrun
    rw [complete, hrun]
    rfl

end Await

end Libseff.NetCalls
