import Libseff.NetCalls

namespace Libseff.NetBuffers

open FixedWidth NetCalls

abbrev Buffer := ℤ → Byte

def overwrite (buffer : Buffer) (bytes : List Byte) : Buffer := fun i =>
  if 0 ≤ i then bytes[i.toNat]?.getD (buffer i) else buffer i

def apply (buffer : Buffer) : Effect → Buffer
  | .recv _ (some bytes) => overwrite buffer bytes
  | .store index value => Function.update buffer index value
  | _ => buffer

def contents (buffer : Buffer) (effects : List Effect) : Buffer := effects.foldl apply buffer

def Within (bufsz : ℕ) : Effect → Prop
  | .recv _ (some bytes) => bytes.length ≤ bufsz
  | .store index _ => 0 ≤ index ∧ index < bufsz
  | _ => True

def delivered (answers : List Answer) : List (List Byte) :=
  answers.filterMap fun | .recv bytes => bytes | _ => none

def Bounded (bufsz : ℕ) (answers : List Answer) : Prop :=
  ∀ bytes ∈ delivered answers, bytes.length ≤ bufsz

/-- Nothing is written outside of the buffer, and what the buffer contains after
data has come depends on this data and not on the way that it came. -/
def SameCondition (bufsz : ℕ) (buffer : Buffer) (answers : List Answer) (r : ℤ)
    (effects : List Effect) : Prop :=
  (∀ e ∈ effects, Within bufsz e) ∧
  (0 < r → ∀ answers' r' effects', Bounded bufsz answers' →
    complete (awaitRecv bufsz) answers' = some (r', effects') →
    delivered answers' = delivered answers →
    ∀ i : ℤ, 0 ≤ i → i < bufsz → contents buffer effects' i = contents buffer effects i)

theorem delivered_polled {ps : List Answer} {revents : BitVec 16} (h : Polled ps revents) :
    delivered ps = [] := by
  induction h with
  | ready hret => rfl
  | again _ ih => exact ih

theorem recv_delivered {bufsz : ℕ} {a : Answer} {n : ℤ} {es : List Effect}
    (h : recv bufsz a = some (n, es)) (buffer : Buffer) :
    contents buffer es = (delivered [a]).foldl overwrite buffer ∧
      (Bounded bufsz [a] → ∀ e ∈ es, Within bufsz e) ∧
      ∀ bytes ∈ delivered [a], n = int32 bytes.length := by
  obtain ⟨rfl, rfl, rfl⟩ | ⟨bytes, rfl, rfl, rfl⟩ := recv_cases h
  · exact ⟨rfl, by simp [Within], by simp [delivered]⟩
  · have hmem : ∀ bytes' ∈ delivered [.recv (some bytes)], bytes' = bytes :=
      fun bytes' h => List.mem_singleton.mp h
    exact ⟨rfl, by simp [Bounded, delivered, Within], fun bytes' h => by rw [hmem bytes' h]⟩

def Immediate (bufsz : ℕ) (answers : List Answer) (r : ℤ) (es : List Effect) : Prop :=
  ∃ bytes, answers = [.recv (some bytes)] ∧ r = int32 bytes.length ∧ 0 ≤ r ∧
    es = [.recv bufsz (some bytes), .store r 0]

/-- A run in which only `recv` writes. The result is that of the last delivery
if it is positive, and what came before was too long for an `int`. -/
structure Deferred (bufsz : ℕ) (buffer : Buffer) (answers : List Answer) (r : ℤ)
    (es : List Effect) : Prop where
  contents_eq : contents buffer es = (delivered answers).foldl overwrite buffer
  within : Bounded bufsz answers → ∀ e ∈ es, Within bufsz e
  positive : 0 < r → ∃ chunks bytes, delivered answers = chunks ++ [bytes] ∧
    r = int32 bytes.length ∧ ∀ chunk ∈ chunks, int32 chunk.length < 0
  not_positive : ¬0 < r → ∀ bytes ∈ delivered answers, ¬0 < int32 bytes.length
  not_single : 1 < answers.length

theorem delivered_append (answers answers' : List Answer) :
    delivered (answers ++ answers') = delivered answers ++ delivered answers' :=
  List.filterMap_append ..

theorem delivered_wait {a : Answer} {err : ℤ} {ps : List Answer} {revents : BitVec 16}
    (h : Polled ps revents) : delivered (a :: .errno err :: ps) = delivered [a] := by
  have hsplit := delivered_append [a, .errno err] ps
  rw [delivered_polled h, List.append_nil] at hsplit
  exact hsplit

theorem delivered_neg {bufsz : ℕ} {a : Answer} {n : ℤ} {es : List Effect}
    (hf : recv bufsz a = some (n, es)) (hn : n < 0) :
    ∀ bytes ∈ delivered [a], int32 bytes.length < 0 := by
  obtain ⟨-, -, hvalue⟩ := recv_delivered hf 0
  intro bytes hb
  rwa [← hvalue bytes hb]

theorem deferred_failed {bufsz : ℕ} {a : Answer} {n r : ℤ} {es : List Effect}
    {answers : List Answer} (hf : recv bufsz a = some (n, es)) (hn : n < 0)
    (hd : delivered answers = delivered [a]) (hlen : 1 < answers.length) (hr : ¬0 < r)
    (buffer : Buffer) : Deferred bufsz buffer answers r es := by
  obtain ⟨hcontents, hwithin, -⟩ := recv_delivered hf buffer
  refine ⟨by rw [hd, hcontents], ?_, fun hpos => absurd hpos hr, ?_, hlen⟩
  · rw [Bounded, hd]
    exact hwithin
  · intro _ bytes hb
    rw [hd] at hb
    exact not_lt.mpr (delivered_neg hf hn bytes hb).le

theorem run_cases {bufsz : ℕ} {answers : List Answer} {r : ℤ} {es : List Effect}
    (h : complete (awaitRecv bufsz) answers = some (r, es)) (buffer : Buffer) :
    Immediate bufsz answers r es ∨ Deferred bufsz buffer answers r es := by
  cases complete_iff.mp h with
  | @immediate a n es hf hn =>
    obtain ⟨-, rfl, -⟩ | ⟨bytes, rfl, rfl, rfl⟩ := recv_cases hf
    · cases hn
    · exact Or.inl ⟨bytes, rfl, rfl, hn, rfl⟩
  | @failed a n err es hf hn herr =>
    have hd : delivered [a, .errno err] = delivered [a] :=
      (delivered_append [a] [.errno err]).trans (List.append_nil _)
    exact Or.inr (deferred_failed hf hn hd (by simp) (by omega) buffer)
  | hangup hf hn herr hp hup =>
    exact Or.inr (deferred_failed hf hn (delivered_wait hp) (by simp) (by omega) buffer)
  | unready hf hn herr hp hup hev =>
    exact Or.inr (deferred_failed hf hn (delivered_wait hp) (by simp) (by omega) buffer)
  | @polled a b n m err es es' ps revents hf hn herr hp hup hev hb =>
    obtain ⟨hcontents, hwithin, -⟩ := recv_delivered hf buffer
    obtain ⟨hcontents', hwithin', hvalue⟩ := recv_delivered hb (contents buffer es)
    have hd : delivered (a :: .errno err :: (ps ++ [b])) = delivered [a] ++ delivered [b] := by
      have hsplit := delivered_append (a :: .errno err :: ps) [b]
      rwa [delivered_wait hp] at hsplit
    refine Or.inr ⟨?_, ?_, ?_, ?_, by simp⟩
    · rw [contents, List.foldl_append, ← contents, ← contents, hcontents', hcontents, hd,
        List.foldl_append]
    · intro hbound
      rw [Bounded, hd, List.forall_mem_append] at hbound
      rw [List.forall_mem_append]
      exact ⟨hwithin hbound.1, hwithin' hbound.2⟩
    · intro hpos
      obtain ⟨-, rfl, -⟩ | ⟨bytes, rfl, rfl, -⟩ := recv_cases hb
      · cases hpos
      · exact ⟨delivered [a], bytes, hd, rfl, delivered_neg hf hn⟩
    · intro hpos
      rw [hd, List.forall_mem_append]
      refine ⟨fun bytes hb => not_lt.mpr (delivered_neg hf hn bytes hb).le, fun bytes hb => ?_⟩
      rwa [← hvalue bytes hb]

theorem immediate_run (bufsz : ℕ) {bytes : List Byte} (h : 0 ≤ int32 bytes.length) :
    complete (awaitRecv bufsz) [.recv (some bytes)] = some (int32 bytes.length,
      [.recv bufsz (some bytes), .store (int32 bytes.length) 0]) :=
  complete_iff.mpr (@Await.immediate (recv bufsz) (fun n_read => [.store n_read 0]) READ
    (.recv (some bytes)) _ _ rfl h)

theorem deferred_run (bufsz : ℕ) (bytes : List Byte) :
    complete (awaitRecv bufsz) [.recv none, .errno EAGAIN, .poll 1 READ, .recv (some bytes)] =
      some (int32 bytes.length, [.recv bufsz none, .recv bufsz (some bytes)]) := by
  have hneg : (-1 : ℤ) < 0 := by decide
  have hagain : ¬(EAGAIN ≠ EAGAIN ∧ EAGAIN ≠ EWOULDBLOCK) := fun h => h.1 rfl
  have hup : ¬HANGUP &&& READ ≠ 0 := by decide
  have hev : ¬READ &&& READ = 0 := by decide
  exact complete_iff.mpr (@Await.polled (recv bufsz) _ READ (.recv none) (.recv (some bytes)) _ _ _
    _ _ _ _ rfl hneg hagain (Polled.ready one_ne_zero) hup hev rfl)

theorem store_agrees_iff {bufsz : ℕ} {r : ℤ} (hr : 0 < r) (c : Buffer) :
    (∀ i : ℤ, 0 ≤ i → i < bufsz → Function.update c r 0 i = c i) ↔ (r < bufsz → c r = 0) := by
  constructor
  · intro h hlt
    rw [← h r hr.le hlt, Function.update_self]
  · intro h i _ hlt
    obtain rfl | hne := eq_or_ne i r
    · rw [Function.update_self, h hlt]
    · rw [Function.update_of_ne hne]

theorem int32_le (n : ℕ) : int32 n ≤ n := by
  obtain hlt | hge := Nat.lt_or_ge n (2 ^ 31)
  · rw [int32_natCast_of_lt hlt]
  · have := int32_lt n
    omega

theorem Deferred.single {bufsz : ℕ} {buffer : Buffer} {answers : List Answer} {r : ℤ}
    {es : List Effect} (h : Deferred bufsz buffer answers r es) {bytes : List Byte}
    (hd : delivered answers = [bytes]) :
    (0 < r ↔ 0 < int32 bytes.length) ∧ (0 < r → r = int32 bytes.length) ∧
      contents buffer es = overwrite buffer bytes := by
  have hvalue : 0 < r → r = int32 bytes.length := by
    intro hpos
    obtain ⟨chunks, bytes', hd', hr, -⟩ := h.positive hpos
    rw [hd] at hd'
    obtain ⟨-, hsingle⟩ := List.append_eq_singleton_iff.mp hd'.symm |>.resolve_right (by simp)
    rwa [List.singleton_inj.mp hsingle] at hr
  refine ⟨⟨fun hpos => hvalue hpos ▸ hpos, fun hpos => ?_⟩, hvalue, ?_⟩
  · by_contra hr
    exact h.not_positive hr bytes (by simp [hd]) hpos
  · rw [h.contents_eq, hd]
    rfl

theorem contents_immediate (bufsz : ℕ) (buffer : Buffer) (bytes : List Byte) (r : ℤ) :
    contents buffer [.recv bufsz (some bytes), .store r 0] =
      Function.update (overwrite buffer bytes) r 0 := rfl

theorem contents_deferred (bufsz : ℕ) (buffer : Buffer) (bytes : List Byte) :
    contents buffer [.recv bufsz none, .recv bufsz (some bytes)] = overwrite buffer bytes := rfl

theorem immediate_iff {bufsz : ℕ} (hbufsz : 1 ≤ bufsz) {buffer : Buffer} {bytes : List Byte}
    (hlen : bytes.length ≤ bufsz) (hr : 0 ≤ int32 bytes.length) :
    SameCondition bufsz buffer [.recv (some bytes)] (int32 bytes.length)
        [.recv bufsz (some bytes), .store (int32 bytes.length) 0] ↔
      (0 < int32 bytes.length → int32 bytes.length < bufsz ∧
        overwrite buffer bytes (int32 bytes.length) = 0) := by
  constructor
  · rintro ⟨hwithin, hsame⟩ hpos
    have hlt : int32 bytes.length < bufsz :=
      (hwithin (.store (int32 bytes.length) 0) (by simp)).2
    have hrun := hsame hpos _ _ _ (by simpa [Bounded, delivered] using hlen)
      (deferred_run bufsz bytes) rfl _ hr hlt
    rw [contents_immediate, contents_deferred, Function.update_self] at hrun
    exact ⟨hlt, hrun⟩
  · intro hcond
    refine ⟨?_, ?_⟩
    · intro e he
      obtain rfl | rfl : e = .recv bufsz (some bytes) ∨ e = .store (int32 bytes.length) 0 := by
        simpa using he
      · exact hlen
      · refine ⟨hr, ?_⟩
        obtain hzero | hpos := hr.eq_or_lt
        · rw [← hzero]
          omega
        · exact (hcond hpos).1
    · intro hpos answers' r' es' _ hrun' hd
      obtain ⟨bytes', rfl, rfl, -, rfl⟩ | hdeferred := run_cases hrun' buffer
      · obtain rfl : bytes' = bytes := List.singleton_inj.mp hd
        exact fun i _ _ => rfl
      · obtain ⟨-, -, hcontents⟩ := hdeferred.single hd
        rw [hcontents, contents_immediate]
        intro i hi hlt
        exact ((store_agrees_iff hpos _).mpr (fun _ => (hcond hpos).2) i hi hlt).symm

theorem deferred_iff {bufsz : ℕ} {buffer : Buffer} {answers : List Answer} {r : ℤ}
    {es : List Effect} (hbound : Bounded bufsz answers) (h : Deferred bufsz buffer answers r es) :
    SameCondition bufsz buffer answers r es ↔
      ∀ bytes, delivered answers = [bytes] → 0 < int32 bytes.length →
        int32 bytes.length < bufsz → overwrite buffer bytes (int32 bytes.length) = 0 := by
  constructor
  · rintro ⟨-, hsame⟩ bytes hd hpos
    obtain ⟨hr, -, hcontents⟩ := h.single hd
    have hbound' : Bounded bufsz [.recv (some bytes)] := fun b hb => hbound b (by rwa [hd])
    have hrun := hsame (hr.mpr hpos) _ _ _ hbound' (immediate_run bufsz hpos.le) hd.symm
    rw [hcontents, contents_immediate] at hrun
    exact (store_agrees_iff hpos _).mp hrun
  · intro hcond
    refine ⟨h.within hbound, ?_⟩
    intro hpos answers' r' es' _ hrun' hd
    obtain ⟨bytes, rfl, rfl, -, rfl⟩ | hdeferred := run_cases hrun' buffer
    · obtain ⟨hr, -, hcontents⟩ := h.single hd.symm
      rw [hcontents, contents_immediate]
      exact (store_agrees_iff (hr.mp hpos) _).mpr (hcond bytes hd.symm (hr.mp hpos))
    · intro i _ _
      rw [hdeferred.contents_eq, h.contents_eq, hd]

/-- The buffer is in the same condition on both ways exactly when the byte after
the delivered ones was zero before, or they fill the buffer and did not come at
once. -/
theorem awaitRecv_sameCondition_iff {bufsz : ℕ} (hbufsz : 1 ≤ bufsz) (buffer : Buffer)
    {answers : List Answer} (hbound : Bounded bufsz answers) {r : ℤ} {es : List Effect}
    (h : complete (awaitRecv bufsz) answers = some (r, es)) :
    SameCondition bufsz buffer answers r es ↔
      ∀ bytes, delivered answers = [bytes] → 0 < int32 bytes.length →
        (int32 bytes.length < bufsz → overwrite buffer bytes (int32 bytes.length) = 0) ∧
        (int32 bytes.length = bufsz → answers ≠ [.recv (some bytes)]) := by
  obtain ⟨bytes, rfl, rfl, hr, rfl⟩ | hdeferred := run_cases h buffer
  · have hlen : bytes.length ≤ bufsz := hbound bytes (by simp [delivered])
    rw [immediate_iff hbufsz hlen hr]
    have hle := int32_le bytes.length
    constructor
    · rintro hcond bytes' hd hpos
      obtain rfl : bytes = bytes' := List.singleton_inj.mp hd
      obtain ⟨hlt, hzero⟩ := hcond hpos
      exact ⟨fun _ => hzero, fun heq => absurd heq hlt.ne⟩
    · intro hcond hpos
      obtain ⟨hzero, hfull⟩ := hcond bytes rfl hpos
      have hne : int32 bytes.length ≠ bufsz := fun heq => hfull heq rfl
      have hlt : int32 bytes.length < bufsz := by omega
      exact ⟨hlt, hzero hlt⟩
  · rw [deferred_iff hbound hdeferred]
    constructor
    · rintro hcond bytes hd hpos
      refine ⟨hcond bytes hd hpos, ?_⟩
      rintro - rfl
      exact absurd hdeferred.not_single (by simp)
    · intro hcond bytes hd hpos
      exact (hcond bytes hd hpos).1

theorem awaitRecv_sameCondition_two :
    SameCondition 4 (fun _ => 0) [.recv (some [1, 2])] 2
      [.recv 4 (some [1, 2]), .store 2 0] := by
  have hbound : Bounded 4 [.recv (some [1, 2])] := by simp [Bounded, delivered]
  refine (awaitRecv_sameCondition_iff (by decide) _ hbound (by decide +kernel)).mpr ?_
  rintro bytes hd -
  obtain rfl : [1, 2] = bytes := List.singleton_inj.mp hd
  have hfull : ¬int32 (2 : ℕ) = (4 : ℕ) := by decide +kernel
  exact ⟨fun _ => by decide +kernel, fun h => absurd h hfull⟩

/-- Two bytes that fill the buffer at once: the terminator is stored behind it. -/
theorem not_sameCondition_full :
    ¬∀ (bufsz : ℕ) (buffer : Buffer) (answers : List Answer) (r : ℤ) (es : List Effect),
      1 ≤ bufsz → Bounded bufsz answers → complete (awaitRecv bufsz) answers = some (r, es) →
        SameCondition bufsz buffer answers r es := by
  intro hall
  have hbound : Bounded 2 [.recv (some [1, 2])] := by simp [Bounded, delivered]
  have h := hall 2 (fun _ => 0) [.recv (some [1, 2])] 2 [.recv 2 (some [1, 2]), .store 2 0]
    (by decide) hbound (by decide +kernel)
  have hstore := (h.1 (.store 2 0) (by simp)).2
  exact absurd hstore (by decide)

end Libseff.NetBuffers
