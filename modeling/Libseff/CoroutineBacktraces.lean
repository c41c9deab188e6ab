import Libseff.CoroutineHandlers
import Libseff.CoroutineStacks
import Libseff.FrameDescriptions

namespace Libseff.CoroutineBacktraces

open LinkedLists TransitionRuns ShallowHandlers CoroutineRuns CoroutineSim CoroutineRefine
  CoroutineHandlers CoroutineStacks CallFrames FrameDescriptions
open CoroutineMachine (Code Cont Context Machine NULL callContext context coroutinePrelude push
  resumer savedContext startContext)

deriving instance DecidableEq for CoroutineMachine.Cont

def contWords (c : Cont) : List (String × Word) :=
  [("stack_top", c.stack_top), ("current_coroutine", c.current_coroutine), ("rsp", c.rsp),
    ("rbp", c.rbp), ("ip", c.ip), ("rbx", c.rbx), ("r12", c.r12), ("r13", c.r13), ("r14", c.r14),
    ("r15", c.r15)]

/-- The coroutine object at `g` has its `resume_point` where the declarations say. -/
def InMemory (read : Word → Word) (g : Word) (c : Cont) : Prop :=
  ∀ p ∈ contWords c, read (g + BitVec.ofNat 64 resumePointOffset +
    BitVec.ofNat 64 (contOffset p.1)) = p.2

instance (read : Word → Word) (g : Word) (c : Cont) : Decidable (InMemory read g c) :=
  inferInstanceAs (Decidable (∀ p ∈ contWords c, _))

def saved (c : Context) : Registers Reg
  | .rip => some c.ip
  | .rsp => some c.rsp
  | .rbx => some c.rbx
  | .rbp => some c.rbp
  | .r12 => some c.r12
  | .r13 => some c.r13
  | .r14 => some c.r14
  | .r15 => some c.r15
  | _ => none

section Frames

variable (code : Code)

def userFrame (regs : Registers Reg) : Bool := (regs .rip).elim true (userCode code)

/-- The rows of user code come from the compiler. -/
def findRow (compiled : Word → Option (Row Reg)) (regs : Registers Reg) : Option (Row Reg) :=
  (regs .rip).bind fun pc => if userCode code pc then compiled pc else coroutinePreludeRow

/-- The frames behind those of `coroutine_prelude`, each with the coroutine that the
frame before it belongs to. -/
def resumers : List (Registers Reg) → List (Option Word × Registers Reg)
  | f :: f' :: l =>
    if userFrame code f then resumers (f' :: l) else (f .r13, f') :: resumers (f' :: l)
  | _ => []

end Frames

variable {code : Code} {ndebug : Bool} {s s' : State} {a a' : Handlers Word Context}

theorem unwind_prelude {read : Word → Word} {m : Machine} {g : Word} {c : Context}
    (h : InMemory read g (m.coroutines g).resume_point) (hr13 : c.r13 = g) :
    preludeRow.unwind read (saved c) = some (saved (resumer m g)) := by
  have hword : ∀ (name : String) (w : Word) (n : ℕ), (name, w) ∈
      contWords (m.coroutines g).resume_point → contOffset name = n →
      read (g + 8 + BitVec.ofNat 64 n) = w := by
    rintro name w n hmem rfl
    have hread := h _ hmem
    rwa [show resumePointOffset = 8 from (List.cons.inj contOffsets).1] at hread
  have hoffsets := contOffsets
  simp only [List.cons.injEq, and_true] at hoffsets
  obtain ⟨-, hrsp, hrbp, hip, hrbx, hr12, hr13', hr14, hr15⟩ := hoffsets
  subst hr13
  refine Row.unwind_eq rfl fun r => ?_
  cases r with
  | rsp => exact congrArg some (hword _ _ 16 (by simp [contWords, resumer, savedContext]) hrsp)
  | rbp => exact congrArg some (hword _ _ 24 (by simp [contWords, resumer, savedContext]) hrbp)
  | rip => exact congrArg some (hword _ _ 32 (by simp [contWords, resumer, savedContext]) hip)
  | rbx => exact congrArg some (hword _ _ 40 (by simp [contWords, resumer, savedContext]) hrbx)
  | r12 => exact congrArg some (hword _ _ 48 (by simp [contWords, resumer, savedContext]) hr12)
  | r13 => exact congrArg some (hword _ _ 56 (by simp [contWords, resumer, savedContext]) hr13')
  | r14 => exact congrArg some (hword _ _ 64 (by simp [contWords, resumer, savedContext]) hr14)
  | r15 => exact congrArg some (hword _ _ 72 (by simp [contWords, resumer, savedContext]) hr15)
  | rax | rdx | rcx | rsi | rdi | r8 | r9 | r10 | r11 => rfl

def Rooted (code : Code) (s : State) (c : Context) : Prop :=
  userCode code c.ip = true → c.current_coroutine ≠ NULL →
    (s.entered c.current_coroutine).isSome

structure Entries (code : Code) (s : State) (a : Handlers Word Context) : Prop where
  entered : ∀ k e, s.entered k = some e → e.ip = code.prelude_return
  current : Rooted code s (context s.m)
  live : ∀ g c, Live a g c → Rooted code s c

theorem userCode_of_step {act : Action} {e : Event}
    (hs : step code ndebug s act = some (s', e)) :
    userCode code s.m.rip = true ∨ act = .prelude ∨ act = .preludeReturn := by
  by_cases hrip : userCode code s.m.rip = true
  · exact .inl hrip
  · refine .inr ?_
    cases act with
    | prelude => exact .inl rfl
    | preludeReturn => exact .inr rfl
    | init | user | resume | yield | exit | perform | throw | discard =>
      simp only [step, if_neg hrip] at hs
      cases hs

theorem rooted_saves (h : Rooted code s (context s.m)) {act : Action} {o : CoroutineOp}
    {d : Option CoroutineDelivery} (hs : step code ndebug s act = some (s', some (o, d)))
    {c : Context} (hc : saves o = some c) : Rooted code s c := by
  have hcall : act ≠ .prelude → act ≠ .preludeReturn →
      c.current_coroutine = s.m.current_coroutine → Rooted code s c := by
    intro hprelude hreturn hcur _ hne
    rw [hcur] at hne ⊢
    obtain hrip | hact | hact := userCode_of_step hs
    · exact h hrip hne
    · exact absurd hact hprelude
    · exact absurd hact hreturn
  cases step_cases hs with
  | init k fn arg frame_size stack =>
    cases hc
    intro hip
    simp [userCode, startContext] at hip
  | resume | yield =>
    cases hc
    exact hcall (fun he => by cases he) (fun he => by cases he) rfl
  | perform _ _ _ hm =>
    subst hm
    cases hc
    exact hcall (fun he => by cases he) (fun he => by cases he) rfl
  | exit | throw | discard | preludeReturn => cases hc

theorem rooted_mono {c : Context} (h : Rooted code s c)
    (hent : ∀ k, (s.entered k).isSome → (s'.entered k).isSome) : Rooted code s' c :=
  fun hip hne => hent _ (h hip hne)

theorem entered_step {act : Action} {e : Event} (hs : step code ndebug s act = some (s', e)) :
    s'.entered = s.entered ∨ (act = .prelude ∧ e = none ∧
      s'.m.current_coroutine = s.m.current_coroutine ∧
      s'.entered = Function.update s.entered s.m.current_coroutine
        (some (callContext (coroutinePrelude code s.m)))) := by
  cases step_cases hs with
  | prelude => exact .inr ⟨rfl, rfl, rfl, rfl⟩
  | init | user | resume | yield | exit | performDefault | perform | throw | discard
  | preludeReturn => exact .inl rfl

theorem entered_mono {act : Action} {e : Event} (hs : step code ndebug s act = some (s', e))
    (k : Word) (hk : (s.entered k).isSome) : (s'.entered k).isSome := by
  obtain hent | ⟨-, -, -, hent⟩ := entered_step hs
  · rwa [hent]
  · rw [hent]
    by_cases hcur : k = s.m.current_coroutine
    · rw [hcur, Function.update_self]
      rfl
    · rwa [Function.update_of_ne hcur]

theorem entries_step (hsim : Sim code s a) (h : Entries code s a) {act : Action} {e : Event}
    (hs : step code ndebug s act = some (s', e)) (hperf : Performs a e a') :
    Entries code s' a' := by
  have hmono := entered_mono hs
  refine ⟨fun k c hc => ?_, ?_, fun g c hlive => ?_⟩
  · obtain hent | ⟨-, -, -, hent⟩ := entered_step hs
    · exact h.entered k c (hent ▸ hc)
    · rw [hent] at hc
      by_cases hcur : k = s.m.current_coroutine
      · rw [hcur, Function.update_self, Option.some.injEq] at hc
        subst hc
        exact Function.update_self ..
      · rw [Function.update_of_ne hcur] at hc
        exact h.entered k c hc
  · cases step_kind hs with
    | silent hcur =>
      intro _ hne
      change (s'.entered s'.m.current_coroutine).isSome
      obtain hrip | rfl | rfl := userCode_of_step hs
      · have hne : s'.m.current_coroutine ≠ NULL := hne
        rw [hcur] at hne ⊢
        exact hmono _ (h.current hrip hne)
      · cases step_cases hs
        simp [coroutinePrelude, push]
      · cases step_cases hs
    | switch o d hd =>
      obtain ⟨-, happly⟩ := hperf
      have hnext := h.live _ _ (live_delivery happly)
      rw [hd] at hnext
      exact rooted_mono hnext hmono
    | init k fn arg frame_size stack hact =>
      subst hact
      cases step_cases hs
      exact h.current
    | discard k hact =>
      subst hact
      cases step_cases hs
      exact h.current
  · cases e with
    | none =>
      obtain rfl := hperf
      exact rooted_mono (h.live g c hlive) hmono
    | some e =>
      obtain ⟨hmay, happly⟩ := hperf
      obtain hold | hc := live_of_apply hsim.distinct hmay happly hlive
      · exact rooted_mono (h.live g c hold) hmono
      · exact rooted_mono (rooted_saves h.current hs hc) hmono

theorem run_entries {tr : List Event} (h : Run (coroutineSystem code ndebug) tr s) :
    ∃ a, Run handlers (observed tr) a ∧ Sim code s a ∧ Entries code s a := by
  refine Run.invariant (fun tr s => ∃ a, Run handlers (observed tr) a ∧ Sim code s a ∧
    Entries code s a) ?_ ?_ h
  · intro s hinit
    refine ⟨_, Run.start rfl, sim_start hinit, fun k e he => ?_, fun _ hne => ?_,
      fun g c hlive => ?_⟩
    · rw [hinit.2.2.2 k] at he
      cases he
    · exact absurd hinit.1 hne
    · obtain ⟨x, hmem⟩ | ⟨l, hl⟩ := hlive
      · cases x <;> cases hmem
      · cases hl
  · rintro tr s act s' e ⟨a, hrun, hsim, hent⟩ hm hs
    obtain ⟨a', hsim', hperf⟩ := sim_step hsim hm hs
    refine ⟨a', ?_, hsim', entries_step hsim hent hs hperf⟩
    rw [observed_append]
    cases e with
    | none =>
      obtain rfl := hperf
      simpa using hrun
    | some e =>
      obtain ⟨o, d⟩ := e
      obtain ⟨hmay, happly⟩ := hperf
      refine Run.next hrun (a := o) hmay ?_
      simp [shallowHandlers, happly]

/-- The compiler's rows lead from the context `c` through the frames of its
coroutine to the return into `coroutine_prelude`, and those of a thread's own stack
to the first function of the thread. -/
structure Described (code : Code) (compiled : Word → Option (Row Reg)) (read : Word → Word)
    (s : State) (c : Context) : Prop where
  coroutine : ∀ e, c.current_coroutine ≠ NULL → s.entered c.current_coroutine = some e →
    ∃ l, (∀ f ∈ l, userFrame code f = true) ∧
      Walk (findRow code compiled) read (saved c) l (saved e)
  thread : c.current_coroutine = NULL →
    ∃ l f, (∀ f' ∈ l ++ [f], userFrame code f' = true) ∧
      Walk (findRow code compiled) read (saved c) l f ∧
      ((findRow code compiled f).bind fun row => row.unwind read f) = none

theorem resumers_user {l : List (Registers Reg)} (h : ∀ f ∈ l, userFrame code f = true) :
    resumers code l = [] := by
  induction l with
  | nil => rfl
  | cons f l ih =>
    have hrest := ih fun g hg => h g (List.mem_cons_of_mem f hg)
    cases l with
    | nil => rfl
    | cons f' l => rw [resumers, if_pos (h f List.mem_cons_self), hrest]

theorem resumers_append {l : List (Registers Reg)} (h : ∀ f ∈ l, userFrame code f = true)
    (f : Registers Reg) (l' : List (Registers Reg)) :
    resumers code (l ++ f :: l') = resumers code (f :: l') := by
  induction l with
  | nil => rfl
  | cons g l ih =>
    have hrest := ih fun g' hg => h g' (List.mem_cons_of_mem g hg)
    cases l with
    | nil => rw [List.cons_append, List.nil_append, resumers, if_pos (h g List.mem_cons_self)]
    | cons g' l =>
      rw [List.cons_append, List.cons_append, resumers, if_pos (h g List.mem_cons_self)]
      exact hrest

theorem reaches_prelude {compiled : Word → Option (Row Reg)} {read : Word → Word} {c : Context}
    (hne : c.current_coroutine ≠ NULL) (hproper : Proper code c) (hrooted : Rooted code s c)
    (hdescribed : userCode code c.ip = true → Described code compiled read s c)
    (hent : ∀ k e, s.entered k = some e → e.r13 = k ∧ e.ip = code.prelude_return) :
    ∃ l e, (∀ f ∈ l, userFrame code f = true) ∧
      Walk (findRow code compiled) read (saved c) l (saved e) ∧
      userCode code e.ip = false ∧ e.r13 = c.current_coroutine := by
  by_cases hip : userCode code c.ip = true
  · obtain ⟨e, he⟩ := Option.isSome_iff_exists.mp (hrooted hip hne)
    obtain ⟨l, hl, hwalk⟩ := (hdescribed hip).coroutine e hne he
    obtain ⟨hr13, hret⟩ := hent _ e he
    refine ⟨l, e, hl, hwalk, ?_, hr13⟩
    rw [hret]
    simp [userCode]
  · have hip := Bool.eq_false_iff.mpr hip
    exact ⟨[], c, fun f hf => absurd hf List.not_mem_nil, .refl _, hip, (hproper hip).1⟩

theorem resumers_chain {compiled : Word → Option (Row Reg)} {read : Word → Word}
    (hent : ∀ k e, s.entered k = some e → e.r13 = k ∧ e.ip = code.prelude_return)
    {l : List (Word × Context)} {c : Context}
    (hpath : Path (parent s.m) NULL c.current_coroutine (names l))
    (hframes : ∀ p ∈ l, p.1 ≠ NULL ∧ resumer s.m p.1 = p.2 ∧
      InMemory read p.1 (s.m.coroutines p.1).resume_point)
    (hcontexts : ∀ c' ∈ c :: l.map Prod.snd, Proper code c' ∧ Rooted code s c' ∧
      (userCode code c'.ip = true → Described code compiled read s c')) :
    ∃ n, ∀ k, resumers code (backtrace (findRow code compiled) read (n + k + 1) (saved c)) =
      l.map fun p => (some p.1, saved p.2) := by
  induction l generalizing c with
  | nil =>
    obtain ⟨hproper, -, hdescribed⟩ := hcontexts c List.mem_cons_self
    have hnull : c.current_coroutine = NULL := hpath
    have hip : userCode code c.ip = true := by
      by_contra hip
      exact (hproper (Bool.eq_false_iff.mpr hip)).2 hnull
    obtain ⟨l, f, hl, hwalk, hend⟩ := (hdescribed hip).thread hnull
    refine ⟨l.length, fun k => ?_⟩
    rw [Nat.add_assoc, hwalk.backtrace, backtrace, hend, Option.elim_none]
    exact resumers_user hl
  | cons p l ih =>
    obtain ⟨g, c'⟩ := p
    obtain ⟨hg, hpath⟩ := hpath
    obtain ⟨hne, hres, hmem⟩ := hframes (g, c') List.mem_cons_self
    obtain ⟨hproper, hrooted, hdescribed⟩ := hcontexts c List.mem_cons_self
    obtain ⟨l₁, e, hl₁, hwalk, hip, hr13⟩ :=
      reaches_prelude (hg ▸ hne) hproper hrooted hdescribed hent
    have hparent : parent s.m g = c'.current_coroutine := congrArg Context.current_coroutine hres
    obtain ⟨n, hn⟩ := ih (c := c') (hparent ▸ hpath)
      (fun q hq => hframes q (List.mem_cons_of_mem _ hq))
      (fun d hd => hcontexts d (List.mem_cons_of_mem _ hd))
    have hunwind : preludeRow.unwind read (saved e) = some (saved c') :=
      (unwind_prelude hmem (hr13.trans hg)).trans (congrArg (fun d => some (saved d)) hres)
    have hfind : findRow code compiled (saved e) = some preludeRow :=
      (if_neg (by simp [hip])).trans coroutinePreludeRow_eq
    refine ⟨l₁.length + (n + 1), fun k => ?_⟩
    rw [show l₁.length + (n + 1) + k + 1 = l₁.length + (n + k + 1 + 1) by omega, hwalk.backtrace,
      backtrace, hfind, Option.bind_some, hunwind, Option.elim_some, resumers_append hl₁,
      List.map_cons, ← hn k, backtrace, resumers]
    have hframe : userFrame code (saved e) = false := hip
    rw [hframe, if_neg Bool.false_ne_true]
    exact congrArg (fun x => (x, saved c') :: _) (congrArg some (hr13.trans hg))

/-- The frames behind those of `coroutine_prelude` are where the active chain was
resumed. -/
theorem backtraces_run {tr : List Event} (h : Run (coroutineSystem code ndebug) tr s)
    {read : Word → Word} {compiled : Word → Option (Row Reg)}
    (hmem : ∀ g, OnChain s.m g → InMemory read g (s.m.coroutines g).resume_point)
    (hcompiled : ∀ c, (c = context s.m ∨ ∃ g, OnChain s.m g ∧ c = resumer s.m g) →
      userCode code c.ip = true → Described code compiled read s c) :
    ∃ l n, ActiveChain s.m l ∧
      (∀ k, resumers code (backtrace (findRow code compiled) read (n + k) (saved (context s.m))) =
        l.map fun g => (some g, saved (resumer s.m g))) ∧
      ∀ g ∈ l, lastContext (resumeOf g) (observed tr) = some (resumer s.m g) := by
  obtain ⟨a, hrun, hsim, hent⟩ := run_entries h
  have hchain := activeChain_of_sim hsim
  have hon : ∀ p ∈ a.stack, OnChain s.m p.1 := fun p hp =>
    reaches_of_mem hchain.1 hchain.2.2 (List.mem_map_of_mem hp)
  have hwait : ∀ p ∈ a.stack, resumer s.m p.1 = p.2 := fun p hp =>
    (hsim.waiting none p.1 p.2 hp).1
  have hcontexts : ∀ c ∈ context s.m :: a.stack.map Prod.snd, Proper code c ∧ Rooted code s c ∧
      (userCode code c.ip = true → Described code compiled read s c) := by
    intro c hc
    obtain rfl | hc := List.mem_cons.mp hc
    · exact ⟨hsim.proper, hent.current, hcompiled _ (.inl rfl)⟩
    · obtain ⟨⟨g, c⟩, hp, rfl⟩ := List.mem_map.mp hc
      exact ⟨hsim.proper_frames none g c hp, hent.live g c (.inl ⟨none, hp⟩),
        hcompiled c (.inr ⟨g, hon _ hp, (hwait _ hp).symm⟩)⟩
  obtain ⟨n, hn⟩ := resumers_chain
    (fun k e he => ⟨(hsim.entered k e he).1, hent.entered k e he⟩) hsim.stack
    (fun p hp => ⟨ne_null_of_frame (x := none) hsim hp, hwait p hp, hmem p.1 (hon p hp)⟩) hcontexts
  refine ⟨names a.stack, n + 1, hchain, fun k => ?_, fun g hg => ?_⟩
  · rw [Nat.add_right_comm, hn k, names, List.map_map]
    exact List.map_congr_left fun p hp => by rw [Function.comp_apply, hwait p hp]
  · obtain ⟨⟨g, c⟩, hp, rfl⟩ := List.mem_map.mp hg
    rw [hwait _ hp]
    exact (run_traced hrun).2 none g c hp

def nestedResume : List Action :=
  [.init 0x1000 0x500 7 256 0x10000, .init 0x2000 0x600 8 256 0x20000,
    .user { CoroutineRuns.idle with
      rdi := 0x1000, rsi := 1, rsp := 0x8000, rip := 0x400, rbx := 3 },
    .resume, .prelude,
    .user { CoroutineRuns.idle with
      rbx := 0xcacabbbb, r12 := 0xcaca1212, r13 := 0x1000, r14 := 7, r15 := 0x500, rdi := 0x2000
      rsp := 0x101A0, rip := 0x501, memory := fun _ => 0x502 },
    .resume, .prelude]

def sampleMemory (a : Word) : Word :=
  (([(0x101A8, 0x18), (0x201A8, 0x18),
    (0x1008, 0), (0x1010, 0x1000), (0x1018, 0x8008), (0x1020, 0), (0x1028, 0x401), (0x1030, 3),
    (0x1038, 0), (0x1040, 0), (0x1048, 0), (0x1050, 0),
    (0x2008, 0), (0x2010, 0x2000), (0x2018, 0x101A8), (0x2020, 0), (0x2028, 0x502),
    (0x2030, 0xcacabbbb), (0x2038, 0xcaca1212), (0x2040, 0x1000), (0x2048, 7),
    (0x2050, 0x500)] : List (Word × Word)).lookup a).getD 0

def sampleRows (pc : Word) : Option (Row Reg) :=
  if pc = 0x502 ∨ pc = 0x600 then some startproc else none

theorem walk_startproc {c e : Context} (hip : c.ip = 0x502 ∨ c.ip = 0x600)
    (hrip : sampleMemory c.rsp = e.ip) (hrsp : c.rsp + 8 = e.rsp) (hrbx : c.rbx = e.rbx)
    (hrbp : c.rbp = e.rbp) (hr12 : c.r12 = e.r12) (hr13 : c.r13 = e.r13) (hr14 : c.r14 = e.r14)
    (hr15 : c.r15 = e.r15) :
    Walk (findRow exampleCode sampleRows) sampleMemory (saved c) [saved c] (saved e) := by
  have huser : userCode exampleCode c.ip = true := by
    obtain h | h := hip <;> rw [h] <;> decide
  have hfind : findRow exampleCode sampleRows (saved c) = some startproc :=
    (if_pos huser).trans (if_pos hip)
  refine .step hfind (Row.unwind_eq rfl fun r => ?_) (.refl _)
  cases r with
  | rip =>
    refine congrArg some (Eq.trans (congrArg sampleMemory ?_) hrip)
    change c.rsp + 8 + (-8) = c.rsp
    bv_omega
  | rsp =>
    refine congrArg some (Eq.trans ?_ hrsp)
    change c.rsp + 8 + 0 = c.rsp + 8
    bv_omega
  | rbx => exact congrArg some hrbx
  | rbp => exact congrArg some hrbp
  | r12 => exact congrArg some hr12
  | r13 => exact congrArg some hr13
  | r14 => exact congrArg some hr14
  | r15 => exact congrArg some hr15
  | rax | rdx | rcx | rsi | rdi | r8 | r9 | r10 | r11 => rfl

def sampleContexts : List Context :=
  [⟨0xcacabbbb, 0, 0xcaca1212, 0x2000, 8, 0x600, 0x201A8, 0x600, 0x200A0, 0x2000⟩,
    ⟨0xcacabbbb, 0, 0xcaca1212, 0x1000, 7, 0x500, 0x101A8, 0x502, 0, 0x1000⟩,
    ⟨3, 0, 0, 0, 0, 0, 0x8008, 0x401, 0, NULL⟩]

def sampleEntries : List (Option Context) :=
  [some ⟨0xcacabbbb, 0, 0xcaca1212, 0x2000, 8, 0x600, 0x201B0, 0x18, 0x200A0, 0x2000⟩,
    some ⟨0xcacabbbb, 0, 0xcaca1212, 0x1000, 7, 0x500, 0x101B0, 0x18, 0x100A0, 0x1000⟩]

def sampleConts : List Cont :=
  [⟨0, 0x2000, 0x101A8, 0, 0x502, 0xcacabbbb, 0xcaca1212, 0x1000, 7, 0x500⟩,
    ⟨0, 0x1000, 0x8008, 0, 0x401, 3, 0, 0, 0, 0⟩]

theorem backtraces_run_nested : ∃ tr s l n, Run (coroutineSystem exampleCode true) tr s ∧
    s.m.current_coroutine = 0x2000 ∧ parent s.m 0x2000 = 0x1000 ∧ ActiveChain s.m l ∧
    ∀ k, resumers exampleCode (backtrace (findRow exampleCode sampleRows) sampleMemory (n + k)
      (saved (context s.m))) = l.map fun g => (some g, saved (resumer s.m g)) := by
  obtain ⟨tr, s, h, he⟩ := Run.exists_of_exec (S := coroutineSystem exampleCode true)
    (fun _ _ => may_of_allowed) nestedResume
    (s := ⟨CoroutineRuns.idle, fun _ => .unborn, fun _ => none⟩)
    ⟨rfl, rfl, fun _ => rfl, fun _ => rfl⟩
    (fun p => ([context p.1.m, resumer p.1.m 0x2000, resumer p.1.m 0x1000],
      [p.1.entered 0x2000, p.1.entered 0x1000],
      [(p.1.m.coroutines 0x2000).resume_point, (p.1.m.coroutines 0x1000).resume_point]))
    (b := (sampleContexts, sampleEntries, sampleConts)) (by decide +kernel)
  simp only [sampleContexts, sampleEntries, sampleConts, Prod.mk.injEq, List.cons.injEq,
    and_true] at he
  obtain ⟨⟨hinner, houter, hbase⟩, ⟨hinnerEntry, houterEntry⟩, hcont2, hcont1⟩ := he
  have hmem : ∀ g ∈ [0x2000, 0x1000],
      InMemory sampleMemory g (s.m.coroutines g).resume_point := by
    refine List.forall_mem_cons.mpr ⟨?_, List.forall_mem_singleton.mpr ?_⟩
    · rw [hcont2]
      decide +kernel
    · rw [hcont1]
      decide +kernel
  have hcur : s.m.current_coroutine = 0x2000 := congrArg Context.current_coroutine hinner
  have hparent2 : parent s.m 0x2000 = 0x1000 := congrArg Context.current_coroutine houter
  have hparent1 : parent s.m 0x1000 = NULL := congrArg Context.current_coroutine hbase
  have hon : ∀ g, OnChain s.m g → g ∈ [0x2000, 0x1000] := by
    rintro g ⟨fuel, hreach⟩
    exact mem_names_of_reaches ⟨hcur, hparent2, hparent1⟩ hreach
  have hcoroutine : ∀ {c e : Context}, s.entered c.current_coroutine = some e →
      c.current_coroutine ≠ NULL →
      Walk (findRow exampleCode sampleRows) sampleMemory (saved c) [saved c] (saved e) →
      userCode exampleCode c.ip = true → Described exampleCode sampleRows sampleMemory s c := by
    intro c e he hne hwalk hip
    refine ⟨fun e' _ he' => ⟨[saved c], fun f hf => ?_, ?_⟩, fun hnull => absurd hnull hne⟩
    · rw [List.mem_singleton.mp hf]
      exact hip
    · rw [← Option.some.inj (he.symm.trans he')]
      exact hwalk
  have hcompiled : ∀ c, (c = context s.m ∨ ∃ g, OnChain s.m g ∧ c = resumer s.m g) →
      userCode exampleCode c.ip = true → Described exampleCode sampleRows sampleMemory s c := by
    intro c hc hip
    obtain rfl | ⟨g, hg, rfl⟩ := hc
    · rw [hinner] at hip ⊢
      exact hcoroutine hinnerEntry (by decide)
        (walk_startproc (.inr rfl) rfl rfl rfl rfl rfl rfl rfl rfl) hip
    · obtain rfl | hg := List.mem_cons.mp (hon g hg)
      · rw [houter] at hip ⊢
        exact hcoroutine houterEntry (by decide)
          (walk_startproc (.inl rfl) rfl rfl rfl rfl rfl rfl rfl rfl) hip
      · obtain rfl := List.mem_singleton.mp hg
        rw [hbase] at hip ⊢
        refine ⟨fun e hne => absurd rfl hne, fun _ => ⟨[], _, fun f hf => ?_, .refl _, rfl⟩⟩
        rw [List.mem_singleton.mp hf]
        exact hip
  obtain ⟨l, n, hchain, hresumers, -⟩ := backtraces_run h
    (fun g hg => hmem g (hon g hg)) hcompiled
  exact ⟨tr, s, l, n, h, hcur, hparent2, hchain, hresumers⟩

end Libseff.CoroutineBacktraces
