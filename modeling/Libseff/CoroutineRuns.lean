import Libseff.CoroutineMachine
import Libseff.ShallowHandlers

namespace Libseff.CoroutineRuns

open TransitionRuns ShallowHandlers CoroutineMachine

/-- How a coroutine object was left: `active` from a resume of it until a yield
or an exit that is addressed to it. -/
inductive Status where
  | unborn
  | fresh
  | active
  | suspended
  | finished
  | discarded
  deriving DecidableEq

/-- `entered` remembers the context to which the start function of a coroutine
returns. -/
structure State where
  m : Machine
  status : Word → Status
  entered : Word → Option Context

/-- `user` is code between the calls: it leaves the machine as it likes. In
`perform` and `throw` the effect and its payload are in `rdi` and `rsi`. -/
inductive Action where
  | init (k fn arg frame_size stack : Word)
  | user (m : Machine)
  | resume
  | yield
  | exit
  | perform (fuel : ℕ)
  | throw (fuel : ℕ)
  | prelude
  | preludeReturn
  | discard (k : Word)

abbrev CoroutineOp := Op Word Context (Word × Word) Word

abbrev CoroutineDelivery := Delivery Context (Word × Word) Word

/-- The operation that a step performs, and what it gives to the code that runs
next. -/
abbrev Event := Option (CoroutineOp × Option CoroutineDelivery)

def observed (tr : List Event) : List (CoroutineOp × Option CoroutineDelivery) := tr.reduceOption

def request (m : Machine) : Option CoroutineDelivery := some (.request (context m) (m.rax, m.rdx))

def value (m : Machine) : Option CoroutineDelivery := some (.value (context m) m.rax)

def reaches (m : Machine) (h : Word) : ℕ → Word → Bool
  | 0, _ => false
  | fuel + 1, k =>
    decide (k ≠ NULL) && (decide (k = h) || reaches m h fuel (m.coroutines k).parent_coroutine)

def OnChain (m : Machine) (h : Word) : Prop := ∃ fuel, reaches m h fuel m.current_coroutine = true

/-- A function whose caller goes on in `c` has returned and preserved the
registers that the callee saves. -/
def AbiReturn (c : Context) (m : Machine) : Prop :=
  m.rbx = c.rbx ∧ m.rbp = c.rbp ∧ m.r12 = c.r12 ∧ m.r13 = c.r13 ∧ m.r14 = c.r14 ∧ m.r15 = c.r15 ∧
    m.rsp = c.rsp ∧ m.rip = c.ip

def yieldStep (s : State) (m : Machine) : State × Event :=
  (⟨seffYield m, Function.update s.status m.rdi .suspended, s.entered⟩,
    some (.perform m.rdi (m.rsi, m.rdx) (callContext m), request (seffYield m)))

def exitStep (ndebug : Bool) (s : State) (m : Machine) : State × Event :=
  (⟨seffExit ndebug m, Function.update s.status m.rdi .finished, s.entered⟩,
    some (.exit m.rdi (m.rsi, m.rdx), request (seffExit ndebug m)))

section Steps

variable (code : Code) (ndebug : Bool)

def userCode (rip : Word) : Bool :=
  decide (rip ≠ code.coroutine_prelude ∧ rip ≠ code.prelude_return)

def userStep (s : State) : Action → Option (State × Event)
  | .init k fn arg frame_size stack =>
    some (⟨seffCoroutineInitSized code k fn arg frame_size stack s.m,
      Function.update s.status k .fresh, s.entered⟩,
      some (.create k (startContext code k fn arg frame_size stack), none))
  | .user m =>
    some ({ s with m := { m with
      current_coroutine := s.m.current_coroutine, system_stack := s.m.system_stack,
      coroutines := s.m.coroutines } }, none)
  | .resume =>
    some (⟨seffResumeUnwrapped s.m, Function.update s.status s.m.rdi .active, s.entered⟩,
      some (.resume s.m.rdi s.m.rsi (callContext s.m), value (seffResumeUnwrapped s.m)))
  | .yield => some (yieldStep s s.m)
  | .exit => some (exitStep ndebug s s.m)
  | .perform fuel =>
    (seffLocateHandler code s.m fuel s.m.rdi).map fun handler =>
      if handler = NULL then (s, none)
      else yieldStep s { s.m with rdi := handler, rsi := s.m.rdi, rdx := s.m.rsi }
  | .throw fuel =>
    (seffLocateHandler code s.m fuel s.m.rdi).bind fun handler =>
      if handler = NULL then none
      else some (exitStep ndebug s { s.m with rdi := handler, rsi := s.m.rdi, rdx := s.m.rsi })
  | .discard k =>
    some ({ s with status := Function.update s.status k .discarded }, some (.discard k, none))
  | _ => none

/-- Code other than that of `coroutine_prelude` is user code. The default handler
of a `perform` runs in place; that of a `throw` ends the process. -/
def step (s : State) : Action → Option (State × Event)
  | .prelude =>
    if s.m.rip = code.coroutine_prelude then
      let m := coroutinePrelude code s.m
      some (⟨m, s.status, Function.update s.entered m.current_coroutine (some (callContext m))⟩,
        none)
    else none
  | .preludeReturn =>
    if s.m.rip = code.prelude_return then some (exitStep ndebug s (preludeReturn s.m)) else none
  | a => if userCode code s.m.rip = true then userStep code ndebug s a else none

inductive Steps (s : State) : Action → State → Event → Prop
  | init (k fn arg frame_size stack : Word) : Steps s (.init k fn arg frame_size stack)
      ⟨seffCoroutineInitSized code k fn arg frame_size stack s.m,
        Function.update s.status k .fresh, s.entered⟩
      (some (.create k (startContext code k fn arg frame_size stack), none))
  | user (m : Machine) : Steps s (.user m) { s with m := { m with
      current_coroutine := s.m.current_coroutine, system_stack := s.m.system_stack
      coroutines := s.m.coroutines } } none
  | resume : Steps s .resume
      ⟨seffResumeUnwrapped s.m, Function.update s.status s.m.rdi .active, s.entered⟩
      (some (.resume s.m.rdi s.m.rsi (callContext s.m), value (seffResumeUnwrapped s.m)))
  | yield : Steps s .yield (yieldStep s s.m).1 (yieldStep s s.m).2
  | exit : Steps s .exit (exitStep ndebug s s.m).1 (exitStep ndebug s s.m).2
  | performDefault (fuel : ℕ) : Steps s (.perform fuel) s none
  | perform (fuel : ℕ) {handler : Word}
      (hlocate : seffLocateHandler code s.m fuel s.m.rdi = some handler) (hne : handler ≠ NULL)
      {m : Machine} (hm : m = { s.m with rdi := handler, rsi := s.m.rdi, rdx := s.m.rsi }) :
      Steps s (.perform fuel) (yieldStep s m).1 (yieldStep s m).2
  | throw (fuel : ℕ) {handler : Word}
      (hlocate : seffLocateHandler code s.m fuel s.m.rdi = some handler) (hne : handler ≠ NULL)
      {m : Machine} (hm : m = { s.m with rdi := handler, rsi := s.m.rdi, rdx := s.m.rsi }) :
      Steps s (.throw fuel) (exitStep ndebug s m).1 (exitStep ndebug s m).2
  | discard (k : Word) : Steps s (.discard k)
      { s with status := Function.update s.status k .discarded } (some (.discard k, none))
  | prelude (hrip : s.m.rip = code.coroutine_prelude) : Steps s .prelude
      ⟨coroutinePrelude code s.m, s.status, Function.update s.entered s.m.current_coroutine
        (some (callContext (coroutinePrelude code s.m)))⟩ none
  | preludeReturn (hrip : s.m.rip = code.prelude_return) : Steps s .preludeReturn
      (exitStep ndebug s (preludeReturn s.m)).1 (exitStep ndebug s (preludeReturn s.m)).2

inductive Transition (s : State) : State → Event → Prop
  | silent {s' : State} (hco : s'.m.coroutines = s.m.coroutines) (hst : s'.status = s.status) :
      Transition s s' none
  | create (k fn arg frame_size stack : Word) :
      Transition s ⟨seffCoroutineInitSized code k fn arg frame_size stack s.m,
        Function.update s.status k .fresh, s.entered⟩
        (some (.create k (startContext code k fn arg frame_size stack), none))
  | resume :
      Transition s ⟨seffResumeUnwrapped s.m, Function.update s.status s.m.rdi .active, s.entered⟩
        (some (.resume s.m.rdi s.m.rsi (callContext s.m), value (seffResumeUnwrapped s.m)))
  | yield (m : Machine) (hco : m.coroutines = s.m.coroutines)
      (hcur : m.current_coroutine = s.m.current_coroutine) :
      Transition s ⟨seffYield m, Function.update s.status m.rdi .suspended, s.entered⟩
        (some (.perform m.rdi (m.rsi, m.rdx) (callContext m), request (seffYield m)))
  | exit (m : Machine) (hco : m.coroutines = s.m.coroutines) :
      Transition s ⟨seffExit ndebug m, Function.update s.status m.rdi .finished, s.entered⟩
        (some (.exit m.rdi (m.rsi, m.rdx), request (seffExit ndebug m)))
  | discard (k : Word) :
      Transition s { s with status := Function.update s.status k .discarded }
        (some (.discard k, none))

/-- What user code may do: an object is initialised once; only a fresh coroutine
or one that was left by a yield to it is resumed; yields and exits go to the
active chain; and a start function obeys the calling convention. -/
def may (s : State) : Action → Prop
  | .init k _ _ _ _ => k ≠ NULL ∧ s.status k = .unborn
  | .user m =>
    m.rip ≠ code.coroutine_prelude ∧
      (m.rip = code.prelude_return → ∃ c, s.entered s.m.current_coroutine = some c ∧ AbiReturn c m)
  | .resume =>
    userCode code (s.m.memory s.m.rsp) = true ∧
      (s.status s.m.rdi = .fresh ∨ s.status s.m.rdi = .suspended)
  | .yield => userCode code (s.m.memory s.m.rsp) = true ∧ OnChain s.m s.m.rdi
  | .exit => OnChain s.m s.m.rdi
  | .perform _ => userCode code (s.m.memory s.m.rsp) = true
  | .discard k => s.status k = .fresh ∨ s.status k = .suspended
  | _ => True

def coroutineSystem : System State Action Event where
  init s := s.m.current_coroutine = NULL ∧ userCode code s.m.rip = true ∧
    (∀ k, s.status k = .unborn) ∧ ∀ k, s.entered k = none
  may := may code
  step := step code ndebug

/-- A check that implies the obligations; it looks eight coroutines up the chain. -/
def allowed (s : State) : Action → Bool
  | .init k _ _ _ _ => decide (k ≠ NULL ∧ s.status k = .unborn)
  | .user m => userCode code m.rip
  | .resume =>
    userCode code (s.m.memory s.m.rsp) &&
      decide (s.status s.m.rdi = .fresh ∨ s.status s.m.rdi = .suspended)
  | .yield =>
    userCode code (s.m.memory s.m.rsp) && reaches s.m s.m.rdi 8 s.m.current_coroutine
  | .exit => reaches s.m s.m.rdi 8 s.m.current_coroutine
  | .perform _ => userCode code (s.m.memory s.m.rsp)
  | .discard k => decide (s.status k = .fresh ∨ s.status k = .suspended)
  | _ => true

end Steps

theorem may_of_allowed {code : Code} {s : State} {act : Action} (h : allowed code s act = true) :
    may code s act := by
  cases act with
  | user m =>
    simp only [allowed, userCode, decide_eq_true_eq] at h
    exact ⟨h.1, fun hret => absurd hret h.2⟩
  | resume =>
    simp only [allowed, Bool.and_eq_true, decide_eq_true_eq] at h
    exact h
  | yield =>
    simp only [allowed, Bool.and_eq_true] at h
    exact ⟨h.1, 8, h.2⟩
  | exit => exact ⟨8, h⟩
  | perform fuel => exact h
  | init | discard =>
    simp only [allowed, decide_eq_true_eq] at h
    exact h
  | throw | prelude | preludeReturn => trivial

theorem userStep_cases {code : Code} {ndebug : Bool} {s s' : State} {act : Action} {e : Event}
    (hs : userStep code ndebug s act = some (s', e)) : Steps code ndebug s act s' e := by
  cases act with
  | init k fn arg frame_size stack =>
    cases hs
    exact .init k fn arg frame_size stack
  | user m =>
    cases hs
    exact .user m
  | resume =>
    cases hs
    exact .resume
  | yield =>
    cases hs
    exact .yield
  | exit =>
    cases hs
    exact .exit
  | perform fuel =>
    obtain ⟨handler, hlocate, he⟩ := Option.map_eq_some_iff.mp hs
    split at he
    · cases he
      exact .performDefault fuel
    · rename_i hne
      cases he
      exact .perform fuel hlocate hne rfl
  | throw fuel =>
    obtain ⟨handler, hlocate, he⟩ := Option.bind_eq_some_iff.mp hs
    split at he
    · cases he
    · rename_i hne
      cases he
      exact .throw fuel hlocate hne rfl
  | discard k =>
    cases hs
    exact .discard k
  | prelude | preludeReturn => cases hs

/-- Every fact about a step is a case analysis of `Steps`. -/
theorem step_cases {code : Code} {ndebug : Bool} {s s' : State} {act : Action} {e : Event}
    (hs : step code ndebug s act = some (s', e)) : Steps code ndebug s act s' e := by
  cases act with
  | prelude =>
    simp only [step] at hs
    split at hs
    · rename_i hrip
      cases hs
      exact .prelude hrip
    · cases hs
  | preludeReturn =>
    simp only [step] at hs
    split at hs
    · rename_i hrip
      cases hs
      exact .preludeReturn hrip
    · cases hs
  | init | user | resume | yield | exit | perform | throw | discard =>
    simp only [step] at hs
    split at hs
    · exact userStep_cases hs
    · cases hs

theorem step_transition {code : Code} {ndebug : Bool} {s s' : State} {act : Action} {e : Event}
    (hs : step code ndebug s act = some (s', e)) : Transition code ndebug s s' e := by
  cases step_cases hs with
  | init k fn arg frame_size stack => exact .create k fn arg frame_size stack
  | user | performDefault | prelude => exact .silent rfl rfl
  | resume => exact .resume
  | yield => exact .yield s.m rfl rfl
  | perform _ _ _ hm =>
    subst hm
    exact .yield _ rfl rfl
  | exit => exact .exit s.m rfl
  | preludeReturn => exact .exit (preludeReturn s.m) rfl
  | throw _ _ _ hm =>
    subst hm
    exact .exit _ rfl
  | discard k => exact .discard k

theorem discard_of_event {code : Code} {ndebug : Bool} {s s' : State} {act : Action} {k : Word}
    {d : Option CoroutineDelivery} (hs : step code ndebug s act = some (s', some (.discard k, d))) :
    act = .discard k := by
  generalize he : (some (.discard k, d) : Event) = e at hs
  cases step_cases hs with
  | discard =>
    cases he
    rfl
  | init | user | resume | yield | exit | performDefault | perform | throw | prelude
  | preludeReturn => cases he

theorem perform_of_event {code : Code} {ndebug : Bool} {s s' : State} {act : Action} {h : Word}
    {x : Word × Word} {c : Context} {d : Option CoroutineDelivery}
    (hs : step code ndebug s act = some (s', some (.perform h x c, d))) :
    act = .yield ∨ ∃ fuel, act = .perform fuel := by
  generalize he : (some (.perform h x c, d) : Event) = e at hs
  cases step_cases hs with
  | yield => exact .inl rfl
  | perform fuel => exact .inr ⟨fuel, rfl⟩
  | init | user | resume | exit | performDefault | throw | discard | prelude | preludeReturn =>
    cases he

def exampleCode : Code := ⟨0x10, 0x18, 0x20, by decide⟩

def idle : Machine where
  rax := 0
  rbx := 0
  rcx := 0
  rdx := 0
  rsi := 0
  rdi := 0
  rbp := 0
  rsp := 0
  r9 := 0
  r10 := 0
  r11 := 0
  r12 := 0
  r13 := 0
  r14 := 0
  r15 := 0
  rip := 0x400
  stack_top := 0
  current_coroutine := NULL
  system_stack := 0
  memory _ := 0x401
  coroutines _ := ⟨⟨0, 0, 0, 0, 0, 0, 0, 0, 0, 0⟩, .finished, 0, 0⟩

def nestedYield : List Action :=
  [.init 0x1000 0x500 7 256 0x10000, .init 0x2000 0x600 8 256 0x20000,
    .user { idle with rdi := 0x1000, rsi := 1, rsp := 0x8000, rip := 0x400, rbx := 3 },
    .resume, .prelude,
    .user { idle with rdi := 0x2000, rsp := 0x10100, rip := 0x501, rbx := 4 },
    .resume, .prelude,
    .user { idle with rdi := 0x1000, rsi := 0x77, rdx := 0x88, rsp := 0x20100, rip := 0x601 },
    .yield]

end Libseff.CoroutineRuns
