import Libseff.TaskCoroutines
import Libseff.ThreadContexts

namespace Libseff.TaskContexts

open TransitionRuns ShallowHandlers CoroutineMachine CoroutineRuns CoroutineSim CoroutineRefine
  CoroutineHandlers CoroutineContexts ThreadHandlers ThreadContexts SchedulerMoves SchedulerOwner
  SchedulerRuns TaskCoroutines

variable {n : ℕ}

/-- The scheduler with the threads that its workers run on; the coroutine of the
task `t` is at `address t`. -/
structure World (n : ℕ) where
  scheff : Scheduler.State n Word
  process : Process (Fin n)
  address : ℕ → Word

/-- The scheduler takes a step, with the call that it makes for it, if any, or the
code of a thread does something of its own. -/
inductive WorldAction (n : ℕ) where
  | scheff (a : Scheduler.Action n Word) (call : Action)
  | own (i : Fin n) (act : Action)

def place (address : ℕ → Word) : Use Word → Action → ℕ → Word
  | .init t _ _, .init k _ _ _ _ => Function.update address t k
  | _, _ => address

section Steps

variable [NeZero n] (code : Code) (ndebug : Bool)

def worldStep (w : World n) : WorldAction n → Option (World n × Option (Fin n × Event))
  | .scheff a call =>
    (Scheduler.step w.scheff a).bind fun p =>
      match uses w.scheff a with
      | none => some ({ w with scheff := p.1 }, none)
      | some (i, use) =>
        (step code ndebug (thread w.process i) call).map fun q =>
          (⟨p.1, after w.process i q.1, place w.address use call⟩, some (i, q.2))
  | .own i act =>
    (step code ndebug (thread w.process i) act).map fun q =>
      ({ w with process := after w.process i q.1 }, some (i, q.2))

/-- The call that uses the coroutine of a task. A new coroutine is at an address
that was none before. -/
def Calls (w : World n) (i : Fin n) (call : Action) : Use Word → Prop
  | .init _ fn arg => ∃ k frame_size stack, call = .init k fn arg frame_size stack ∧ k ≠ NULL ∧
    w.process.status k = .unborn
  | .resume t => call = .resume ∧ (w.process.registers i).rdi = w.address t ∧
    userCode code (w.process.memory (w.process.registers i).rsp) = true
  | .request t => userCode code (w.process.memory (w.process.registers i).rsp) = true ∧
    ∃ s' x c d, step code ndebug (thread w.process i) call =
      some (s', some (.perform (w.address t) x c, d))
  | .ret t => ∃ s' x d, step code ndebug (thread w.process i) call =
      some (s', some (.exit (w.address t) x, d))
  | .drop t => call = .discard (w.address t)

/-- Tasks and callbacks may use coroutines of their own; a callback returns from
them before it returns to the scheduler. -/
def worldMay (w : World n) : WorldAction n → Prop
  | .scheff a call => Scheduler.may w.scheff a ∧
    (∀ i, returns i a = true → (w.process.registers i).current_coroutine = NULL) ∧
    ∀ i use, uses w.scheff a = some (i, use) → Calls code ndebug w i call use
  | .own i act => may code (thread w.process i) act ∧
    ∀ s' o d, step code ndebug (thread w.process i) act = some (s', some (o, d)) →
      client (w.scheff.worker i) = true ∧ ∀ t, t < w.scheff.created → subject o ≠ w.address t

/-- `scheff_init`, and then calls of `scheff_schedule` by the first thread. -/
inductive Begun : List (Fin n × Event) → World n → Prop
  | init {process : Process (Fin n)}
      (h : ∀ i, (coroutineSystem code ndebug).init (thread process i)) (address : ℕ → Word) :
      Begun [] ⟨Scheduler.scheffInit n Word, process, address⟩
  | schedule {tr : List (Fin n × Event)} {w : World n} (h : Begun tr w)
      {fn arg k frame_size stack : Word} (hnull : k ≠ NULL) (hk : w.process.status k = .unborn)
      {s' : State} {e : Event}
      (hs : step code ndebug (thread w.process 0) (.init k fn arg frame_size stack) =
        some (s', e)) :
      Begun (tr ++ [(0, e)]) ⟨Scheduler.scheffSchedule w.scheff fn arg, after w.process 0 s',
        Function.update w.address w.scheff.created k⟩

def worldSystem (n : ℕ) [NeZero n] (code : Code) (ndebug : Bool) :
    System (World n) (WorldAction n) (Option (Fin n × Event)) where
  init w := ∃ tr, Begun code ndebug tr w
  may := worldMay code ndebug
  step := worldStep code ndebug

end Steps

def leftAt (process : Process (Fin n)) (k : Word) : Context :=
  savedContext (process.coroutines k).resume_point
    (process.coroutines k).resume_point.current_coroutine

/-- The coroutine of a task is where the scheduler has the task: it can be resumed
while the task waits, and it is the only one of the scheduler on the thread of the
worker that runs the task, below whatever the task has resumed itself. -/
structure Linked (code : Code) (w : World n) (a : Threads (Fin n) Word Context) : Prop where
  owned : Owned w.scheff
  sim : ∀ i, Sim code (thread w.process i) (view a i)
  born : ∀ t, t < w.scheff.created → w.process.status (w.address t) ≠ .unborn
  injective : ∀ t u, t < w.scheff.created → u < w.scheff.created →
    w.address t = w.address u → t = u
  waits : ∀ t, Waits w.scheff t → w.process.status (w.address t) = .fresh ∨
    w.process.status (w.address t) = .suspended
  start : ∀ t task, w.scheff.tasks t = some task → w.process.status (w.address t) = .fresh →
    ∃ frame_size stack, leftAt w.process (w.address t) =
      startContext code (w.address t) task.coroutine.fn task.coroutine.arg frame_size stack
  runs : ∀ i t, runs (w.scheff.worker i) = some t →
    ∃ c, (a.stack i).getLast? = some (w.address t, c)
  outside : ∀ i, client (w.scheff.worker i) = false → a.stack i = []

section Linked

variable {code : Code} {ndebug : Bool} {w w' : World n} {a a' : Threads (Fin n) Word Context}

theorem lt_created {s : Scheduler.State n Word} (h : Owned s) {t : ℕ}
    {task : Scheduler.ScheffTask Word} (htask : s.tasks t = some task) : t < s.created := by
  by_contra hle
  cases htask.symm.trans (h.fresh t (Nat.not_lt.mp hle))

theorem Linked.lt_of_waits (h : Linked code w a) {t : ℕ} (ht : Waits w.scheff t) :
    t < w.scheff.created := by
  obtain ⟨⟨task, htask, -⟩, -⟩ := ht
  exact lt_created h.owned htask

theorem Linked.lt_of_hands (h : Linked code w a) {i : Fin n} {t : ℕ}
    (ht : t ∈ SchedulerPlaces.hands (w.scheff.worker i)) : t < w.scheff.created := by
  obtain ⟨task, htask, -⟩ := h.owned.held i t ht
  exact lt_created h.owned htask

theorem Linked.keep (h : Linked code w a) (P : ℕ → Prop) (howned : Owned w'.scheff)
    (hsim : ∀ i, Sim code (thread w'.process i) (view a' i)) (haddress : w'.address = w.address)
    (hcreated : w'.scheff.created = w.scheff.created)
    (hsame : ∀ t, t < w.scheff.created → ¬ P t →
      w'.process.coroutines (w.address t) = w.process.coroutines (w.address t) ∧
        w'.process.status (w.address t) = w.process.status (w.address t))
    (hstart : ∀ t, ¬ P t → SameStart w.scheff w'.scheff t)
    (hwaits : ∀ t, ¬ P t → Waits w'.scheff t → Waits w.scheff t)
    (hused : ∀ t, P t → w'.process.status (w.address t) ≠ .unborn ∧
      w'.process.status (w.address t) ≠ .fresh ∧
      (Waits w'.scheff t → w'.process.status (w.address t) = .suspended))
    (hruns : ∀ i t, TaskCoroutines.runs (w'.scheff.worker i) = some t →
      ∃ c, (a'.stack i).getLast? = some (w.address t, c))
    (houtside : ∀ i, client (w'.scheff.worker i) = false → a'.stack i = []) :
    Linked code w' a' := by
  refine ⟨howned, hsim, fun t ht => ?_, ?_, fun t ht => ?_, fun t task htask hfresh => ?_, ?_,
    houtside⟩
  · rw [hcreated] at ht
    rw [haddress]
    by_cases hP : P t
    · exact (hused t hP).1
    · rw [(hsame t ht hP).2]
      exact h.born t ht
  · rw [hcreated, haddress]
    exact h.injective
  · rw [haddress]
    by_cases hP : P t
    · exact .inr ((hused t hP).2.2 ht)
    · have hold := hwaits t hP ht
      rw [(hsame t (h.lt_of_waits hold) hP).2]
      exact h.waits t hold
  · rw [haddress] at hfresh ⊢
    by_cases hP : P t
    · exact absurd hfresh (hused t hP).2.1
    · obtain ⟨task₀, htask₀, hfn, harg⟩ := hstart t hP task htask
      obtain ⟨hco, hst⟩ := hsame t (lt_created h.owned htask₀) hP
      rw [hst] at hfresh
      obtain ⟨frame_size, stack, hleft⟩ := h.start t task₀ htask₀ hfresh
      refine ⟨frame_size, stack, ?_⟩
      rw [leftAt, hco, ← hfn, ← harg]
      exact hleft
  · rw [haddress]
    exact hruns

theorem Linked.quiet (h : Linked code w a) {s' : Scheduler.State n Word}
    {act : Scheduler.Action n Word} (howned : Owned s') (hq : Quiet w.scheff s' act)
    (hreturns : ∀ i, returns i act = true → (w.process.registers i).current_coroutine = NULL) :
    Linked code { w with scheff := s' } a := by
  refine h.keep (fun _ => False) howned h.sim rfl hq.created (fun _ _ _ => ⟨rfl, rfl⟩)
    (fun t _ => hq.start t) (fun t _ => hq.waits t) (fun _ hP => hP.elim) (fun i t hi => ?_)
    fun i hi => ?_
  · exact h.runs i t (hq.runs i ▸ hi)
  · cases hclient : client (w.scheff.worker i) with
    | false => exact h.outside i hclient
    | true => exact stack_eq_nil (h.sim i) (hreturns i (hq.client i hclient hi))

def statusAfter : CoroutineOp → Status
  | .create _ _ => .fresh
  | .resume _ _ _ => .active
  | .perform _ _ _ => .suspended
  | .exit _ _ => .finished
  | .discard _ => .discarded

theorem status_of_event {s s' : State} {o : CoroutineOp} {d : Option CoroutineDelivery}
    (hs : Transition code ndebug s s' (some (o, d))) : s'.status (subject o) = statusAfter o := by
  cases hs with
  | create | resume | yield | exit | discard => exact Function.update_self ..

theorem Linked.use (h : Linked code w a) {i : Fin n} {t : ℕ} (ht : t < w.scheff.created)
    {s' : State} {o : CoroutineOp} {d : Option CoroutineDelivery}
    (hs : Transition code ndebug (thread w.process i) s' (some (o, d)))
    (ho : subject o = w.address t) (hfresh : statusAfter o ≠ .fresh)
    {b : Handlers Word Context} {scheff : Scheduler.State n Word} {x : Scheduler.Worker Word}
    (howned : Owned scheff)
    (hsim : ∀ j, Sim code (thread (after w.process i s') j) (view (put a i b) j))
    (hcreated : scheff.created = w.scheff.created)
    (htasks : ∀ u, u ≠ t → scheff.tasks u = w.scheff.tasks u)
    (hworker : scheff.worker = Function.update w.scheff.worker i x)
    (hwas : ∀ u, u ≠ t → TaskCoroutines.runs (w.scheff.worker i) ≠ some u)
    (hwaits : Waits scheff t → statusAfter o = .suspended)
    (hruns : ∀ u, TaskCoroutines.runs x = some u →
      ∃ c, b.stack.getLast? = some (w.address u, c))
    (houtside : client x = false → b.stack = []) :
    Linked code ⟨scheff, after w.process i s', w.address⟩ (put a i b) := by
  have hstatus : s'.status (w.address t) = statusAfter o := ho ▸ status_of_event hs
  have hunborn : statusAfter o ≠ .unborn := by cases o <;> simp [statusAfter]
  have hother : ∀ {j}, j ≠ i → scheff.worker j = w.scheff.worker j ∧
      (put a i b).stack j = a.stack j := by
    intro j hj
    rw [hworker]
    exact ⟨Function.update_of_ne hj .., Function.update_of_ne hj ..⟩
  refine h.keep (fun u => u = t) howned hsim rfl hcreated (fun u hu hut => ?_)
    (fun u hu => sameStart_of_eq (htasks u hu)) (fun u hu hw => ?_) ?_ (fun j u hj => ?_)
    fun j hj => ?_
  · refine unchanged hs (w.address u) fun o' d' he => ?_
    cases he
    rw [ho]
    exact fun he => hut (h.injective u t hu ht he)
  · obtain ⟨⟨task, htask, hready⟩, hno⟩ := hw
    refine ⟨⟨task, (htasks u hu).symm.trans htask, hready⟩, fun j => ?_⟩
    by_cases hji : j = i
    · subst hji
      exact hwas u hu
    · rw [← (hother hji).1]
      exact hno j
  · rintro u rfl
    simp only [after, hstatus]
    exact ⟨hunborn, hfresh, hwaits⟩
  · by_cases hji : j = i
    · subst hji
      simp only [hworker, Function.update_self] at hj
      simpa only [put, Function.update_self] using hruns u hj
    · rw [(hother hji).1] at hj
      rw [(hother hji).2]
      exact h.runs j u hj
  · by_cases hji : j = i
    · subst hji
      simp only [hworker, Function.update_self] at hj
      simpa only [put, Function.update_self] using houtside hj
    · rw [(hother hji).1] at hj
      rw [(hother hji).2]
      exact h.outside j hj

theorem Linked.own (h : Linked code w a) (hapart : Apart a) {i : Fin n} {act : Action}
    (hm : may code (thread w.process i) act) {s' : State} {e : Event}
    (hs : step code ndebug (thread w.process i) act = some (s', e))
    (hown : ∀ o d, e = some (o, d) → client (w.scheff.worker i) = true ∧
      ∀ t, t < w.scheff.created → subject o ≠ w.address t) :
    ∃ a', ThreadPerforms a i e a' ∧
      Linked code { w with process := after w.process i s' } a' := by
  obtain ⟨a', hsim, hperf⟩ := process_step h.sim hapart hm hs
  refine ⟨a', hperf, h.keep (fun _ => False) h.owned hsim rfl rfl (fun t ht _ => ?_)
    (fun t _ => sameStart_of_eq rfl) (fun _ _ ht => ht) (fun _ hP => hP.elim) (fun j t hj => ?_)
    fun j hj => ?_⟩
  · exact unchanged (step_transition hs) _ fun o d he => Ne.symm ((hown o d he).2 t ht)
  · obtain ⟨c, hlast⟩ := h.runs j t hj
    cases e with
    | none =>
      obtain rfl := hperf
      exact ⟨c, hlast⟩
    | some e =>
      obtain ⟨o, d⟩ := e
      obtain ⟨-, b, happly, rfl⟩ := hperf
      refine ⟨c, ?_⟩
      by_cases hji : j = i
      · subst hji
        have hne := (hown o d rfl).2 t (h.lt_of_hands (runs_of_hands hj))
        simpa only [put, Function.update_self] using getLast?_apply happly hlast hne
      · simpa only [put, Function.update_of_ne hji] using hlast
  · cases e with
    | none =>
      obtain rfl := hperf
      exact h.outside j hj
    | some e =>
      obtain ⟨o, d⟩ := e
      obtain ⟨-, b, happly, rfl⟩ := hperf
      have hji : j ≠ i := by
        rintro rfl
        cases hj.symm.trans (hown o d rfl).1
      simpa only [put, Function.update_of_ne hji] using h.outside j hj

theorem exit_of_event {s s' : State} {act : Action} {k : Word} {x : Word × Word}
    {d : Option CoroutineDelivery} (hs : step code ndebug s act = some (s', some (.exit k x, d))) :
    act = .exit ∨ (∃ fuel, act = .throw fuel) ∨ act = .preludeReturn := by
  generalize he : (some (.exit k x, d) : Event) = e at hs
  cases step_cases hs with
  | exit => exact .inl rfl
  | throw fuel => exact .inr (.inl ⟨fuel, rfl⟩)
  | preludeReturn => exact .inr (.inr rfl)
  | init | user | resume | yield | performDefault | perform | discard | prelude => cases he

theorem Linked.onChain (h : Linked code w a) {i : Fin n} {t : ℕ}
    (hrun : TaskCoroutines.runs (w.scheff.worker i) = some t) :
    OnChain (thread w.process i).m (w.address t) := by
  obtain ⟨c, hlast⟩ := h.runs i t hrun
  exact reaches_of_mem (h.sim i).stack (activeChain_of_sim (h.sim i)).2.2
    (List.mem_map_of_mem (f := Prod.fst) (List.mem_of_getLast? hlast))

theorem rest_eq_nil {b : Handlers Word Context} (hd : Distinct (group b)) {g : Word} {c : Context}
    (hlast : b.stack.getLast? = some (g, c))
    {p : List (Word × Context) × Context × List (Word × Context)}
    (hp : splitAt g b.stack = some p) : p.2.2 = [] := by
  cases hrest : p.2.2.getLast? with
  | none => exact List.getLast?_eq_none_iff.mp hrest
  | some f =>
    have hsame : f = (g, c) := Option.some.inj ((getLast?_of_split hp hrest).symm.trans hlast)
    have hmem : g ∈ names p.2.2 :=
      List.mem_map_of_mem (f := Prod.fst) (hsame ▸ List.mem_of_getLast? hrest)
    exact absurd hmem (not_mem_of_split hd hp).2.1

theorem Linked.init (h : Linked code w a) (hapart : Apart a) {i : Fin n} {k fn arg : Word}
    {frame_size stack : Word} (hnull : k ≠ NULL) (hk : w.process.status k = .unborn)
    {s' : State} {e : Event}
    (hs : step code ndebug (thread w.process i) (.init k fn arg frame_size stack) =
      some (s', e)) {scheff : Scheduler.State n Word} (howned : Owned scheff)
    (hcreated : scheff.created = w.scheff.created + 1)
    (htask : scheff.tasks w.scheff.created = some (Scheduler.initTask fn arg))
    (htasks : ∀ t, t ≠ w.scheff.created → scheff.tasks t = w.scheff.tasks t)
    (hruns : ∀ j, TaskCoroutines.runs (scheff.worker j) =
      TaskCoroutines.runs (w.scheff.worker j))
    (hclient : ∀ j, client (w.scheff.worker j) = client (scheff.worker j)) :
    ∃ a', ThreadPerforms a i e a' ∧ Linked code ⟨scheff, after w.process i s',
      Function.update w.address w.scheff.created k⟩ a' := by
  have hm : may code (thread w.process i) (.init k fn arg frame_size stack) := ⟨hnull, hk⟩
  obtain ⟨a', hsim, hperf⟩ := process_step h.sim hapart hm hs
  have hmove := step_cases hs
  cases hmove with
  | init =>
    obtain ⟨-, b, happly, rfl⟩ := hperf
    have hstack : ∀ j, (put a i b).stack j = a.stack j := by
      intro j
      cases happly
      by_cases hj : j = i
      · subst hj
        exact Function.update_self ..
      · exact Function.update_of_ne hj ..
    have haddress : ∀ t, t < w.scheff.created →
        Function.update w.address w.scheff.created k t = w.address t := fun t ht =>
      Function.update_of_ne (Nat.ne_of_lt ht) ..
    have hne : ∀ t, t < w.scheff.created → w.address t ≠ k := by
      rintro t ht rfl
      exact h.born t ht hk
    have hsplit : ∀ t, t < scheff.created → t < w.scheff.created ∨ t = w.scheff.created := by
      intro t ht
      omega
    refine ⟨_, ⟨fun j c ho u x => ?_, b, happly, rfl⟩, howned, hsim, fun t ht => ?_, ?_,
      fun t ht => ?_, fun t task ht hfresh => ?_, fun j t hj => ?_, fun j hj => ?_⟩
    · cases ho
      exact not_mem_group (h.sim u) (fun he => by cases hk.symm.trans he)
        (fun he => by cases hk.symm.trans he) (fun he => by cases hk.symm.trans he) x
    · obtain hlt | rfl := hsplit t ht
      · simp only [haddress t hlt, after, Function.update_of_ne (hne t hlt)]
        exact h.born t hlt
      · simp [after]
    · intro t u ht hu he
      obtain hlt | rfl := hsplit t ht
      · obtain hlt' | rfl := hsplit u hu
        · simp only [haddress t hlt, haddress u hlt'] at he
          exact h.injective t u hlt hlt' he
        · simp only [haddress t hlt, Function.update_self] at he
          exact absurd he (hne t hlt)
      · obtain hlt' | rfl := hsplit u hu
        · simp only [haddress u hlt', Function.update_self] at he
          exact absurd he.symm (hne u hlt')
        · rfl
    · by_cases hlt : t = w.scheff.created
      · subst hlt
        exact .inl (by simp [after])
      · have hold : Waits w.scheff t := waits_congr (htasks t hlt) hruns ht
        have ht' := h.lt_of_waits hold
        simp only [haddress t ht', after, Function.update_of_ne (hne t ht')]
        exact h.waits t hold
    · by_cases hlt : t = w.scheff.created
      · subst hlt
        rw [htask] at ht
        cases ht
        refine ⟨frame_size, stack, ?_⟩
        simp only [Function.update_self]
        exact suspended_init code k fn arg frame_size stack (thread w.process i).m
      · have ht' : w.scheff.tasks t = some task := (htasks t hlt).symm.trans ht
        have hlt' := lt_created h.owned ht'
        simp only [haddress t hlt', after, Function.update_of_ne (hne t hlt')] at hfresh ⊢
        obtain ⟨frame_size, stack, hleft⟩ := h.start t task ht' hfresh
        refine ⟨frame_size, stack, ?_⟩
        rw [← hleft]
        simp only [leftAt, seffCoroutineInitSized, Function.update_of_ne (hne t hlt')]
        rfl
    · rw [hruns] at hj
      have ht := h.lt_of_hands (runs_of_hands hj)
      simp only [hstack, haddress t ht]
      exact h.runs j t hj
    · rw [hstack]
      exact h.outside j ((hclient j).trans hj)

theorem Linked.call (h : Linked code w a) (hapart : Apart a) {act : Scheduler.Action n Word}
    {scheff : Scheduler.State n Word} {i : Fin n} {use : Use Word} {call : Action} {s' : State}
    {e : Event} (howned : Owned scheff) (hstep : UseStep w.scheff act (some (i, use)) scheff)
    (hcall : Calls code ndebug w i call use)
    (hs : step code ndebug (thread w.process i) call = some (s', e)) :
    ∃ a', may code (thread w.process i) call ∧ ThreadPerforms a i e a' ∧
      Linked code ⟨scheff, after w.process i s', place w.address use call⟩ a' := by
  cases hstep with
  | @init _ t fn arg hpc =>
    obtain ⟨k, frame_size, stack, rfl, hnull, hk⟩ := hcall
    have hworker : ∀ j, j ≠ i → (Scheduler.setWorker (Scheduler.newTask w.scheff fn arg) i
        (.forkEnqueue t w.scheff.created)).worker j = w.scheff.worker j :=
      fun j hj => Function.update_of_ne hj ..
    obtain ⟨a', hperf, hlinked⟩ := h.init hapart hnull hk hs howned rfl
      (Function.update_self ..) (fun u hu => Function.update_of_ne hu ..)
      (runs_update (s := w.scheff) (by rw [hpc]; rfl)) fun j => by
        by_cases hj : j = i
        · subst hj
          simp [Scheduler.setWorker, hpc, client]
        · rw [hworker j hj]
    exact ⟨a', ⟨hnull, hk⟩, hperf, hlinked⟩
  | @resume _ t hpc hwaits =>
    obtain ⟨rfl, hrdi, hret⟩ := hcall
    have hm : may code (thread w.process i) .resume := ⟨hret, by
      have hst := h.waits t hwaits
      rw [← hrdi] at hst
      exact hst⟩
    obtain ⟨a', hsim, hperf⟩ := process_step h.sim hapart hm hs
    have hmove := step_cases hs
    cases hmove with
    | resume =>
      obtain ⟨-, b, happly, rfl⟩ := id hperf
      refine ⟨_, hm, hperf, h.use (h.lt_of_waits hwaits) (step_transition hs) hrdi
        (fun he => by cases he) howned hsim rfl (fun _ _ => rfl) rfl
        (fun u _ => by simp [hpc, TaskCoroutines.runs]) (fun hw => ?_)
        (fun u hu => ?_) fun he => by cases he⟩
      · exact absurd (by simp [Scheduler.setWorker, TaskCoroutines.runs]) (hw.2 i)
      · cases hu
        obtain ⟨p, -, he⟩ := Option.map_eq_some_iff.mp happly
        obtain ⟨rfl, -⟩ := Prod.mk.inj he
        have hnil : a.stack i = [] := h.outside i (by rw [hpc]; rfl)
        refine ⟨callContext (thread w.process i).m, ?_⟩
        rw [view_stack, hnil, List.getLast?_append, ← hrdi]
        rfl
  | @request _ t _ x hpc hworker hruns _ htasks hcreated =>
    obtain ⟨hret, u, y, c, d, hevent⟩ := hcall
    cases hs.symm.trans hevent
    have hrun : TaskCoroutines.runs (w.scheff.worker i) = some t := by rw [hpc]; rfl
    have hm : may code (thread w.process i) call := by
      obtain rfl | ⟨fuel, rfl⟩ := perform_of_event hs
      · refine ⟨hret, ?_⟩
        have hmove := step_cases hs
        generalize he : (some (Op.perform (w.address t) y c, d) : Event) = e at hmove
        cases hmove with
        | yield =>
          simp only [yieldStep, Option.some.injEq, Prod.mk.injEq, Op.perform.injEq] at he
          rw [← he.1.1]
          exact h.onChain hrun
      · exact hret
    obtain ⟨a', hsim, hperf⟩ := process_step h.sim hapart hm hs
    obtain ⟨-, b, happly, rfl⟩ := id hperf
    obtain ⟨p, hp, he⟩ := Option.map_eq_some_iff.mp happly
    cases he
    obtain ⟨c', hlast⟩ := h.runs i t hrun
    have hnil := rest_eq_nil (h.sim i).distinct hlast hp
    refine ⟨_, hm, hperf, h.use (h.lt_of_hands (runs_of_hands hrun)) (step_transition hs) rfl
      (fun he => by cases he) howned hsim hcreated (fun u _ => congrFun htasks u) hworker
      (fun u hu => by simpa [hpc, TaskCoroutines.runs] using Ne.symm hu) (fun _ => rfl)
      (fun u hu => ?_) fun _ => hnil⟩
    cases hruns.symm.trans hu
  | @ret _ t _ x hpc hworker hruns _ htasks hcreated hdone =>
    obtain ⟨u, y, d, hevent⟩ := hcall
    cases hs.symm.trans hevent
    have hrun : TaskCoroutines.runs (w.scheff.worker i) = some t := by rw [hpc]; rfl
    have hm : may code (thread w.process i) call := by
      obtain rfl | ⟨fuel, rfl⟩ | rfl := exit_of_event hs
      · have hmove := step_cases hs
        generalize he : (some (Op.exit (w.address t) y, d) : Event) = e at hmove
        cases hmove with
        | exit =>
          simp only [exitStep, Option.some.injEq, Prod.mk.injEq, Op.exit.injEq] at he
          have hmay : may code (thread w.process i) .exit =
            OnChain (thread w.process i).m (thread w.process i).m.rdi := rfl
          rw [hmay, ← he.1.1]
          exact h.onChain hrun
      · trivial
      · trivial
    obtain ⟨a', hsim, hperf⟩ := process_step h.sim hapart hm hs
    obtain ⟨-, b, happly, rfl⟩ := id hperf
    obtain ⟨p, hp, he⟩ := Option.map_eq_some_iff.mp happly
    cases he
    obtain ⟨c', hlast⟩ := h.runs i t hrun
    have hnil := rest_eq_nil (h.sim i).distinct hlast hp
    refine ⟨_, hm, hperf, h.use (h.lt_of_hands (runs_of_hands hrun)) (step_transition hs) rfl
      (fun he => by cases he) howned hsim hcreated htasks hworker
      (fun u hu => by simpa [hpc, TaskCoroutines.runs] using Ne.symm hu)
      (fun hw => absurd hw hdone) (fun u hu => ?_) fun _ => hnil⟩
    cases hruns.symm.trans hu
  | @drop _ t _ x hpc hwaits hworker hruns htasks hcreated hdone =>
    obtain rfl := hcall
    have hm : may code (thread w.process i) (.discard (w.address t)) := h.waits t hwaits
    obtain ⟨a', hsim, hperf⟩ := process_step h.sim hapart hm hs
    have hmove := step_cases hs
    cases hmove with
    | discard =>
      obtain ⟨-, b, happly, rfl⟩ := id hperf
      have hnil : a.stack i = [] := h.outside i (by rw [hpc]; rfl)
      refine ⟨_, hm, hperf, h.use (h.lt_of_waits hwaits) (step_transition hs) rfl
        (fun he => by cases he) howned hsim hcreated htasks hworker
        (fun u _ => by simp [hpc, TaskCoroutines.runs])
        (fun hw => absurd hw hdone) (fun u hu => ?_) fun _ => ?_⟩
      · cases hruns.symm.trans hu
      · cases happly
        exact hnil

theorem run_extend {tr : List (Fin n × Event)} {p : Process (Fin n)} {i : Fin n} {call : Action}
    {s' : State} {e : Event} (h : Run (processSystem (Fin n) code ndebug) tr p)
    (ha : Run (threadHandlers (Fin n) Word Context (Word × Word) Word) (observedAt tr) a)
    (hm : may code (thread p i) call) (hs : step code ndebug (thread p i) call = some (s', e))
    (hperf : ThreadPerforms a i e a') :
    Run (processSystem (Fin n) code ndebug) (tr ++ [(i, e)]) (after p i s') ∧
      Run (threadHandlers (Fin n) Word Context (Word × Word) Word)
        (observedAt (tr ++ [(i, e)])) a' := by
  refine ⟨Run.next h (a := (i, call)) hm ?_, ?_⟩
  · simp [processSystem, hs]
  · rw [observedAt_append]
    exact run_performs ha hperf

variable [NeZero n]

structure Tracks (code : Code) (ndebug : Bool) (tr : List (Fin n × Event)) (w : World n)
    (a : Threads (Fin n) Word Context) : Prop where
  process : Run (processSystem (Fin n) code ndebug) tr w.process
  handlers : Run (threadHandlers (Fin n) Word Context (Word × Word) Word) (observedAt tr) a
  scheff : ∃ tr', Run (Scheduler.scheffSystem n Word) tr' w.scheff
  linked : Linked code w a

theorem begun_init {tr : List (Fin n × Event)} (h : Begun code ndebug tr w) :
    (Scheduler.scheffSystem n Word).init w.scheff := by
  induction h with
  | init => exact ⟨[], rfl⟩
  | @schedule _ _ _ fn arg _ _ _ _ _ _ _ _ ih =>
    obtain ⟨tasks, htasks⟩ := ih
    refine ⟨tasks ++ [(fn, arg)], ?_⟩
    rw [List.foldl_append, ← htasks]
    rfl

theorem begun_tracks {tr : List (Fin n × Event)} (h : Begun code ndebug tr w) :
    ∃ a, Tracks code ndebug tr w a := by
  have hscheff := begun_init h
  induction h with
  | init hinit =>
    refine ⟨_, Run.start hinit, Run.start rfl, ⟨[], Run.start hscheff⟩, owned_init,
      fun i => sim_start (hinit i), fun t ht => absurd ht (Nat.not_lt_zero t),
      fun t _ ht => absurd ht (Nat.not_lt_zero t), fun t ht => ?_, fun t task ht => (by cases ht),
      fun i t hi => (by cases hi), fun _ _ => rfl⟩
    obtain ⟨⟨task, htask, -⟩, -⟩ := ht
    cases htask
  | @schedule tr w hbegun fn arg k frame_size stack hnull hk s' e hs ih =>
    obtain ⟨a, h⟩ := ih (begun_init hbegun)
    obtain ⟨a', hperf, hlinked⟩ := h.linked.init (run_traced h.handlers).1 hnull hk hs
      (owned_schedule h.linked.owned fn arg) rfl (Function.update_self ..)
      (fun t ht => Function.update_of_ne ht ..) (fun _ => rfl) fun _ => rfl
    have hm : may code (thread w.process 0) (.init k fn arg frame_size stack) := ⟨hnull, hk⟩
    obtain ⟨hrun, hrun'⟩ := run_extend h.process h.handlers hm hs hperf
    exact ⟨a', hrun, hrun', ⟨[], Run.start hscheff⟩, hlinked⟩

theorem tracks_step {tr : List (Fin n × Event)} (h : Tracks code ndebug tr w a)
    {act : WorldAction n} {e : Option (Fin n × Event)} (hm : worldMay code ndebug w act)
    (hs : worldStep code ndebug w act = some (w', e)) :
    ∃ a', Tracks code ndebug (tr ++ e.toList) w' a' := by
  have hapart := (run_traced h.handlers).1
  cases act with
  | scheff b call =>
    obtain ⟨hmay, hreturns, hcalls⟩ := hm
    obtain ⟨⟨scheff, e'⟩, hstep, hs⟩ := Option.bind_eq_some_iff.mp hs
    have huse := step_uses h.linked.owned hstep
    have howned : Owned scheff := owned_step h.linked.owned hmay hstep
    obtain ⟨tr', hrun⟩ := h.scheff
    have hscheff := Run.next hrun hmay hstep
    cases hu : uses w.scheff b with
    | none =>
      rw [hu] at huse hs
      cases hs
      rw [Option.toList_none, List.append_nil]
      cases huse with
      | quiet hq =>
        exact ⟨a, h.process, h.handlers, ⟨_, hscheff⟩, h.linked.quiet howned hq hreturns⟩
    | some p =>
      obtain ⟨i, use⟩ := p
      rw [hu] at huse hs
      obtain ⟨⟨s', e''⟩, hcall, hs⟩ := Option.map_eq_some_iff.mp hs
      cases hs
      obtain ⟨a', hmc, hperf, hlinked⟩ := h.linked.call hapart howned huse (hcalls i use hu) hcall
      obtain ⟨hproc, hhand⟩ := run_extend h.process h.handlers hmc hcall hperf
      exact ⟨a', hproc, hhand, ⟨_, hscheff⟩, hlinked⟩
  | own i call =>
    obtain ⟨⟨s', e'⟩, hcall, hs⟩ := Option.map_eq_some_iff.mp hs
    cases hs
    obtain ⟨a', hperf, hlinked⟩ := h.linked.own hapart hm.1 hcall fun o d he =>
      hm.2 s' o d (he ▸ hcall)
    obtain ⟨hproc, hhand⟩ := run_extend h.process h.handlers hm.1 hcall hperf
    exact ⟨a', hproc, hhand, h.scheff, hlinked⟩

theorem run_tracks {tr : List (Option (Fin n × Event))}
    (h : Run (worldSystem n code ndebug) tr w) :
    ∃ tr₀ w₀ a, Begun code ndebug tr₀ w₀ ∧ Tracks code ndebug (tr₀ ++ tr.reduceOption) w a := by
  refine Run.invariant (fun tr w => ∃ tr₀ w₀ a, Begun code ndebug tr₀ w₀ ∧
    Tracks code ndebug (tr₀ ++ tr.reduceOption) w a) ?_ ?_ h
  · rintro w ⟨tr₀, hbegun⟩
    obtain ⟨a, ha⟩ := begun_tracks hbegun
    exact ⟨tr₀, w, a, hbegun, by rwa [List.reduceOption_nil, List.append_nil]⟩
  · rintro tr w act w' e ⟨tr₀, w₀, a, hbegun, ha⟩ hm hs
    obtain ⟨a', ha'⟩ := tracks_step ha hm hs
    refine ⟨tr₀, w₀, a', hbegun, ?_⟩
    rwa [List.reduceOption_append, List.reduceOption_singleton, ← List.append_assoc]

theorem Tracks.use {tr : List (Fin n × Event)} (h : Tracks code ndebug tr w a)
    {act : Scheduler.Action n Word} {call : Action} {e : Option (Fin n × Event)} {i : Fin n}
    {use : Use Word} (hm : worldMay code ndebug w (.scheff act call))
    (hs : worldStep code ndebug w (.scheff act call) = some (w', e))
    (hu : uses w.scheff act = some (i, use)) :
    ∃ scheff s' e' a', UseStep w.scheff act (some (i, use)) scheff ∧
      Calls code ndebug w i call use ∧ may code (thread w.process i) call ∧
      step code ndebug (thread w.process i) call = some (s', e') ∧
      w' = ⟨scheff, after w.process i s', place w.address use call⟩ ∧ Linked code w' a' := by
  obtain ⟨hmay, -, hcalls⟩ := hm
  obtain ⟨⟨scheff, e₁⟩, hstep, hs⟩ := Option.bind_eq_some_iff.mp hs
  have huse := step_uses h.linked.owned hstep
  rw [hu] at huse hs
  obtain ⟨⟨s', e'⟩, hcall, hs⟩ := Option.map_eq_some_iff.mp hs
  cases hs
  obtain ⟨a', hmc, -, hlinked⟩ := h.linked.call (run_traced h.handlers).1
    (owned_step h.linked.owned hmay hstep) huse (hcalls i use hu) hcall
  exact ⟨scheff, s', e', a', huse, hcalls i use hu, hmc, hcall, rfl, hlinked⟩

theorem Tracks.resumed {tr : List (Fin n × Event)} (h : Tracks code ndebug tr w a)
    {act : Scheduler.Action n Word} {call : Action} {e : Option (Fin n × Event)} {i : Fin n}
    {t : ℕ} (hm : worldMay code ndebug w (.scheff act call))
    (hs : worldStep code ndebug w (.scheff act call) = some (w', e))
    (hu : uses w.scheff act = some (i, .resume t)) :
    (w.process.status (w.address t) = .suspended ∧
      lastContext (performOf (w.address t)) (together (observedAt tr)) =
        some (context (thread w'.process i).m)) ∨
    (w.process.status (w.address t) = .fresh ∧ ∃ task frame_size stack,
      w.scheff.tasks t = some task ∧ context (thread w'.process i).m =
        startContext code (w.address t) task.coroutine.fn task.coroutine.arg frame_size stack) := by
  obtain ⟨scheff, s', e', a', huse, ⟨rfl, hrdi, -⟩, hmc, hcall, rfl, -⟩ := h.use hm hs hu
  have hrdi : (thread w.process i).m.rdi = w.address t := hrdi
  rw [thread_after_self]
  cases huse with
  | resume hpc hwaits =>
    have hmove := step_cases hcall
    cases hmove with
    | resume =>
      obtain hst | hst := h.linked.waits t hwaits
      · obtain ⟨⟨task, htask, -⟩, -⟩ := hwaits
        obtain ⟨frame_size, stack, hleft⟩ := h.linked.start t task htask hst
        refine .inr ⟨hst, task, frame_size, stack, htask, ?_⟩
        rw [context_seffResumeUnwrapped, hrdi]
        exact hleft
      · have hcontext := ((threads_run h.process).2.2 i .resume _ _ _ _ _ hmc hcall).1
        rw [hrdi] at hcontext
        exact .inl ⟨hst, (hcontext hst).1⟩

theorem Tracks.requested {tr : List (Fin n × Event)} (h : Tracks code ndebug tr w a)
    {act : Scheduler.Action n Word} {call : Action} {e : Option (Fin n × Event)} {i : Fin n}
    {t : ℕ} (hm : worldMay code ndebug w (.scheff act call))
    (hs : worldStep code ndebug w (.scheff act call) = some (w', e))
    (hu : uses w.scheff act = some (i, .request t) ∨ uses w.scheff act = some (i, .ret t)) :
    lastContext (resumeOf (w.address t)) (together (observedAt tr)) =
      some (context (thread w'.process i).m) ∧
    lastResumer (w.address t) (observedAt tr) = some i ∧
    (thread w'.process i).m.current_coroutine = NULL := by
  have hreturns := (threads_run h.process).2.1
  have hnull : ∀ {w' : World n} {a' : Threads (Fin n) Word Context} {x : Scheduler.Worker Word},
      Linked code w' a' → w'.scheff.worker = Function.update w.scheff.worker i x →
      client x = false → (thread w'.process i).m.current_coroutine = NULL := by
    intro w' a' x hl hworker hx
    have hout := hl.outside i (by rw [hworker, Function.update_self, hx])
    have hstack := (hl.sim i).stack
    rw [view_stack, hout] at hstack
    exact hstack
  obtain hu | hu := hu
  · obtain ⟨scheff, s', e', a', huse, ⟨-, u, x, c, d, hcall⟩, hmc, hcall', rfl, hl⟩ :=
      h.use hm hs hu
    cases hcall'.symm.trans hcall
    cases huse with
    | request hpc hworker _ hclient =>
      have hcur := hnull hl hworker hclient
      obtain ⟨-, hcontext, -, hresumer⟩ := hreturns i call _ _ _ _ hmc (.inl ⟨c, hcall⟩)
      rw [thread_after_self] at hcur ⊢
      exact ⟨hcontext, hresumer hcur, hcur⟩
  · obtain ⟨scheff, s', e', a', huse, ⟨u, x, d, hcall⟩, hmc, hcall', rfl, hl⟩ := h.use hm hs hu
    cases hcall'.symm.trans hcall
    cases huse with
    | ret hpc hworker _ hclient =>
      have hcur := hnull hl hworker hclient
      obtain ⟨-, hcontext, -, hresumer⟩ := hreturns i call _ _ _ _ hmc (.inr hcall)
      rw [thread_after_self] at hcur ⊢
      exact ⟨hcontext, hresumer hcur, hcur⟩

/-- A task that a worker resumes goes on exactly where it made its last request, on
whichever worker that was, or enters its start function; a request goes back to
where the worker resumed the task, on the thread of that worker. -/
theorem scheffRun_contexts {tr : List (Option (Fin n × Event))}
    (h : Run (worldSystem n code ndebug) tr w) :
    ∃ tr₀ w₀, Begun code ndebug tr₀ w₀ ∧
      Run (processSystem (Fin n) code ndebug) (tr₀ ++ tr.reduceOption) w.process ∧
      (∃ tr', Run (Scheduler.scheffSystem n Word) tr' w.scheff) ∧
      (∀ act call w' e i t, worldMay code ndebug w (.scheff act call) →
        worldStep code ndebug w (.scheff act call) = some (w', e) →
        uses w.scheff act = some (i, .resume t) →
        (w.process.status (w.address t) = .suspended ∧
          lastContext (performOf (w.address t)) (together (observedAt (tr₀ ++ tr.reduceOption))) =
            some (context (thread w'.process i).m)) ∨
        (w.process.status (w.address t) = .fresh ∧ ∃ task frame_size stack,
          w.scheff.tasks t = some task ∧ context (thread w'.process i).m =
            startContext code (w.address t) task.coroutine.fn task.coroutine.arg frame_size
              stack)) ∧
      (∀ act call w' e i t, worldMay code ndebug w (.scheff act call) →
        worldStep code ndebug w (.scheff act call) = some (w', e) →
        uses w.scheff act = some (i, .request t) ∨ uses w.scheff act = some (i, .ret t) →
        lastContext (resumeOf (w.address t)) (together (observedAt (tr₀ ++ tr.reduceOption))) =
          some (context (thread w'.process i).m) ∧
        lastResumer (w.address t) (observedAt (tr₀ ++ tr.reduceOption)) = some i ∧
        (thread w'.process i).m.current_coroutine = NULL) := by
  obtain ⟨tr₀, w₀, a, hbegun, ha⟩ := run_tracks h
  exact ⟨tr₀, w₀, hbegun, ha.process, ha.scheff,
    fun act call w' e i t hm hs hu => ha.resumed hm hs hu,
    fun act call w' e i t hm hs hu => ha.requested hm hs hu⟩

def allowedCall (code : Code) (w : World n) (i : Fin n) (call : Action) : Use Word → Bool
  | .resume t =>
    match call with
    | .resume => decide ((w.process.registers i).rdi = w.address t) &&
      userCode code (w.process.memory (w.process.registers i).rsp)
    | _ => false
  | .request t =>
    match call with
    | .yield => decide ((w.process.registers i).rdi = w.address t) &&
      userCode code (w.process.memory (w.process.registers i).rsp) &&
      userCode code (w.process.registers i).rip
    | _ => false
  | _ => false

def allowedWorld (code : Code) (w : World n) : WorldAction n → Bool
  | .scheff (.condition _ _) _ | .scheff (.answer _ _) _ => false
  | .scheff act call => decide (Scheduler.may w.scheff act) &&
    match uses w.scheff act with
    | none => true
    | some (i, use) => allowedCall code w i call use
  | .own _ (.user m) => userCode code m.rip
  | .own _ .prelude => true
  | .own _ _ => false

omit [NeZero n] in
theorem calls_of_allowed {i : Fin n} {call : Action} {use : Use Word}
    (h : allowedCall code w i call use = true) : Calls code ndebug w i call use := by
  cases use with
  | init | ret | drop => cases h
  | resume t =>
    cases call with
    | resume =>
      simp only [allowedCall, Bool.and_eq_true, decide_eq_true_eq] at h
      exact ⟨rfl, h.1, h.2⟩
    | init | user | yield | exit | perform | throw | prelude | preludeReturn | discard => cases h
  | request t =>
    cases call with
    | yield =>
      simp only [allowedCall, Bool.and_eq_true, decide_eq_true_eq] at h
      obtain ⟨⟨hrdi, hret⟩, hrip⟩ := h
      have hevent : ∃ s' x c d, step code ndebug (thread w.process i) .yield =
          some (s', some (.perform (w.process.registers i).rdi x c, d)) :=
        ⟨_, _, _, _, if_pos hrip⟩
      rw [hrdi] at hevent
      exact ⟨hret, hevent⟩
    | init | user | resume | exit | perform | throw | prelude | preludeReturn | discard => cases h

omit [NeZero n] in
theorem worldMay_of_allowed {act : WorldAction n} (h : allowedWorld code w act = true) :
    worldMay code ndebug w act := by
  cases act with
  | scheff act call =>
    have hcheck : decide (Scheduler.may w.scheff act) = true ∧ (∀ i, returns i act = false) ∧
        ∀ i use, uses w.scheff act = some (i, use) → allowedCall code w i call use = true := by
      cases act with
      | condition | answer => cases h
      | main | worker | request | publish =>
        simp only [allowedWorld, Bool.and_eq_true] at h
        refine ⟨h.1, fun _ => rfl, fun i use hu => ?_⟩
        rw [hu] at h
        exact h.2
    refine ⟨of_decide_eq_true hcheck.1, fun i hi => ?_, fun i use hu => ?_⟩
    · cases (hcheck.2.1 i).symm.trans hi
    · exact calls_of_allowed (hcheck.2.2 i use hu)
  | own i act =>
    cases act with
    | user m =>
      refine ⟨may_of_allowed h, fun s' o d hs => ?_⟩
      generalize he : (some (o, d) : Event) = e at hs
      cases step_cases hs with
      | user => cases he
    | prelude =>
      refine ⟨trivial, fun s' o d hs => ?_⟩
      generalize he : (some (o, d) : Event) = e at hs
      cases step_cases hs with
      | prelude => cases he
    | init | resume | yield | exit | perform | throw | preludeReturn | discard => cases h

def exampleProcess : Process (Fin 2) :=
  ⟨fun _ => registers idle, idle.memory, idle.coroutines, fun _ => .unborn, fun _ => none⟩

def exampleWorld : World 2 :=
  ⟨Scheduler.scheffSchedule (Scheduler.scheffInit 2 Word) 0x500 7,
    after exampleProcess 0 ⟨seffCoroutineInitSized exampleCode 0x1000 0x500 7 256 0x10000
      (thread exampleProcess 0).m, Function.update (fun _ => .unborn) 0x1000 .fresh, fun _ => none⟩,
    Function.update (fun _ => 0) 0 0x1000⟩

theorem exampleWorld_begun : (worldSystem 2 exampleCode true).init exampleWorld :=
  ⟨_, .schedule (.init (fun _ => ⟨rfl, rfl, fun _ => rfl, fun _ => rfl⟩) fun _ => 0)
    (by decide) rfl rfl⟩

/-- The task asks worker 0 for a poll, and worker 1 steals it and is about to resume
it: it goes on where it made the request on worker 0. -/
theorem scheffRun_contexts_stolen : ∃ tr w, Run (worldSystem 2 exampleCode true) tr w ∧
    uses w.scheff (.worker 1) = some (1, .resume 0) ∧
    ∃ w' e tr₀ w₀, worldStep exampleCode true w (.scheff (.worker 1) .resume) = some (w', e) ∧
      Begun exampleCode true tr₀ w₀ ∧ lastContext (performOf (w.address 0))
        (together (observedAt (tr₀ ++ tr.reduceOption))) =
          some (context (thread w'.process 1).m) := by
  let a : WorldAction 2 := .scheff (.worker 0) .resume
  let b : WorldAction 2 := .scheff (.worker 1) .resume
  obtain ⟨tr, w, h, he⟩ := Run.exists_of_exec (S := worldSystem 2 exampleCode true)
    (fun w p (h : allowedWorld exampleCode w p = true) => worldMay_of_allowed h)
    [.scheff .main .resume, .scheff .main .resume, a, a, a, a, a,
      .own 0 (.user { idle with rdi := 0x1000, rsp := 0x8000, rip := 0x400, rbx := 3 }), a,
      .own 0 .prelude,
      .own 0 (.user { idle with rdi := 0x1000, rsp := 0x10100, rip := 0x501, rbx := 4 }),
      .scheff (.request 0 (.poll none none)) .yield, a, a, a, b, b, b, b, b, b,
      .own 1 (.user { idle with rdi := 0x1000, rsp := 0x9000, rip := 0x700 })]
    exampleWorld_begun
    (fun p => (decide (uses p.1.scheff (.worker 1) = some (1, .resume 0)),
      allowedWorld exampleCode p.1 b, (worldStep exampleCode true p.1 b).isSome,
      p.1.process.status (p.1.address 0)))
    (b := (true, true, true, .suspended)) (by decide +kernel)
  simp only [Prod.mk.injEq, decide_eq_true_eq] at he
  obtain ⟨hu, hmay, hstep, hst⟩ := he
  obtain ⟨⟨w', e⟩, hs⟩ := Option.isSome_iff_exists.mp hstep
  obtain ⟨tr₀, w₀, hbegun, -, -, hresumed, -⟩ := scheffRun_contexts h
  obtain ⟨-, hcontext⟩ | ⟨hfresh, -⟩ := hresumed _ _ w' e 1 0 (worldMay_of_allowed hmay) hs hu
  · exact ⟨tr, w, h, hu, w', e, tr₀, w₀, hs, hbegun, hcontext⟩
  · cases hst.symm.trans hfresh

end Linked

end Libseff.TaskContexts
