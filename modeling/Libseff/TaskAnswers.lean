import Libseff.TaskHistories

namespace Libseff.TaskAnswers

open SlotQueues TransitionRuns Scheduler TaskLives TaskHistories

variable {n : ℕ} {V : Type}

def Leads (p : Phase V) : List (TaskEvent V) → Phase V → Prop
  | [], q => p = q
  | e :: l, q => ∃ p', Life p e p' ∧ Leads p' l q

theorem leads_append {p q : Phase V} {l l' : List (TaskEvent V)} :
    Leads p (l ++ l') q ↔ ∃ p', Leads p l p' ∧ Leads p' l' q := by
  induction l generalizing p with
  | nil => simp [Leads]
  | cons e l ih =>
    simp only [List.cons_append, Leads, ih]
    constructor
    · rintro ⟨r, hr, p', hp', hq⟩
      exact ⟨p', ⟨r, hr, hp'⟩, hq⟩
    · rintro ⟨p', ⟨r, hr, hp'⟩, hq⟩
      exact ⟨r, hr, p', hp', hq⟩

theorem leads_of_lives {l : List (TaskEvent V)} {q : Phase V} (h : Lives l q) :
    ∃ p, Leads p l q := by
  induction h with
  | unborn => exact ⟨.unborn, rfl⟩
  | scheduled => exact ⟨.ready, rfl⟩
  | next _ hl ih =>
    obtain ⟨p, hp⟩ := ih
    exact ⟨p, leads_append.mpr ⟨_, hp, _, hl, rfl⟩⟩

/-- What happens to a task between a request and the next time that it runs. -/
def Answers : Request V → List (TaskEvent V) → Prop
  | .ret _, _ | .wake _ false, _ => False
  | .fork _ _, l | .wake _ true, l | .poll none _, l => l = []
  | .poll (some c) arg, l =>
    ∃ k, l = List.replicate k (.tested c arg false) ++ [.tested c arg true]
  | .sleep _ _, l => l = [.declined] ∨ l = [.published, .woken]

def final : Request V → Bool
  | .ret _ | .wake _ false => true
  | _ => false

theorem leads_ready {l : List (TaskEvent V)} {q : Phase V} (h : Leads .ready (l ++ [.resumed]) q)
    (hno : .resumed ∉ l) : l = [] := by
  cases l with
  | nil => rfl
  | cons e l =>
    obtain ⟨p, hlife, -⟩ := h
    cases hlife
    exact absurd List.mem_cons_self hno

theorem leads_done {l : List (TaskEvent V)} {q : Phase V} (h : Leads .done l q) :
    l = [] ∨ l = [.released] := by
  cases l with
  | nil => exact .inl rfl
  | cons e l =>
    obtain ⟨p, hlife, hl⟩ := h
    cases hlife
    cases l with
    | nil => exact .inr rfl
    | cons e l =>
      obtain ⟨p, hlife, -⟩ := hl
      cases hlife

theorem leads_polling {c : V} {arg : Option V} {l : List (TaskEvent V)} {q : Phase V}
    (h : Leads (.polling c arg) (l ++ [.resumed]) q) (hno : .resumed ∉ l) :
    ∃ k, l = List.replicate k (.tested c arg false) ++ [.tested c arg true] := by
  induction l with
  | nil =>
    obtain ⟨p, hlife, -⟩ := h
    cases hlife
  | cons e l ih =>
    obtain ⟨p, hlife, hl⟩ := h
    have hno' : .resumed ∉ l := fun hmem => hno (List.mem_cons_of_mem e hmem)
    cases hlife with
    | testedFalse =>
      obtain ⟨k, rfl⟩ := ih hl hno'
      exact ⟨k + 1, rfl⟩
    | testedTrue =>
      obtain rfl := leads_ready hl hno'
      exact ⟨0, rfl⟩

theorem leads_asking {l : List (TaskEvent V)} {q : Phase V}
    (h : Leads .asking (l ++ [.resumed]) q) (hno : .resumed ∉ l) :
    l = [.declined] ∨ l = [.published, .woken] := by
  cases l with
  | nil =>
    obtain ⟨p, hlife, -⟩ := h
    cases hlife
  | cons e l =>
    obtain ⟨p, hlife, hl⟩ := h
    have hno' : .resumed ∉ l := fun hmem => hno (List.mem_cons_of_mem e hmem)
    cases hlife with
    | declined =>
      obtain rfl := leads_ready hl hno'
      exact .inl rfl
    | published =>
      cases l with
      | nil =>
        obtain ⟨p, hlife, -⟩ := hl
        cases hlife
      | cons e l =>
        obtain ⟨p, hlife, hl⟩ := hl
        cases hlife
        obtain rfl := leads_ready hl fun hmem => hno' (List.mem_cons_of_mem _ hmem)
        exact .inr rfl

theorem answers_of_leads {request : Request V} {l : List (TaskEvent V)} {q : Phase V}
    (h : Leads (afterRequest request) (l ++ [.resumed]) q) (hno : .resumed ∉ l) :
    Answers request l := by
  cases request with
  | ret result =>
    obtain hl | hl := leads_done h
    · simp at hl
    · simp [List.append_eq_singleton_iff] at hl
  | fork fn arg => exact leads_ready h hno
  | poll poll_condition poll_arg =>
    cases poll_condition with
    | none => exact leads_ready h hno
    | some c => exact leads_polling h hno
  | sleep must_sleep arg => exact leads_asking h hno
  | wake wakers resume =>
    cases resume with
    | true => exact leads_ready h hno
    | false =>
      obtain hl | hl := leads_done h
      · simp at hl
      · simp [List.append_eq_singleton_iff] at hl

theorem leads_of_final {request : Request V} {l : List (TaskEvent V)} {q : Phase V}
    (hfinal : final request = true) (h : Leads (afterRequest request) l q) :
    l = [] ∨ l = [.released] := by
  cases request with
  | ret result => exact leads_done h
  | wake wakers resume =>
    cases resume with
    | true => cases hfinal
    | false => exact leads_done h
  | fork fn arg | poll poll_condition poll_arg | sleep must_sleep arg => cases hfinal

theorem leads_of_request {l l' : List (TaskEvent V)} {request : Request V} {q : Phase V}
    (h : Lives (l ++ .requested request :: l') q) : Leads (afterRequest request) l' q := by
  obtain ⟨p, hp⟩ := leads_of_lives h
  rw [leads_append] at hp
  obtain ⟨p', -, p'', hlife, hq⟩ := hp
  cases hlife
  exact hq

theorem answers_of_lives {l l₁ l₂ : List (TaskEvent V)} {request : Request V} {q : Phase V}
    (h : Lives (l ++ .requested request :: (l₁ ++ .resumed :: l₂)) q) (hno : .resumed ∉ l₁) :
    Answers request l₁ := by
  have hq := leads_of_request h
  rw [List.append_cons, leads_append] at hq
  obtain ⟨p, hp, -⟩ := hq
  exact answers_of_leads hp hno

variable [NeZero n]

/-- A task runs again after a request only when the request is answered, and after
its last request only its memory is released. -/
theorem scheffRun_answers {tr : List (Option (ℕ × TaskEvent V))} {s : State n V}
    (h : Run (lifeSystem n V) tr s) {t : ℕ} {l l' : List (TaskEvent V)} {request : Request V}
    (hl : history t tr = l ++ .requested request :: l') :
    (∀ l₁ l₂, l' = l₁ ++ .resumed :: l₂ → .resumed ∉ l₁ → Answers request l₁) ∧
    (final request = true → l' = [] ∨ l' = [.released]) := by
  obtain ⟨q, hlives, -⟩ := scheffRun_lives h t
  rw [hl] at hlives
  refine ⟨fun l₁ l₂ hl' hno => ?_, fun hfinal => leads_of_final hfinal (leads_of_request hlives)⟩
  subst hl'
  exact answers_of_lives hlives hno

/-- Task 0 sleeps, task 1 wakes it and ends, and task 0 runs again. -/
theorem scheffRun_answers_sleep : ∃ tr s, Run (lifeSystem 1 ℕ) tr s ∧
    history 0 tr = [.resumed] ++ .requested (.sleep 7 8) :: [.published, .woken, .resumed] ∧
    Answers (.sleep 7 8 : Request ℕ) [.published, .woken] := by
  let a : Action 1 ℕ := .worker 0
  obtain ⟨tr, s, h, he⟩ : ∃ tr s, Run (lifeSystem 1 ℕ) tr s ∧ history 0 tr =
      [.resumed, .requested (.sleep 7 8), .published, .woken, .resumed] :=
    Run.exists_of_exec (S := lifeSystem 1 ℕ)
      (fun s o (h : decide (may s o) = true) => (of_decide_eq_true h : may s o))
      [.main, a, a, a, a, a, a, .request 0 (.sleep 7 8), a, .publish 0, .answer 0 true,
        a, a, a, a, a, .request 0 (.wake [0] false), a, a, a, a, a, a, a, a, a, a, a]
      ⟨[(1, 2), (3, 4)], rfl⟩ (fun p => history 0 p.2) rfl
  exact ⟨tr, s, h, he, (scheffRun_answers (l := [.resumed]) h he).1 _ [] rfl (by simp)⟩

end Libseff.TaskAnswers
