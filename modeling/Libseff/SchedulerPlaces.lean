import Libseff.Scheduler

namespace Libseff.SchedulerPlaces

open SlotQueues ThreadCounts Scheduler

variable {n : ℕ} {V : Type}

def contents (q : SlotQueue ℕ) : Multiset ℕ := q.slot.toList + q.items

def hands : Worker V → Multiset ℕ
  | .checkState t | .checkPoll t | .pollCondition t _ _ | .clearPoll t | .resume t | .running t
  | .forkAdd t _ _ | .forkMalloc t _ _ | .setPoll t _ _ | .mustSleep t _ _ false | .enqueue t
  | .release t | .free t | .forkPriority t | .caseSwitch t (.ret _) | .caseSwitch t (.fork _ _)
  | .caseSwitch t (.poll _ _) | .caseSwitch t (.sleep _ _) => {t}
  | .caseSwitch t (.wake wakers _) | .wake t wakers _ => t ::ₘ wakers
  | .forkEnqueue t new_task => {t, new_task}
  | .unstarted | .pop | .steal _ | .loadRemaining | .mustSleep _ _ _ true | .fetchSub | .exited
  | .fatal | .fault => 0

/-- Every place where a task can be: the queues with their slots, the hands of
the workers, the published wakers. -/
def places (s : State n V) : Multiset ℕ :=
  ∑ i, contents (s.queue i) + ∑ i, hands (s.worker i) + s.wakers

def liveTasks (s : State n V) : Finset ℕ :=
  (Finset.range s.created).filter fun t => (s.tasks t).isSome

theorem contents_push (t : ℕ) (q : SlotQueue ℕ) : contents (push t q) = contents q + {t} := by
  simp only [contents, push, ← Multiset.coe_add, ← Multiset.coe_singleton, add_assoc]

theorem contents_priorityPush (t : ℕ) (q : SlotQueue ℕ) :
    contents (priorityPush t q) = contents q + {t} := by
  simp only [contents, priorityPush, Option.toList_some, Multiset.coe_singleton,
    ← Multiset.coe_add]
  rw [add_comm, add_comm (q.items : Multiset ℕ)]

theorem contents_steal (q : SlotQueue ℕ) :
    contents (steal q).1 + (steal q).2.toList = contents q := by
  cases h : q.items with
  | nil => simp [contents, steal, h]
  | cons t items =>
    have hitems : ((t :: items : List ℕ) : Multiset ℕ) = items + {t} := by
      rw [← Multiset.cons_coe, ← Multiset.singleton_add, add_comm]
    simp only [contents, steal, h, List.tail_cons, List.head?_cons, Option.toList_some,
      Multiset.coe_singleton, hitems, add_assoc]

theorem contents_pop (q : SlotQueue ℕ) : contents (pop q).1 + (pop q).2.toList = contents q := by
  cases h : q.slot with
  | none => rw [pop_of_none h, contents_steal]
  | some t =>
    rw [pop_of_some h]
    simp only [contents, h, Option.toList_none, Option.toList_some, Multiset.coe_nil, zero_add]
    rw [add_comm]

theorem places_setWorker (s : State n V) (i : Fin n) (x : Worker V) :
    places (setWorker s i x) + hands (s.worker i) = places s + hands x := by
  have h := sum_comp_update hands s.worker i x
  simp only [places, setWorker]
  rw [add_right_comm, add_assoc (∑ i, contents _), h, ← add_assoc, add_right_comm]

theorem places_setQueue (s : State n V) (i : Fin n) (q : SlotQueue ℕ) :
    places (setQueue s i q) + contents (s.queue i) = places s + contents q := by
  have h := sum_comp_update contents s.queue i q
  simp only [places, setQueue]
  rw [add_right_comm, add_right_comm (∑ i, contents _), h, add_right_comm (∑ i, contents _),
    add_right_comm _ (contents q)]

theorem places_setWakers (s : State n V) (wakers : Multiset ℕ) :
    places { s with wakers := wakers } + s.wakers = places s + wakers := by
  simp only [places]
  rw [add_right_comm]

theorem mem_liveTasks {s : State n V} {t : ℕ} :
    t ∈ liveTasks s ↔ t < s.created ∧ (s.tasks t).isSome := by
  simp [liveTasks]

theorem created_not_mem (s : State n V) : s.created ∉ liveTasks s := by
  simp [mem_liveTasks]

theorem liveTasks_setTask {s : State n V} {t : ℕ} (ht : (s.tasks t).isSome) (task : ScheffTask V) :
    liveTasks (setTask s t (some task)) = liveTasks s := by
  ext u
  rw [mem_liveTasks, mem_liveTasks]
  by_cases hu : u = t
  · subst hu
    simp [setTask, ht]
  · simp [setTask, Function.update_of_ne hu]

theorem liveTasks_free (s : State n V) (t : ℕ) :
    liveTasks (setTask s t none) = (liveTasks s).erase t := by
  ext u
  rw [mem_liveTasks, Finset.mem_erase, mem_liveTasks]
  by_cases hu : u = t
  · subst hu
    simp [setTask]
  · simp [setTask, hu]

theorem liveTasks_newTask (s : State n V) (fn arg : V) :
    liveTasks (newTask s fn arg) = insert s.created (liveTasks s) := by
  ext u
  rw [mem_liveTasks, Finset.mem_insert, mem_liveTasks]
  by_cases hu : u = s.created
  · subst hu
    simp [newTask]
  · have hlt : u < s.created + 1 ↔ u < s.created := by omega
    simp [newTask, hu, hlt]

end Libseff.SchedulerPlaces
