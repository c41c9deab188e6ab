import Libseff.SchedulerMoves
import Mathlib.Tactic.Abel

namespace Libseff.SchedulerOwner

open SlotQueues TransitionRuns Scheduler SchedulerPlaces SchedulerMoves

variable {n : ℕ} {V : Type}

theorem holds_add {tasks : ℕ → Option (ScheffTask V)} {p : ScheffTask V → Prop}
    {a b : Multiset ℕ} : Holds tasks p (a + b) ↔ Holds tasks p a ∧ Holds tasks p b := by
  simp only [Holds, Multiset.mem_add, or_imp, forall_and]

theorem holds_imp {tasks : ℕ → Option (ScheffTask V)} {p q : ScheffTask V → Prop}
    {ts : Multiset ℕ} (h : Holds tasks p ts) (hpq : ∀ task, p task → q task) :
    Holds tasks q ts := by
  intro t ht
  obtain ⟨task, htask, hp⟩ := h t ht
  exact ⟨task, htask, hpq task hp⟩

theorem holds_update {tasks : ℕ → Option (ScheffTask V)} {p : ScheffTask V → Prop}
    {ts : Multiset ℕ} (h : Holds tasks p ts) {t : ℕ} (ht : t ∉ ts) (task : Option (ScheffTask V)) :
    Holds (Function.update tasks t task) p ts := by
  intro u hu
  obtain ⟨task', htask', hp⟩ := h u hu
  have hne : u ≠ t := ne_of_mem_of_not_mem hu ht
  exact ⟨task', by rw [Function.update_of_ne hne, htask'], hp⟩

theorem holds_singleton {tasks : ℕ → Option (ScheffTask V)} {p : ScheffTask V → Prop} {t : ℕ}
    {task : ScheffTask V} (hp : p task) :
    Holds (Function.update tasks t (some task)) p {t} := by
  intro u hu
  obtain rfl := Multiset.mem_singleton.mp hu
  exact ⟨task, Function.update_self .., hp⟩

theorem created_not_mem_of_holds {s : State n V} {p : ScheffTask V → Prop} {ts : Multiset ℕ}
    (h : Holds s.tasks p ts) (hfresh : ∀ t, s.created ≤ t → s.tasks t = none) : s.created ∉ ts := by
  intro ht
  obtain ⟨task, htask, _⟩ := h _ ht
  rw [hfresh _ le_rfl] at htask
  cases htask

theorem only_hands {s : State n V} (h : Owned s) {i : Fin n} {t : ℕ}
    (ht : t ∈ hands (s.worker i)) :
    (∀ j, t ∉ contents (s.queue j)) ∧ (∀ j, j ≠ i → t ∉ hands (s.worker j)) ∧ t ∉ s.wakers := by
  have hnodup : (places s).Nodup := h.places_eq ▸ (liveTasks s).nodup
  rw [places, Multiset.nodup_add, Multiset.nodup_add] at hnodup
  obtain ⟨⟨_, hhands, hqueue⟩, _, hwakers⟩ := hnodup
  have hsum : t ∈ ∑ j, hands (s.worker j) := Multiset.mem_sum.mpr ⟨i, Finset.mem_univ i, ht⟩
  refine ⟨fun j hj => ?_, fun j hji hj => ?_, fun hw => ?_⟩
  · have hmem : t ∈ ∑ j, contents (s.queue j) := Multiset.mem_sum.mpr ⟨j, Finset.mem_univ j, hj⟩
    exact Multiset.disjoint_left.mp hqueue hmem hsum
  · rw [← Finset.add_sum_erase _ _ (Finset.mem_univ i), Multiset.nodup_add] at hhands
    have hmem : t ∈ ∑ j ∈ Finset.univ.erase i, hands (s.worker j) :=
      Multiset.mem_sum.mpr ⟨j, Finset.mem_erase.mpr ⟨hji, Finset.mem_univ j⟩, hj⟩
    exact Multiset.disjoint_left.mp hhands.2.2 ht hmem
  · exact Multiset.disjoint_left.mp hwakers (Multiset.mem_add.mpr (.inr hsum)) hw

theorem mem_liveTasks_of_hands {s : State n V} (h : Owned s) {i : Fin n} {t : ℕ}
    (ht : t ∈ hands (s.worker i)) : t ∈ liveTasks s := by
  have hmem : t ∈ ∑ j, hands (s.worker j) := Multiset.mem_sum.mpr ⟨i, Finset.mem_univ i, ht⟩
  rw [← Finset.mem_val, ← h.places_eq, places, Multiset.mem_add, Multiset.mem_add]
  exact .inl (.inr hmem)

theorem held_setWorker {s : State n V} (h : Owned s) {i : Fin n} {x : Worker V}
    {tasks : ℕ → Option (ScheffTask V)} (hx : Holds tasks (expects x) (hands x))
    (hother : ∀ j, j ≠ i → Holds s.tasks (expects (s.worker j)) (hands (s.worker j)) →
      Holds tasks (expects (s.worker j)) (hands (s.worker j))) (j : Fin n) :
    Holds tasks (expects (Function.update s.worker i x j))
      (hands (Function.update s.worker i x j)) := by
  by_cases hj : j = i
  · subst hj
    rwa [Function.update_self]
  · rw [Function.update_of_ne hj]
    exact hother j hj (h.held j)

theorem worker_setWorker {s : State n V} (h : Owned s) (i : Fin n) {x : Worker V}
    (hx : busy x = true ∨ x = .exited) (j : Fin n) :
    busy (Function.update s.worker i x j) = true ∨ Function.update s.worker i x j = .exited := by
  by_cases hj : j = i
  · subst hj
    rwa [Function.update_self]
  · rw [Function.update_of_ne hj]
    exact h.worker j

theorem owned_walk {s : State n V} (h : Owned s) {i : Fin n} {x : Worker V}
    (hhands : hands x = hands (s.worker i))
    (hexp : ∀ task, expects (s.worker i) task → expects x task)
    (hbusy : busy x = true ∨ x = .exited) : Owned (setWorker s i x) where
  places_eq := by
    have hplaces := places_setWorker s i x
    rw [hhands] at hplaces
    exact (add_right_cancel hplaces).trans h.places_eq
  fresh := h.fresh
  queue := h.queue
  wakers := h.wakers
  held := held_setWorker h (hhands ▸ holds_imp (h.held i) hexp) fun _ _ hj => hj
  worker := worker_setWorker h i hbusy

theorem owned_queue {s : State n V} (h : Owned s) {i j : Fin n} {x : Worker V} {q : SlotQueue ℕ}
    (hplaces : contents q + hands x = contents (s.queue j) + hands (s.worker i))
    (hy : ∀ task, expects (s.worker i) task → ready task)
    (hx : ∀ task, ready task → expects x task) (hbusy : busy x = true) :
    Owned (setWorker (setQueue s j q) i x) := by
  have hready : Holds s.tasks ready (contents q + hands x) :=
    hplaces ▸ holds_add.mpr ⟨h.queue j, holds_imp (h.held i) hy⟩
  obtain ⟨hq, hhands⟩ := holds_add.mp hready
  refine ⟨?_, h.fresh, fun k => ?_, h.wakers,
    held_setWorker h (holds_imp hhands hx) fun _ _ hj => hj,
    worker_setWorker h i (.inl hbusy)⟩
  · have hw := places_setWorker (setQueue s j q) i x
    have hq := places_setQueue s j q
    have hsame : places (setWorker (setQueue s j q) i x) +
        (contents (s.queue j) + hands (s.worker i)) =
        places s + (contents (s.queue j) + hands (s.worker i)) := by
      calc places (setWorker (setQueue s j q) i x) + (contents (s.queue j) + hands (s.worker i))
          = places (setWorker (setQueue s j q) i x) + hands ((setQueue s j q).worker i) +
            contents (s.queue j) := by simp only [setQueue]; abel
        _ = places (setQueue s j q) + contents (s.queue j) + hands x := by rw [hw]; abel
        _ = places s + (contents q + hands x) := by rw [hq]; abel
        _ = places s + (contents (s.queue j) + hands (s.worker i)) := by rw [hplaces]
    exact (add_right_cancel hsame).trans h.places_eq
  · by_cases hk : k = j
    · subst hk
      simpa only [setWorker, setQueue, Function.update_self] using hq
    · simpa only [setWorker, setQueue, Function.update_of_ne hk] using h.queue k

theorem owned_wakers {s : State n V} (h : Owned s) {i : Fin n} {x : Worker V}
    {wakers : Multiset ℕ} (hplaces : hands x + wakers = hands (s.worker i) + s.wakers)
    (hy : ∀ task, expects (s.worker i) task → ready task)
    (hx : ∀ task, ready task → expects x task) (hbusy : busy x = true) :
    Owned (setWorker { s with wakers := wakers } i x) := by
  have hready : Holds s.tasks ready (hands x + wakers) :=
    hplaces ▸ holds_add.mpr ⟨holds_imp (h.held i) hy, h.wakers⟩
  obtain ⟨hhands, hw⟩ := holds_add.mp hready
  refine ⟨?_, h.fresh, h.queue, hw, held_setWorker h (holds_imp hhands hx) fun _ _ hj => hj,
    worker_setWorker h i (.inl hbusy)⟩
  have hw := places_setWorker { s with wakers := wakers } i x
  have hwakers := places_setWakers s wakers
  have hsame : places (setWorker { s with wakers := wakers } i x) +
      (hands (s.worker i) + s.wakers) = places s + (hands (s.worker i) + s.wakers) := by
    calc places (setWorker { s with wakers := wakers } i x) + (hands (s.worker i) + s.wakers)
        = places { s with wakers := wakers } + s.wakers + hands x := by
          rw [← add_assoc, hw]; abel
      _ = places s + (hands x + wakers) := by rw [hwakers]; abel
      _ = places s + (hands (s.worker i) + s.wakers) := by rw [hplaces]
  exact (add_right_cancel hsame).trans h.places_eq

theorem owned_write {s : State n V} (h : Owned s) {i : Fin n} {x : Worker V} {t : ℕ}
    {task task' : ScheffTask V} (htask : s.tasks t = some task) (hy : hands (s.worker i) = {t})
    (hx : hands x = {t}) (hexp : expects x task') (hbusy : busy x = true) :
    Owned (setWorker (setTask s t (some task')) i x) := by
  have ht : t ∈ hands (s.worker i) := hy ▸ Multiset.mem_singleton_self t
  obtain ⟨hqueue, hother, hwakers⟩ := only_hands h ht
  refine ⟨?_, fun u hu => ?_, fun j => holds_update (h.queue j) (hqueue j) _,
    holds_update h.wakers hwakers _,
    held_setWorker h (hx ▸ holds_singleton hexp) fun j hj hold => holds_update hold (hother j hj) _,
    worker_setWorker h i (.inl hbusy)⟩
  · have hplaces := places_setWorker (setTask s t (some task')) i x
    rw [hx, ← hy] at hplaces
    have hsome : (s.tasks t).isSome := by rw [htask]; rfl
    have hlive : liveTasks (setTask s t (some task')) = liveTasks s := liveTasks_setTask hsome task'
    calc places (setWorker (setTask s t (some task')) i x)
        = places (setTask s t (some task')) := add_right_cancel hplaces
      _ = (liveTasks (setTask s t (some task'))).val := by rw [hlive]; exact h.places_eq
  · have hne : u ≠ t := by
      rintro rfl
      rw [h.fresh u hu] at htask
      cases htask
    simpa only [setWorker, setTask, Function.update_of_ne hne] using h.fresh u hu

theorem owned_newTask {s : State n V} (h : Owned s) {i : Fin n} {t : ℕ} {fn arg : V}
    (hpc : s.worker i = .forkMalloc t fn arg) :
    Owned (setWorker (newTask s fn arg) i (.forkEnqueue t s.created)) := by
  have hheld := h.held i
  rw [hpc] at hheld
  have hsum : hands (.forkEnqueue t s.created : Worker V) = {t} + {s.created} := by
    rw [hands, Multiset.insert_eq_cons, Multiset.singleton_add]
  have hnew : Holds (newTask s fn arg).tasks ready (hands (.forkEnqueue t s.created : Worker V)) :=
    hsum ▸ holds_add.mpr ⟨holds_update hheld (created_not_mem_of_holds hheld h.fresh) _,
      holds_singleton ⟨rfl, rfl⟩⟩
  have hframe : ∀ {P : ScheffTask V → Prop} {l : Multiset ℕ}, Holds s.tasks P l →
      Holds (newTask s fn arg).tasks P l :=
    fun hold => holds_update hold (created_not_mem_of_holds hold h.fresh) _
  refine ⟨?_, fun u hu => ?_, fun j => hframe (h.queue j), hframe h.wakers,
    held_setWorker h hnew fun j _ hold => hframe hold, worker_setWorker h i (.inl rfl)⟩
  · have hplaces := places_setWorker (newTask s fn arg) i (.forkEnqueue t s.created)
    have hy : hands ((newTask s fn arg).worker i) = {t} := by
      simp only [newTask, hpc, hands]
    rw [hy, hsum, add_comm ({t} : Multiset ℕ), ← add_assoc] at hplaces
    have hlive : liveTasks (setWorker (newTask s fn arg) i (.forkEnqueue t s.created)) =
      insert s.created (liveTasks s) := liveTasks_newTask s fn arg
    rw [hlive, Finset.insert_val_of_notMem (created_not_mem s), ← h.places_eq,
      add_right_cancel hplaces, ← Multiset.singleton_add, add_comm]
    rfl
  · have hne : u ≠ s.created := by
      simp only [setWorker, newTask] at hu
      omega
    simp only [setWorker, newTask] at hu ⊢
    rw [Function.update_of_ne hne]
    exact h.fresh u (by omega)

theorem owned_free {s : State n V} (h : Owned s) {i : Fin n} {t : ℕ}
    (hpc : s.worker i = .free t) : Owned (setWorker (setTask s t none) i .fetchSub) := by
  have hy : hands (s.worker i) = {t} := by rw [hpc]; rfl
  have ht : t ∈ hands (s.worker i) := hy ▸ Multiset.mem_singleton_self t
  obtain ⟨hqueue, hother, hwakers⟩ := only_hands h ht
  refine ⟨?_, fun u hu => ?_, fun j => holds_update (h.queue j) (hqueue j) _,
    holds_update h.wakers hwakers _,
    held_setWorker h (fun u hu => absurd hu (Multiset.notMem_zero u))
      fun j hj hold => holds_update hold (hother j hj) _, worker_setWorker h i (.inl rfl)⟩
  · have hplaces := places_setWorker (setTask s t none) i .fetchSub
    have hsame : places (setTask s t none) = places s := rfl
    have hlive : liveTasks (setWorker (setTask s t none) i .fetchSub) = (liveTasks s).erase t :=
      liveTasks_free s t
    rw [show hands ((setTask s t none).worker i) = {t} from hy, hsame, h.places_eq,
      show hands (.fetchSub : Worker V) = 0 from rfl, add_zero] at hplaces
    rw [hlive, Finset.erase_val, ← hplaces, add_comm, Multiset.singleton_add,
      Multiset.erase_cons_head]
  · by_cases hut : u = t
    · subst hut
      exact Function.update_self ..
    · simpa only [setWorker, setTask, Function.update_of_ne hut] using h.fresh u hu

theorem owned_counter {s : State n V} (h : Owned s) (remaining_tasks : ℤ) :
    Owned { s with remaining_tasks := remaining_tasks } :=
  ⟨h.places_eq, h.fresh, h.queue, h.wakers, h.held, h.worker⟩

theorem owned_move {s s' : State n V} (h : Owned s) {i : Fin n} {e : Event n}
    (hmove : Move s i s' e) : Owned s' := by
  cases hmove with
  | walk hpc _ hhands hexp _ hbusy => exact owned_walk h (hpc ▸ hhands) (hpc ▸ hexp) (.inl hbusy)
  | exit hpc _ => exact owned_walk h (hpc ▸ rfl) (hpc ▸ fun _ h => h) (.inr rfl)
  | queue j q hpc _ hplaces hy hx _ hbusy =>
    exact owned_queue h (hpc ▸ hplaces) (hpc ▸ hy) hx hbusy
  | wakers wakers hpc _ hplaces hy hx _ hbusy =>
    exact owned_wakers h (hpc ▸ hplaces) (hpc ▸ hy) hx hbusy
  | write task' hpc htask hy hx hexp _ _ _ hbusy =>
    exact owned_write h htask (hpc ▸ hy) hx hexp hbusy
  | release task' hpc htask _ hframe =>
    exact owned_write h htask (hpc ▸ rfl) rfl hframe rfl
  | forkAdd t fn arg hpc =>
    exact owned_walk (owned_counter h _) (hpc ▸ rfl) (hpc ▸ fun _ h => h) (.inl rfl)
  | forkMalloc t fn arg hpc => exact owned_newTask h hpc
  | free hpc _ _ => exact owned_free h hpc
  | fetchSub hpc =>
    exact owned_walk (owned_counter h _) (hpc ▸ rfl) (hpc ▸ fun _ h => h) (.inl rfl)

end Libseff.SchedulerOwner
