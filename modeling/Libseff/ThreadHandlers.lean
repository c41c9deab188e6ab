import Libseff.ShallowHandlers

namespace Libseff.ThreadHandlers

open TransitionRuns ShallowHandlers

variable {τ κ γ ε ν : Type*}

/-- Every thread runs coroutines of its own, and any of them may resume what
another one has captured. -/
structure Threads (τ κ γ : Type*) where
  stack : τ → List (κ × γ)
  captured : κ → Option (List (κ × γ) × γ)

def view (a : Threads τ κ γ) (t : τ) : Handlers κ γ := ⟨a.stack t, a.captured⟩

variable [DecidableEq τ] [DecidableEq κ]

def put (a : Threads τ κ γ) (t : τ) (b : Handlers κ γ) : Threads τ κ γ :=
  ⟨Function.update a.stack t b.stack, b.captured⟩

def threadHandlers (τ κ γ ε ν : Type*) [DecidableEq τ] [DecidableEq κ] :
    System (Threads τ κ γ) (τ × Op κ γ ε ν) (τ × Op κ γ ε ν × Option (Delivery γ ε ν)) where
  init a := a = ⟨fun _ => [], fun _ => none⟩
  may a
    | (_, .create k _) => ∀ t x, k ∉ group (view a t) x
    | _ => True
  step a p := (apply (view a p.1) p.2).map fun q => (put a p.1 q.1, p.1, p.2, q.2)

/-- A coroutine is in one place: it runs on one thread, or it is captured once. -/
structure Apart (a : Threads τ κ γ) : Prop where
  distinct : ∀ t, Distinct (group (view a t))
  disjoint : ∀ t u, t ≠ u → (names (a.stack t)).Disjoint (names (a.stack u))

def together (os : List (τ × Op κ γ ε ν × Option (Delivery γ ε ν))) :
    List (Op κ γ ε ν × Option (Delivery γ ε ν)) :=
  os.map Prod.snd

def lastResumer (g : κ) (os : List (τ × Op κ γ ε ν × Option (Delivery γ ε ν))) : Option τ :=
  (os.filterMap fun p => (resumeOf g p.2.1).map fun _ => p.1).getLast?

omit [DecidableEq τ] [DecidableEq κ] in
@[simp]
theorem view_stack (a : Threads τ κ γ) (t : τ) : (view a t).stack = a.stack t := rfl

omit [DecidableEq κ] in
@[simp]
theorem view_put_self (a : Threads τ κ γ) (t : τ) (b : Handlers κ γ) : view (put a t b) t = b := by
  simp [view, put]

omit [DecidableEq κ] in
theorem view_put_of_ne (a : Threads τ κ γ) {t u : τ} (hu : u ≠ t) (b : Handlers κ γ) :
    view (put a t b) u = ⟨a.stack u, b.captured⟩ := by
  simp [view, put, hu]

omit [DecidableEq τ] [DecidableEq κ] in
theorem together_append (os : List (τ × Op κ γ ε ν × Option (Delivery γ ε ν))) (t : τ)
    (p : Op κ γ ε ν × Option (Delivery γ ε ν)) :
    together (os ++ [(t, p)]) = together os ++ [p] := by
  rw [together, List.map_append, List.map_singleton, together]

omit [DecidableEq τ] in
theorem lastResumer_append (g : κ) (os : List (τ × Op κ γ ε ν × Option (Delivery γ ε ν))) (t : τ)
    (p : Op κ γ ε ν × Option (Delivery γ ε ν)) :
    lastResumer g (os ++ [(t, p)]) = ((resumeOf g p.1).map fun _ => t).or (lastResumer g os) := by
  cases hf : resumeOf g p.1 with
  | none => simp [lastResumer, hf]
  | some c => simp [lastResumer, hf]

theorem resumeOf_of_ne {g : κ} {o : Op κ γ ε ν} (hg : g ≠ subject o) : resumeOf g o = none := by
  cases o with
  | resume k v c => exact if_neg (Ne.symm hg)
  | create | perform | exit | discard => rfl

theorem mem_group_apply {a a' : Handlers κ γ} {o : Op κ γ ε ν} {d : Option (Delivery γ ε ν)}
    (hs : apply a o = some (a', d)) {x : Option κ} {u : κ} (hmem : u ∈ group a' x) :
    (∃ y, u ∈ group a y) ∨ ∃ c, o = .create u c := by
  have hframe : ∀ {x c}, (u, c) ∈ frames a' x → ∃ y, u ∈ group a y := by
    intro x c hf
    obtain ⟨y, hy⟩ | ⟨v, rfl⟩ := mem_frames_apply hs hf
    · exact ⟨y, mem_group hy⟩
    · obtain ⟨p, hp, -⟩ := Option.map_eq_some_iff.mp hs
      refine ⟨some u, ?_⟩
      rw [group_some hp]
      exact List.mem_append_right _ (List.mem_singleton_self u)
  cases x with
  | none =>
    obtain ⟨⟨u, c⟩, hf, rfl⟩ := List.mem_map.mp hmem
    exact .inl (hframe (x := none) hf)
  | some j =>
    cases hj : a'.captured j with
    | none => simp [group, hj] at hmem
    | some p =>
      rw [group_some hj, List.mem_append, List.mem_singleton] at hmem
      obtain hf | rfl := hmem
      · obtain ⟨⟨u, c⟩, hf, rfl⟩ := List.mem_map.mp hf
        refine .inl (hframe (x := some j) (c := c) ?_)
        rwa [frames_some hj]
      · by_cases hu : u = subject o
        · cases o with
          | create k c => exact .inr ⟨c, by rw [hu]; rfl⟩
          | resume k v c =>
            obtain ⟨q, -, he⟩ := Option.map_eq_some_iff.mp hs
            cases he
            subst hu
            simp at hj
          | perform h x c =>
            obtain ⟨q, hq, -⟩ := Option.map_eq_some_iff.mp hs
            exact .inl ⟨none, hu ▸ mem_group_of_split hq⟩
          | exit h x =>
            obtain ⟨q, hq, -⟩ := Option.map_eq_some_iff.mp hs
            exact .inl ⟨none, hu ▸ mem_group_of_split hq⟩
          | discard k =>
            cases hs
            subst hu
            simp at hj
        · rw [captured_apply_of_ne hs hu] at hj
          refine .inl ⟨some u, ?_⟩
          rw [group_some hj]
          exact List.mem_append_right _ (List.mem_singleton_self u)

omit [DecidableEq κ] in
theorem distinct_restack {b : Handlers κ γ} (h : Distinct (group b)) {l : List (κ × γ)}
    (hnodup : (names l).Nodup) (hdisj : ∀ k, (names l).Disjoint (group b (some k))) :
    Distinct (group ⟨l, b.captured⟩) := by
  refine ⟨fun x => ?_, fun x y hxy => ?_⟩
  · cases x with
    | none => exact hnodup
    | some k => exact h.1 (some k)
  · cases x with
    | none =>
      cases y with
      | none => exact absurd rfl hxy
      | some k => exact hdisj k
    | some j =>
      cases y with
      | none => exact List.disjoint_symm (hdisj j)
      | some k => exact h.2 (some j) (some k) hxy

section Steps

variable {a : Threads τ κ γ} {t : τ} {o : Op κ γ ε ν} {b : Handlers κ γ}
  {d : Option (Delivery γ ε ν)}

omit [DecidableEq τ] in
theorem Apart.other (h : Apart a) (hm : ∀ k c, o = .create k c → ∀ u x, k ∉ group (view a u) x)
    (hs : apply (view a t) o = some (b, d)) {u : τ} (hu : u ≠ t) (x : Option κ) :
    (names (a.stack u)).Disjoint (group b x) := by
  intro v hv hvx
  obtain ⟨y, hy⟩ | ⟨c, rfl⟩ := mem_group_apply hs hvx
  · cases y with
    | none => exact h.disjoint u t hu hv hy
    | some j => exact (h.distinct u).2 none (some j) nofun hv hy
  · exact hm v c rfl u none hv

theorem Apart.step (h : Apart a) (hm : ∀ k c, o = .create k c → ∀ u x, k ∉ group (view a u) x)
    (hs : apply (view a t) o = some (b, d)) : Apart (put a t b) := by
  have hb : Distinct (group b) := by
    refine distinct_apply (h.distinct t) ?_ hs
    cases o with
    | create k c => exact hm k c rfl t
    | resume | perform | exit | discard => trivial
  have hother : ∀ u, u ≠ t → ∀ x, (names (a.stack u)).Disjoint (group b x) :=
    fun u hu => h.other hm hs hu
  refine ⟨fun u => ?_, fun u v huv => ?_⟩
  · by_cases hu : u = t
    · subst hu
      rwa [view_put_self]
    · rw [view_put_of_ne a hu]
      exact distinct_restack hb ((h.distinct u).1 none) fun k => hother u hu (some k)
  · simp only [put, Function.update_apply]
    split
    · rename_i hu
      rw [if_neg fun hv => huv (hu.trans hv.symm)]
      exact List.disjoint_symm (hother v (fun hv => huv (hu.trans hv.symm)) none)
    · rename_i hu
      split
      · exact hother u hu none
      · exact h.disjoint u v huv

end Steps

/-- What the operations say of the coroutines that run or are captured: the
context that waits for one is the one that resumed it last, and a context at the
bottom of a thread is of that thread. -/
structure Traced (os : List (τ × Op κ γ ε ν × Option (Delivery γ ε ν))) (a : Threads τ κ γ) :
    Prop where
  waiting : ∀ t x g c, (g, c) ∈ frames (view a t) x →
    lastContext (resumeOf g) (together os) = some c
  bottom : ∀ t g c, (a.stack t).getLast? = some (g, c) → lastResumer g os = some t

theorem getLast?_of_split {h : κ} {l : List (κ × γ)} {p : List (κ × γ) × γ × List (κ × γ)}
    (hp : splitAt h l = some p) {f : κ × γ} (hf : p.2.2.getLast? = some f) :
    l.getLast? = some f := by
  rw [splitAt_eq hp, List.getLast?_append, List.getLast?_cons, hf]
  rfl

theorem getLast?_apply {b b' : Handlers κ γ} {o : Op κ γ ε ν} {d : Option (Delivery γ ε ν)}
    (hs : apply b o = some (b', d)) {g : κ} {c : γ} (hlast : b.stack.getLast? = some (g, c))
    (hg : subject o ≠ g) : b'.stack.getLast? = some (g, c) := by
  have hsplit : ∀ {h : κ} {p : List (κ × γ) × γ × List (κ × γ)}, h ≠ g →
      splitAt h b.stack = some p → p.2.2.getLast? = some (g, c) := by
    intro h p hne hp
    rw [splitAt_eq hp, List.getLast?_append, List.getLast?_cons] at hlast
    cases hrest : p.2.2.getLast? with
    | none =>
      rw [hrest] at hlast
      cases hlast
      exact absurd rfl hne
    | some f =>
      rw [hrest] at hlast
      exact hlast
  cases o with
  | create | discard =>
    cases hs
    exact hlast
  | resume k v c' =>
    obtain ⟨p, -, he⟩ := Option.map_eq_some_iff.mp hs
    cases he
    rw [List.getLast?_append, List.getLast?_cons, hlast]
    rfl
  | perform h x c' =>
    obtain ⟨p, hp, he⟩ := Option.map_eq_some_iff.mp hs
    cases he
    exact hsplit hg hp
  | exit h x =>
    obtain ⟨p, hp, he⟩ := Option.map_eq_some_iff.mp hs
    cases he
    exact hsplit hg hp

theorem Traced.step {os : List (τ × Op κ γ ε ν × Option (Delivery γ ε ν))} {a : Threads τ κ γ}
    {t : τ} {o : Op κ γ ε ν} {b : Handlers κ γ} {d : Option (Delivery γ ε ν)}
    (h : Traced os a) (hapart : Apart a)
    (hm : ∀ k c, o = .create k c → ∀ u x, k ∉ group (view a u) x)
    (hs : apply (view a t) o = some (b, d)) : Traced (os ++ [(t, o, d)]) (put a t b) := by
  have hapart' := hapart.step hm hs
  have hb : Distinct (group b) := view_put_self a t b ▸ hapart'.distinct t
  have hself : ∀ x g c, (g, c) ∈ frames b x →
      lastContext (resumeOf g) (together os ++ [(o, d)]) = some c :=
    fun x g c => lastResume_apply hb (h.waiting t) hs
  have hresumed : ∀ k v c, o = .resume k v c → k ∈ group (view a t) (some k) := by
    rintro k v c rfl
    obtain ⟨p, hp, -⟩ := Option.map_eq_some_iff.mp hs
    rw [group_some hp]
    exact List.mem_append_right _ (List.mem_singleton_self k)
  have hother : ∀ u, ∀ g ∈ names (a.stack u), resumeOf g o = none := by
    intro u g hg
    cases o with
    | resume k v c =>
      refine if_neg ?_
      rintro rfl
      exact (hapart.distinct u).2 none (some k) nofun hg (hresumed k v c rfl)
    | create | perform | exit | discard => rfl
  refine ⟨fun u x g c hmem => ?_, fun u g c hlast => ?_⟩
  · rw [together_append]
    by_cases hu : u = t
    · subst hu
      rw [view_put_self] at hmem
      exact hself x g c hmem
    · rw [view_put_of_ne a hu] at hmem
      cases x with
      | none =>
        have hg : g ∈ names (a.stack u) := List.mem_map_of_mem (f := Prod.fst) hmem
        rw [lastContext_append, hother u g hg]
        exact h.waiting u none g c hmem
      | some k => exact hself (some k) g c hmem
  · rw [lastResumer_append]
    have hold : ∀ u, (a.stack u).getLast? = some (g, c) →
        ((resumeOf g o).map fun _ => t).or (lastResumer g os) = some u := by
      intro u hl
      rw [hother u g (List.mem_map_of_mem (f := Prod.fst) (List.mem_of_getLast? hl))]
      exact h.bottom u g c hl
    by_cases hu : u = t
    · subst hu
      simp only [put, Function.update_self] at hlast
      cases o with
      | create | discard =>
        cases hs
        exact hold u hlast
      | resume k v c' =>
        obtain ⟨p, hp, he⟩ := Option.map_eq_some_iff.mp hs
        cases he
        rw [List.getLast?_append, List.getLast?_cons] at hlast
        cases hl : (view a u).stack.getLast? with
        | none =>
          rw [hl] at hlast
          cases hlast
          simp [resumeOf]
        | some f =>
          rw [hl] at hlast
          cases hlast
          exact hold u hl
      | perform g' x c' =>
        obtain ⟨p, hp, he⟩ := Option.map_eq_some_iff.mp hs
        cases he
        exact hold u (getLast?_of_split hp hlast)
      | exit g' x =>
        obtain ⟨p, hp, he⟩ := Option.map_eq_some_iff.mp hs
        cases he
        exact hold u (getLast?_of_split hp hlast)
    · simp only [put, Function.update_of_ne hu] at hlast
      exact hold u hlast

/-- Whatever the threads resume, capture and pass on to each other, every
coroutine is in one place and goes back to the context that resumed it last. -/
theorem run_traced {os : List (τ × Op κ γ ε ν × Option (Delivery γ ε ν))} {a : Threads τ κ γ}
    (h : Run (threadHandlers τ κ γ ε ν) os a) : Apart a ∧ Traced os a := by
  refine Run.invariant (fun os a => Apart a ∧ Traced os a) ?_ ?_ h
  · rintro a rfl
    refine ⟨⟨fun t => ⟨fun x => ?_, fun x y _ u hx => ?_⟩, fun t u _ v hv => ?_⟩,
      ⟨fun t x g c hmem => ?_, fun t g c hlast => ?_⟩⟩
    · cases x <;> exact List.nodup_nil
    · cases x <;> cases hx
    · cases hv
    · cases x <;> cases hmem
    · cases hlast
  · rintro os a ⟨t, o⟩ a' e ⟨hapart, htraced⟩ hm hs
    obtain ⟨⟨b, d⟩, ha, he⟩ := Option.map_eq_some_iff.mp hs
    cases he
    have hm' : ∀ k c, o = .create k c → ∀ u x, k ∉ group (view a u) x := by
      rintro k c rfl
      exact hm
    exact ⟨hapart.step hm' ha, htraced.step hapart hm' ha⟩

end Libseff.ThreadHandlers
