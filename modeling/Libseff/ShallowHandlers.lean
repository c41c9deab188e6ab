import Libseff.TransitionRuns
import Mathlib.Data.List.Perm.Subperm
import Mathlib.Data.List.Induction
import Mathlib.Data.List.Nodup

namespace Libseff.ShallowHandlers

open TransitionRuns

variable {κ γ ε ν : Type*}

/-- The coroutines that run, the innermost first, each with the context that
resumed it, and for each suspended coroutine its resumption: the coroutines that
were captured inside it, and the context that performed the effect. -/
structure Handlers (κ γ : Type*) where
  stack : List (κ × γ)
  captured : κ → Option (List (κ × γ) × γ)

inductive Op (κ γ ε ν : Type*) where
  | create (k : κ) (c : γ)
  | resume (k : κ) (v : ν) (c : γ)
  | perform (h : κ) (x : ε) (c : γ)
  | exit (h : κ) (x : ε)
  | discard (k : κ)

inductive Delivery (γ ε ν : Type*) where
  | request (c : γ) (x : ε)
  | value (c : γ) (v : ν)

variable [DecidableEq κ]

def splitAt (h : κ) : List (κ × γ) → Option (List (κ × γ) × γ × List (κ × γ))
  | [] => none
  | (g, c) :: l =>
    if g = h then some ([], c, l) else (splitAt h l).map fun p => ((g, c) :: p.1, p.2)

/-- A handler is shallow: a resumption holds the coroutine itself but not the
context that waits for it, which the next resume provides. -/
def apply (a : Handlers κ γ) : Op κ γ ε ν → Option (Handlers κ γ × Option (Delivery γ ε ν))
  | .create k c => some ({ a with captured := Function.update a.captured k (some ([], c)) }, none)
  | .resume k v c =>
    (a.captured k).map fun p =>
      (⟨p.1 ++ (k, c) :: a.stack, Function.update a.captured k none⟩, some (.value p.2 v))
  | .perform h x c =>
    (splitAt h a.stack).map fun p =>
      (⟨p.2.2, Function.update a.captured h (some (p.1, c))⟩, some (.request p.2.1 x))
  | .exit h x =>
    (splitAt h a.stack).map fun p => (⟨p.2.2, a.captured⟩, some (.request p.2.1 x))
  | .discard k => some ({ a with captured := Function.update a.captured k none }, none)

def frames (a : Handlers κ γ) : Option κ → List (κ × γ)
  | none => a.stack
  | some k => (a.captured k).elim [] Prod.fst

def names (l : List (κ × γ)) : List κ := l.map Prod.fst

def group (a : Handlers κ γ) : Option κ → List κ
  | none => names a.stack
  | some k => (a.captured k).elim [] fun p => names p.1 ++ [k]

def shallowHandlers (κ γ ε ν : Type*) [DecidableEq κ] :
    System (Handlers κ γ) (Op κ γ ε ν) (Op κ γ ε ν × Option (Delivery γ ε ν)) where
  init a := a = ⟨[], fun _ => none⟩
  may a
    | .create k _ => ∀ x, k ∉ group a x
    | _ => True
  step a o := (apply a o).map fun p => (p.1, o, p.2)

def Distinct {ι : Type*} (G : ι → List κ) : Prop :=
  (∀ x, (G x).Nodup) ∧ ∀ x y, x ≠ y → (G x).Disjoint (G y)

omit [DecidableEq κ] in
theorem distinct_of_subperm {ι : Type*} {G G' : ι → List κ} (h : Distinct G) {x y : ι}
    (hxy : x ≠ y) (hsub : (G' x ++ G' y).Subperm (G x ++ G y))
    (hother : ∀ z, z ≠ x → z ≠ y → G' z = G z) : Distinct G' := by
  have hnodup : (G' x ++ G' y).Nodup := by
    obtain ⟨l, hperm, hsublist⟩ := hsub
    exact hperm.nodup_iff.mp
      (hsublist.nodup (List.nodup_append'.mpr ⟨h.1 x, h.1 y, h.2 x y hxy⟩))
  obtain ⟨hx, hy, hdisj⟩ := List.nodup_append'.mp hnodup
  have hmem : ∀ u ∈ G' x ++ G' y, u ∈ G x ∨ u ∈ G y := fun u hu =>
    List.mem_append.mp (hsub.subset hu)
  have hout : ∀ z, z ≠ x → z ≠ y → ∀ u ∈ G' x ++ G' y, u ∉ G' z := by
    intro z hzx hzy u hu huz
    rw [hother z hzx hzy] at huz
    obtain hux | huy := hmem u hu
    · exact h.2 x z (Ne.symm hzx) hux huz
    · exact h.2 y z (Ne.symm hzy) huy huz
  have hleft : ∀ u ∈ G' x, u ∈ G' x ++ G' y := fun u => List.mem_append_left _
  have hright : ∀ u ∈ G' y, u ∈ G' x ++ G' y := fun u => List.mem_append_right _
  refine ⟨fun z => ?_, fun z w hzw u hz hw => ?_⟩
  · by_cases hzx : z = x
    · rwa [hzx]
    · by_cases hzy : z = y
      · rwa [hzy]
      · rw [hother z hzx hzy]
        exact h.1 z
  · by_cases hzx : z = x
    · subst hzx
      by_cases hwy : w = y
      · subst hwy
        exact hdisj hz hw
      · exact hout w (Ne.symm hzw) hwy u (hleft u hz) hw
    · by_cases hzy : z = y
      · subst hzy
        by_cases hwx : w = x
        · subst hwx
          exact hdisj hw hz
        · exact hout w hwx (Ne.symm hzw) u (hright u hz) hw
      · by_cases hwx : w = x
        · subst hwx
          exact hout z hzx hzy u (hleft u hw) hz
        · by_cases hwy : w = y
          · subst hwy
            exact hout z hzx hzy u (hright u hw) hz
          · rw [hother z hzx hzy] at hz
            rw [hother w hwx hwy] at hw
            exact h.2 z w hzw hz hw

omit [DecidableEq κ] in
theorem distinct_of_fresh {ι : Type*} {G G' : ι → List κ} (h : Distinct G) {x : ι}
    (hnodup : (G' x).Nodup) (hfresh : ∀ u ∈ G' x, ∀ y, y ≠ x → u ∉ G y)
    (hother : ∀ z, z ≠ x → G' z = G z) : Distinct G' := by
  refine ⟨fun z => ?_, fun z w hzw u hz hw => ?_⟩
  · by_cases hzx : z = x
    · rwa [hzx]
    · rw [hother z hzx]
      exact h.1 z
  · by_cases hzx : z = x
    · subst hzx
      rw [hother w (Ne.symm hzw)] at hw
      exact hfresh u hz w (Ne.symm hzw) hw
    · rw [hother z hzx] at hz
      by_cases hwx : w = x
      · subst hwx
        exact hfresh u hw z hzx hz
      · rw [hother w hwx] at hw
        exact h.2 z w hzw hz hw

theorem splitAt_eq {h : κ} {l : List (κ × γ)} {p : List (κ × γ) × γ × List (κ × γ)}
    (hs : splitAt h l = some p) : l = p.1 ++ (h, p.2.1) :: p.2.2 := by
  induction l generalizing p with
  | nil => cases hs
  | cons f l ih =>
    obtain ⟨g, c⟩ := f
    rw [splitAt] at hs
    split at hs
    · rename_i hg
      cases hs
      rw [hg]
      rfl
    · obtain ⟨q, hq, rfl⟩ := Option.map_eq_some_iff.mp hs
      rw [ih hq]
      rfl

theorem splitAt_of_mem {h : κ} {l : List (κ × γ)} (hmem : h ∈ names l) :
    ∃ p, splitAt h l = some p := by
  induction l with
  | nil => cases hmem
  | cons f l ih =>
    obtain ⟨g, c⟩ := f
    by_cases hg : g = h
    · exact ⟨_, by rw [splitAt, if_pos hg]⟩
    · obtain ⟨p, hp⟩ := ih ((List.mem_cons.mp hmem).resolve_left (Ne.symm hg))
      exact ⟨_, by rw [splitAt, if_neg hg, hp]; rfl⟩

theorem names_split {h : κ} {l : List (κ × γ)} {p : List (κ × γ) × γ × List (κ × γ)}
    (hs : splitAt h l = some p) : names l = (names p.1 ++ [h]) ++ names p.2.2 := by
  rw [splitAt_eq hs]
  simp [names]

omit [DecidableEq κ] in
theorem group_some {a : Handlers κ γ} {k : κ} {p : List (κ × γ) × γ}
    (h : a.captured k = some p) : group a (some k) = names p.1 ++ [k] := by
  rw [group, h]
  rfl

omit [DecidableEq κ] in
theorem frames_some {a : Handlers κ γ} {k : κ} {p : List (κ × γ) × γ}
    (h : a.captured k = some p) : frames a (some k) = p.1 := by
  rw [frames, h]
  rfl

theorem group_update_some (stack : List (κ × γ)) (captured : κ → Option (List (κ × γ) × γ)) (k : κ)
    (p : List (κ × γ) × γ) :
    group ⟨stack, Function.update captured k (some p)⟩ (some k) = names p.1 ++ [k] :=
  group_some (Function.update_self ..)

theorem group_update_none (stack : List (κ × γ)) (captured : κ → Option (List (κ × γ) × γ))
    (k : κ) : group ⟨stack, Function.update captured k none⟩ (some k) = [] := by
  simp [group]

theorem group_update_of_ne (a : Handlers κ γ) (stack : List (κ × γ)) {k : κ}
    (p : Option (List (κ × γ) × γ)) {x : Option κ} (hnone : x ≠ none) (hk : x ≠ some k) :
    group ⟨stack, Function.update a.captured k p⟩ x = group a x := by
  cases x with
  | none => exact absurd rfl hnone
  | some g =>
    have hg : g ≠ k := fun he => hk (congrArg some he)
    simp only [group, Function.update_of_ne hg]

theorem distinct_apply {a a' : Handlers κ γ} {o : Op κ γ ε ν} {d : Option (Delivery γ ε ν)}
    (h : Distinct (group a)) (hm : (shallowHandlers κ γ ε ν).may a o)
    (hs : apply a o = some (a', d)) : Distinct (group a') := by
  cases o with
  | create k c =>
    cases hs
    have hself := group_update_some a.stack a.captured k ([], c)
    refine distinct_of_fresh h (x := some k) ?_ ?_ fun z hz => ?_
    · rw [hself]
      exact List.nodup_singleton k
    · intro u hu y _
      rw [hself] at hu
      exact List.mem_singleton.mp hu ▸ hm y
    · cases z with
      | none => rfl
      | some g => exact group_update_of_ne a a.stack _ nofun hz
  | resume k v c =>
    obtain ⟨p, hp, he⟩ := Option.map_eq_some_iff.mp hs
    cases he
    refine distinct_of_subperm h (x := some k) (y := none) nofun ?_
      fun z hz hnone => group_update_of_ne a _ none hnone hz
    rw [group_some hp, group_update_none]
    simp only [group, names, List.map_append, List.map_cons, List.nil_append, List.append_assoc]
    exact List.Subperm.refl _
  | perform g x c =>
    obtain ⟨p, hp, he⟩ := Option.map_eq_some_iff.mp hs
    cases he
    refine distinct_of_subperm h (x := some g) (y := none) nofun ?_
      fun z hz hnone => group_update_of_ne a _ _ hnone hz
    rw [group_update_some]
    have hstack : group a none = (names p.1 ++ [g]) ++ names p.2.2 := names_split hp
    rw [hstack]
    exact (List.sublist_append_right _ _).subperm
  | exit g x =>
    obtain ⟨p, hp, he⟩ := Option.map_eq_some_iff.mp hs
    cases he
    refine distinct_of_subperm h (x := some g) (y := none) nofun ?_ fun z hz hnone => ?_
    · have hstack : group a none = (names p.1 ++ [g]) ++ names p.2.2 := names_split hp
      rw [hstack]
      exact ((List.sublist_append_right _ _).append_left _).subperm
    · cases z with
      | none => exact absurd rfl hnone
      | some k => rfl
  | discard k =>
    cases hs
    refine distinct_of_subperm h (x := some k) (y := none) nofun ?_
      fun z hz hnone => group_update_of_ne a _ none hnone hz
    rw [group_update_none]
    exact (List.sublist_append_right _ _).subperm

def Live (a : Handlers κ γ) (g : κ) (c : γ) : Prop :=
  (∃ x, (g, c) ∈ frames a x) ∨ ∃ l, a.captured g = some (l, c)

def saves : Op κ γ ε ν → Option γ
  | .create _ c | .resume _ _ c | .perform _ _ c => some c
  | .exit .. | .discard _ => none

def Delivery.context : Delivery γ ε ν → γ
  | .request c _ | .value c _ => c

def createOf (g : κ) : Op κ γ ε ν → Option γ
  | .create k c => if k = g then some c else none
  | _ => none

def resumeOf (g : κ) : Op κ γ ε ν → Option γ
  | .resume k _ c => if k = g then some c else none
  | _ => none

def performOf (g : κ) : Op κ γ ε ν → Option γ
  | .perform h _ c => if h = g then some c else none
  | _ => none

def lastContext (f : Op κ γ ε ν → Option γ)
    (os : List (Op κ γ ε ν × Option (Delivery γ ε ν))) : Option γ :=
  (os.filterMap fun p => f p.1).getLast?

omit [DecidableEq κ] in
theorem lastContext_append (f : Op κ γ ε ν → Option γ)
    (os : List (Op κ γ ε ν × Option (Delivery γ ε ν))) (p : Op κ γ ε ν × Option (Delivery γ ε ν)) :
    lastContext f (os ++ [p]) = (f p.1).or (lastContext f os) := by
  cases hf : f p.1 with
  | none => simp [lastContext, hf]
  | some c => simp [lastContext, hf]

def subject : Op κ γ ε ν → κ
  | .create k _ | .resume k _ _ | .perform k _ _ | .exit k _ | .discard k => k

def lastOp (k : κ) (os : List (Op κ γ ε ν × Option (Delivery γ ε ν))) : Option (Op κ γ ε ν) :=
  (os.filterMap fun p => if subject p.1 = k then some p.1 else none).getLast?

theorem lastOp_append (k : κ) (os : List (Op κ γ ε ν × Option (Delivery γ ε ν)))
    (p : Op κ γ ε ν × Option (Delivery γ ε ν)) :
    lastOp k (os ++ [p]) = if subject p.1 = k then some p.1 else lastOp k os := by
  by_cases hk : subject p.1 = k
  · simp [lastOp, hk]
  · simp [lastOp, hk]

theorem subject_of_lastOp {k : κ} {os : List (Op κ γ ε ν × Option (Delivery γ ε ν))}
    {o : Op κ γ ε ν} (h : lastOp k os = some o) : subject o = k := by
  obtain ⟨p, -, hp⟩ := List.mem_filterMap.mp (List.mem_of_getLast? h)
  split at hp
  · rename_i hk
    cases hp
    exact hk
  · cases hp

theorem lastContext_of_lastOp {k : κ} {f : Op κ γ ε ν → Option γ}
    (hf : ∀ o, subject o ≠ k → f o = none) {os : List (Op κ γ ε ν × Option (Delivery γ ε ν))}
    {o : Op κ γ ε ν} {c : γ} (h : lastOp k os = some o) (hc : f o = some c) :
    lastContext f os = some c := by
  induction os using List.reverseRecOn with
  | nil => cases h
  | append_singleton os p ih =>
    rw [lastOp_append] at h
    rw [lastContext_append]
    split at h
    · cases h
      rw [hc]
      rfl
    · rename_i hk
      rw [hf p.1 hk]
      exact ih h

omit [DecidableEq κ] in
theorem mem_group {a : Handlers κ γ} {x : Option κ} {g : κ} {c : γ} (h : (g, c) ∈ frames a x) :
    g ∈ group a x := by
  cases x with
  | none => exact List.mem_map_of_mem h
  | some k =>
    cases hk : a.captured k with
    | none => simp [frames, hk] at h
    | some p =>
      rw [group_some hk]
      rw [frames, hk] at h
      exact List.mem_append_left _ (List.mem_map_of_mem h)

theorem not_frame_of_captured {a : Handlers κ γ} (h : Distinct (group a)) {k : κ}
    {p : List (κ × γ) × γ} (hk : a.captured k = some p) {x : Option κ} {c : γ} :
    (k, c) ∉ frames a x := by
  intro hmem
  have hself : k ∈ group a (some k) := by
    rw [group_some hk]
    exact List.mem_append_right _ (List.mem_singleton_self k)
  by_cases hx : x = some k
  · subst hx
    have hnodup := h.1 (some k)
    rw [group_some hk, List.nodup_append'] at hnodup
    rw [frames, hk] at hmem
    exact hnodup.2.2 (List.mem_map_of_mem hmem) (List.mem_singleton_self k)
  · exact h.2 x (some k) hx (mem_group hmem) hself

theorem mem_group_of_split {a : Handlers κ γ} {h : κ} {p : List (κ × γ) × γ × List (κ × γ)}
    (hp : splitAt h a.stack = some p) : h ∈ group a none := by
  rw [group, names_split hp]
  simp

theorem not_mem_of_split {a : Handlers κ γ} (hd : Distinct (group a)) {h : κ}
    {p : List (κ × γ) × γ × List (κ × γ)} (hp : splitAt h a.stack = some p) :
    h ∉ names p.1 ∧ h ∉ names p.2.2 ∧ ∀ k, h ∉ group a (some k) := by
  have hnodup := hd.1 none
  rw [group, names_split hp, List.append_assoc, List.nodup_append', List.singleton_append,
    List.nodup_cons] at hnodup
  obtain ⟨-, ⟨hrest, -⟩, hdisj⟩ := hnodup
  exact ⟨fun hseg => hdisj hseg List.mem_cons_self, hrest,
    fun k hk => hd.2 none (some k) nofun (mem_group_of_split hp) hk⟩

theorem frames_update_of_ne (a : Handlers κ γ) (stack : List (κ × γ)) {j k : κ} (hjk : j ≠ k)
    (p : Option (List (κ × γ) × γ)) :
    frames ⟨stack, Function.update a.captured k p⟩ (some j) = frames a (some j) := by
  simp only [frames, Function.update_of_ne hjk]

theorem mem_frames_update (a : Handlers κ γ) {stack : List (κ × γ)} {k j : κ}
    {v : Option (List (κ × γ) × γ)} {f : κ × γ}
    (hmem : f ∈ frames ⟨stack, Function.update a.captured k v⟩ (some j)) :
    (∃ p, v = some p ∧ f ∈ p.1) ∨ f ∈ frames a (some j) := by
  by_cases hj : j = k
  · subst hj
    simp only [frames, Function.update_self] at hmem
    cases v with
    | none => cases hmem
    | some p => exact .inl ⟨p, rfl, hmem⟩
  · rw [frames_update_of_ne a stack hj] at hmem
    exact .inr hmem

theorem mem_frames_apply {a a' : Handlers κ γ} {o : Op κ γ ε ν} {d : Option (Delivery γ ε ν)}
    (hs : apply a o = some (a', d)) {x : Option κ} {g : κ} {c : γ} (hmem : (g, c) ∈ frames a' x) :
    (∃ y, (g, c) ∈ frames a y) ∨ ∃ v, o = .resume g v c := by
  cases o with
  | create k c' =>
    cases hs
    cases x with
    | none => exact .inl ⟨none, hmem⟩
    | some j =>
      obtain ⟨q, hq, hseg⟩ | hold := mem_frames_update a hmem
      · cases hq
        cases hseg
      · exact .inl ⟨_, hold⟩
  | resume k v c' =>
    obtain ⟨p, hp, he⟩ := Option.map_eq_some_iff.mp hs
    cases he
    cases x with
    | none =>
      obtain hseg | hmem := List.mem_append.mp hmem
      · refine .inl ⟨some k, ?_⟩
        rw [frames, hp]
        exact hseg
      · obtain he | hmem := List.mem_cons.mp hmem
        · cases he
          exact .inr ⟨v, rfl⟩
        · exact .inl ⟨none, hmem⟩
    | some j =>
      obtain ⟨q, hq, -⟩ | hold := mem_frames_update a hmem
      · cases hq
      · exact .inl ⟨_, hold⟩
  | perform h y c' =>
    obtain ⟨p, hp, he⟩ := Option.map_eq_some_iff.mp hs
    cases he
    have hstack : frames a none = p.1 ++ (h, p.2.1) :: p.2.2 := splitAt_eq hp
    cases x with
    | none =>
      refine .inl ⟨none, ?_⟩
      rw [hstack]
      exact List.mem_append_right _ (List.mem_cons_of_mem _ hmem)
    | some j =>
      obtain ⟨q, hq, hseg⟩ | hold := mem_frames_update a hmem
      · cases hq
        refine .inl ⟨none, ?_⟩
        rw [hstack]
        exact List.mem_append_left _ hseg
      · exact .inl ⟨_, hold⟩
  | exit h y =>
    obtain ⟨p, hp, he⟩ := Option.map_eq_some_iff.mp hs
    cases he
    cases x with
    | none =>
      refine .inl ⟨none, ?_⟩
      rw [frames, splitAt_eq hp]
      exact List.mem_append_right _ (List.mem_cons_of_mem _ hmem)
    | some j => exact .inl ⟨some j, hmem⟩
  | discard k =>
    cases hs
    cases x with
    | none => exact .inl ⟨none, hmem⟩
    | some j =>
      obtain ⟨q, hq, -⟩ | hold := mem_frames_update a hmem
      · cases hq
      · exact .inl ⟨_, hold⟩

theorem lastResume_apply {a a' : Handlers κ γ} {o : Op κ γ ε ν} {d : Option (Delivery γ ε ν)}
    {os : List (Op κ γ ε ν × Option (Delivery γ ε ν))} (hd' : Distinct (group a'))
    (h : ∀ x g c, (g, c) ∈ frames a x → lastContext (resumeOf g) os = some c)
    (hs : apply a o = some (a', d)) {x : Option κ} {g : κ} {c : γ} (hmem : (g, c) ∈ frames a' x) :
    lastContext (resumeOf g) (os ++ [(o, d)]) = some c := by
  have hold := mem_frames_apply hs hmem
  rw [lastContext_append]
  cases o with
  | resume k v c' =>
    by_cases hk : k = g
    · subst hk
      obtain ⟨p, -, he⟩ := Option.map_eq_some_iff.mp hs
      cases he
      have hself : (k, c') ∈ p.1 ++ (k, c') :: a.stack := by simp
      simp only [resumeOf, if_true, Option.some_or, Option.some.injEq]
      cases x with
      | none => exact congrArg Prod.snd (List.inj_on_of_nodup_map (hd'.1 none) hself hmem rfl)
      | some j =>
        exact absurd (mem_group hmem) (hd'.2 none (some j) nofun (List.mem_map_of_mem hself))
    · obtain ⟨y, hy⟩ | ⟨w, he⟩ := hold
      · simpa only [resumeOf, if_neg hk, Option.none_or] using h y g c hy
      · cases he
        exact absurd rfl hk
  | create | perform | exit | discard =>
    obtain ⟨y, hy⟩ | ⟨w, he⟩ := hold
    · exact h y g c hy
    · cases he

/-- Whatever is captured and resumed in between, the context that waits for a
coroutine is the one that resumed it last. -/
theorem run_traced {os : List (Op κ γ ε ν × Option (Delivery γ ε ν))} {a : Handlers κ γ}
    (h : Run (shallowHandlers κ γ ε ν) os a) :
    Distinct (group a) ∧ ∀ x g c, (g, c) ∈ frames a x → lastContext (resumeOf g) os = some c := by
  refine Run.invariant (fun os a => Distinct (group a) ∧
    ∀ x g c, (g, c) ∈ frames a x → lastContext (resumeOf g) os = some c) ?_ ?_ h
  · rintro a rfl
    refine ⟨⟨fun x => ?_, fun x y _ u hx => ?_⟩, fun x g c hmem => ?_⟩
    · cases x <;> exact List.nodup_nil
    · cases x <;> cases hx
    · cases x <;> cases hmem
  · rintro os a o a' e ⟨hd, hl⟩ hm hs
    obtain ⟨⟨a'', d⟩, ha, he⟩ := Option.map_eq_some_iff.mp hs
    cases he
    have hd' := distinct_apply hd hm ha
    exact ⟨hd', fun x g c hmem => lastResume_apply hd' hl ha hmem⟩

theorem live_delivery {a a' : Handlers κ γ} {o : Op κ γ ε ν} {d : Delivery γ ε ν}
    (hs : apply a o = some (a', some d)) : Live a (subject o) d.context := by
  have hsplit : ∀ {h : κ} {p : List (κ × γ) × γ × List (κ × γ)}, splitAt h a.stack = some p →
      Live a h p.2.1 := by
    intro h p hp
    refine .inl ⟨none, ?_⟩
    rw [frames, splitAt_eq hp]
    exact List.mem_append_right _ List.mem_cons_self
  cases o with
  | create | discard => cases hs
  | resume k v c =>
    obtain ⟨p, hp, he⟩ := Option.map_eq_some_iff.mp hs
    cases he
    exact .inr ⟨p.1, hp⟩
  | perform h x c =>
    obtain ⟨p, hp, he⟩ := Option.map_eq_some_iff.mp hs
    cases he
    exact hsplit hp
  | exit h x =>
    obtain ⟨p, hp, he⟩ := Option.map_eq_some_iff.mp hs
    cases he
    exact hsplit hp

theorem captured_apply_of_ne {a a' : Handlers κ γ} {o : Op κ γ ε ν}
    {d : Option (Delivery γ ε ν)} (hs : apply a o = some (a', d)) {g : κ} (hg : g ≠ subject o) :
    a'.captured g = a.captured g := by
  cases o with
  | create k c =>
    cases hs
    exact Function.update_of_ne hg _ _
  | resume k v c =>
    obtain ⟨p, hp, he⟩ := Option.map_eq_some_iff.mp hs
    cases he
    exact Function.update_of_ne hg _ _
  | perform h x c =>
    obtain ⟨p, hp, he⟩ := Option.map_eq_some_iff.mp hs
    cases he
    exact Function.update_of_ne hg _ _
  | exit h x =>
    obtain ⟨p, hp, he⟩ := Option.map_eq_some_iff.mp hs
    cases he
    rfl
  | discard k =>
    cases hs
    exact Function.update_of_ne hg _ _

theorem saves_of_live {a a' : Handlers κ γ} {o : Op κ γ ε ν} {d : Option (Delivery γ ε ν)}
    (hd : Distinct (group a)) (hm : (shallowHandlers κ γ ε ν).may a o)
    (ho : ∀ k, o ≠ .discard k) (hs : apply a o = some (a', d)) {c : γ}
    (hlive : Live a' (subject o) c) : saves o = some c := by
  have hd' := distinct_apply hd hm hs
  cases o with
  | create k c' =>
    have hk : a'.captured k = some ([], c') := by
      cases hs
      exact Function.update_self ..
    obtain ⟨x, hmem⟩ | ⟨l, hl⟩ := hlive
    · exact absurd hmem (not_frame_of_captured hd' hk)
    · cases hk.symm.trans hl
      rfl
  | resume k v c' =>
    have hmem : (k, c') ∈ frames a' none := by
      obtain ⟨p, -, he⟩ := Option.map_eq_some_iff.mp hs
      cases he
      simp [frames]
    obtain ⟨x, hx⟩ | ⟨l, hl⟩ := hlive
    · cases x with
      | none =>
        have he := List.inj_on_of_nodup_map (hd'.1 none) hmem hx rfl
        exact congrArg (fun f => some f.2) he
      | some j => exact absurd (mem_group hx) (hd'.2 none (some j) (by simp) (mem_group hmem))
    · exact absurd hmem (not_frame_of_captured hd' hl)
  | perform h x c' =>
    have hk : ∃ l, a'.captured h = some (l, c') := by
      obtain ⟨p, -, he⟩ := Option.map_eq_some_iff.mp hs
      cases he
      exact ⟨p.1, Function.update_self ..⟩
    obtain ⟨l', hk⟩ := hk
    obtain ⟨y, hmem⟩ | ⟨l, hl⟩ := hlive
    · exact absurd hmem (not_frame_of_captured hd' hk)
    · cases hk.symm.trans hl
      rfl
  | exit h x =>
    obtain ⟨p, hp, he⟩ := Option.map_eq_some_iff.mp hs
    cases he
    obtain ⟨-, hrest, hout⟩ := not_mem_of_split hd hp
    obtain ⟨y, hmem⟩ | ⟨l, hl⟩ := hlive
    · cases y with
      | none => exact absurd (List.mem_map_of_mem hmem) hrest
      | some j => exact absurd (mem_group (a := a) hmem) (hout j)
    · have hk : a.captured h = some (l, c) := hl
      have hself : h ∈ group a (some h) := by
        rw [group_some hk]
        exact List.mem_append_right _ (List.mem_singleton_self h)
      exact absurd hself (hout h)
  | discard k => exact absurd rfl (ho k)

theorem live_apply {a a' : Handlers κ γ} {o : Op κ γ ε ν} {d : Option (Delivery γ ε ν)}
    (hd : Distinct (group a)) (hm : (shallowHandlers κ γ ε ν).may a o)
    (ho : ∀ k, o ≠ .discard k) (hs : apply a o = some (a', d)) {g : κ} {c : γ}
    (hlive : Live a' g c) :
    (g ≠ subject o ∧ Live a g c) ∨ (g = subject o ∧ saves o = some c) := by
  by_cases hg : g = subject o
  · subst hg
    exact .inr ⟨rfl, saves_of_live hd hm ho hs hlive⟩
  · refine .inl ⟨hg, ?_⟩
    obtain ⟨x, hmem⟩ | ⟨l, hl⟩ := hlive
    · obtain hold | ⟨v, rfl⟩ := mem_frames_apply hs hmem
      · exact .inl hold
      · exact absurd rfl hg
    · rw [captured_apply_of_ne hs hg] at hl
      exact .inr ⟨l, hl⟩

theorem live_of_apply {a a' : Handlers κ γ} {o : Op κ γ ε ν} {d : Option (Delivery γ ε ν)}
    (hd : Distinct (group a)) (hm : (shallowHandlers κ γ ε ν).may a o)
    (hs : apply a o = some (a', d)) {g : κ} {c : γ} (hlive : Live a' g c) :
    Live a g c ∨ saves o = some c := by
  by_cases ho : ∃ k, o = .discard k
  · obtain ⟨k, rfl⟩ := ho
    refine .inl ?_
    obtain ⟨x, hmem⟩ | ⟨l, hl⟩ := hlive
    · obtain hold | ⟨v, hv⟩ := mem_frames_apply hs hmem
      · exact .inl hold
      · cases hv
    · by_cases hg : g = k
      · subst hg
        cases hs
        simp at hl
      · rw [captured_apply_of_ne hs hg] at hl
        exact .inr ⟨l, hl⟩
  · exact (live_apply hd hm (fun k hk => ho ⟨k, hk⟩) hs hlive).imp And.right And.right

end Libseff.ShallowHandlers
