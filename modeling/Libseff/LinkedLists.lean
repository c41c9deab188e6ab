import Mathlib.Data.List.Basic
import Mathlib.Data.List.Nodup

namespace Libseff.LinkedLists

variable {β : Type*}

/-- The nodes `l` stand in this order between `before` and `after`. -/
def DoublyLinked (prev next : β → β) (after : β) : β → List β → Prop
  | _, [] => True
  | before, a :: l => prev a = before ∧ next a = l.headD after ∧ DoublyLinked prev next after a l

variable {prev next prev' next' : β → β} {after after' before before' : β}

theorem doublyLinked_congr {l : List β} (h : DoublyLinked prev next after before l)
    (hp : ∀ a ∈ l, prev' a = prev a) (hn : ∀ a ∈ l, next' a = next a) :
    DoublyLinked prev' next' after before l := by
  induction l generalizing before with
  | nil => trivial
  | cons a l ih =>
    obtain ⟨h1, h2, h3⟩ := h
    refine ⟨(hp a List.mem_cons_self).trans h1, (hn a List.mem_cons_self).trans h2, ?_⟩
    exact ih h3 (fun b hb => hp b (List.mem_cons_of_mem a hb))
      (fun b hb => hn b (List.mem_cons_of_mem a hb))

theorem headD_append (l l' : List β) (d : β) : (l ++ l').headD d = l.headD (l'.headD d) := by
  cases l <;> rfl

theorem doublyLinked_append {l l' : List β} :
    DoublyLinked prev next after before (l ++ l') ↔
      DoublyLinked prev next (l'.headD after) before l ∧
        DoublyLinked prev next after (l.getLastD before) l' := by
  induction l generalizing before with
  | nil => simp [DoublyLinked]
  | cons a l ih =>
    simp only [List.cons_append, DoublyLinked, ih, headD_append, List.getLastD_cons, and_assoc]

theorem doublyLinked_before {a : β} {l : List β} (h : DoublyLinked prev next after before (a :: l))
    (ha : prev' a = before') (hp : ∀ b ∈ l, prev' b = prev b)
    (hn : ∀ b ∈ a :: l, next' b = next b) :
    DoublyLinked prev' next' after before' (a :: l) := by
  obtain ⟨-, h2, h3⟩ := h
  refine ⟨ha, (hn a List.mem_cons_self).trans h2, ?_⟩
  exact doublyLinked_congr h3 hp (fun b hb => hn b (List.mem_cons_of_mem a hb))

theorem doublyLinked_after {l : List β} {z : β}
    (h : DoublyLinked prev next after before (l ++ [z])) (hz : next' z = after')
    (hp : ∀ b ∈ l ++ [z], prev' b = prev b) (hn : ∀ b ∈ l, next' b = next b) :
    DoublyLinked prev' next' after' before (l ++ [z]) := by
  rw [doublyLinked_append] at h ⊢
  obtain ⟨h1, h2, -, -⟩ := h
  refine ⟨doublyLinked_congr h1 (fun b hb => hp b (List.mem_append_left _ hb)) hn, ?_, hz, trivial⟩
  exact (hp z (List.mem_append_right _ List.mem_cons_self)).trans h2

theorem doublyLinked_insert {k l : List β} {z a : β}
    (h : DoublyLinked prev next after before ((k ++ [z]) ++ l)) (hz : next' z = a)
    (ha : prev' a = z ∧ next' a = l.headD after) (hp : ∀ b ∈ k ++ [z], prev' b = prev b)
    (hn : ∀ b ∈ k, next' b = next b) (hhead : ∀ b t, l = b :: t → prev' b = a)
    (htail : ∀ b t, l = b :: t → ∀ c ∈ t, prev' c = prev c) (hl : ∀ b ∈ l, next' b = next b) :
    DoublyLinked prev' next' after before ((k ++ [z]) ++ a :: l) := by
  obtain ⟨h1, h2⟩ := doublyLinked_append.mp h
  refine doublyLinked_append.mpr ⟨doublyLinked_after h1 hz hp hn, ?_, ha.2, ?_⟩
  · rw [List.getLastD_concat]
    exact ha.1
  · cases l with
    | nil => trivial
    | cons b t => exact doublyLinked_before h2 (hhead b t rfl) (htail b t rfl) hl

theorem doublyLinked_prev {l : List β} (h : DoublyLinked prev next after before l) {c : β}
    (hc : c ∈ l) : prev c = before ∨ prev c ∈ l := by
  induction l generalizing before with
  | nil => cases hc
  | cons a l ih =>
    obtain ⟨h1, -, h3⟩ := h
    obtain rfl | hc := List.mem_cons.mp hc
    · exact .inl h1
    · obtain heq | hmem := ih h3 hc
      · exact .inr (heq ▸ List.mem_cons_self)
      · exact .inr (List.mem_cons_of_mem a hmem)

theorem doublyLinked_next {l : List β} (h : DoublyLinked prev next after before l) {c : β}
    (hc : c ∈ l) : next c = after ∨ next c ∈ l := by
  induction l generalizing before with
  | nil => cases hc
  | cons a l ih =>
    obtain ⟨-, h2, h3⟩ := h
    obtain rfl | hc := List.mem_cons.mp hc
    · cases l with
      | nil => exact .inl h2
      | cons b t => exact .inr (h2 ▸ List.mem_cons_of_mem _ List.mem_cons_self)
    · obtain heq | hmem := ih h3 hc
      · exact .inl heq
      · exact .inr (List.mem_cons_of_mem a hmem)

theorem doublyLinked_back {l : List β} {z : β}
    (h : DoublyLinked prev next after before (l ++ [z])) {c : β} (hc : c ∈ l) :
    prev (next c) = c := by
  induction l generalizing before with
  | nil => cases hc
  | cons a l ih =>
    obtain ⟨-, h2, h3⟩ := h
    obtain rfl | hc := List.mem_cons.mp hc
    · rw [h2]
      cases l with
      | nil => exact h3.1
      | cons b t => exact h3.1
    · exact ih h3 hc

/-- The nodes that can be visited from `head` without passing `nil`. -/
inductive Reachable (prev next : β → β) (nil head : β) : β → Prop
  | head (hne : head ≠ nil) : Reachable prev next nil head head
  | prev {c : β} (hc : Reachable prev next nil head c) (hne : prev c ≠ nil) :
      Reachable prev next nil head (prev c)
  | next {c : β} (hc : Reachable prev next nil head c) (hne : next c ≠ nil) :
      Reachable prev next nil head (next c)

theorem mem_of_reachable {nil : β} {l : List β} (h : DoublyLinked prev next nil nil l) {c : β}
    (hc : Reachable prev next nil (l.headD nil) c) : c ∈ l := by
  induction hc with
  | head hne =>
    cases l with
    | nil => exact absurd rfl hne
    | cons a l => exact List.mem_cons_self
  | prev _ hne ih => exact (doublyLinked_prev h ih).resolve_left hne
  | next _ hne ih => exact (doublyLinked_next h ih).resolve_left hne

theorem reachable_of_mem {nil head : β} {l : List β} (h : DoublyLinked prev next nil before l)
    (hnil : nil ∉ l) (hhead : l ≠ [] → Reachable prev next nil head (l.headD nil)) {c : β}
    (hc : c ∈ l) : Reachable prev next nil head c := by
  induction l generalizing before with
  | nil => cases hc
  | cons a l ih =>
    obtain ⟨-, h2, h3⟩ := h
    have ha : Reachable prev next nil head a := hhead (List.cons_ne_nil a l)
    obtain rfl | hc := List.mem_cons.mp hc
    · exact ha
    · refine ih h3 (fun hn => hnil (List.mem_cons_of_mem a hn)) (fun hne => ?_) hc
      rw [← h2]
      refine Reachable.next ha fun he => ?_
      cases l with
      | nil => exact hne rfl
      | cons b t => exact hnil (he ▸ h2 ▸ List.mem_cons_of_mem a List.mem_cons_self)

theorem reachable_iff_mem {nil : β} {l : List β} (h : DoublyLinked prev next nil nil l)
    (hnil : nil ∉ l) {c : β} : Reachable prev next nil (l.headD nil) c ↔ c ∈ l := by
  refine ⟨mem_of_reachable h, reachable_of_mem h hnil fun hne => Reachable.head fun he => ?_⟩
  cases l with
  | nil => exact hne rfl
  | cons a l => exact hnil (he ▸ List.mem_cons_self)

/-- Following `next` from `a` visits `l` and then comes to `after`. -/
def Path (next : β → β) (after : β) : β → List β → Prop
  | a, [] => a = after
  | a, b :: l => a = b ∧ Path next after (next b) l

theorem path_congr {a : β} {l : List β} (h : Path next after a l)
    (hn : ∀ b ∈ l, next' b = next b) : Path next' after a l := by
  induction l generalizing a with
  | nil => exact h
  | cons b l ih =>
    refine ⟨h.1, ?_⟩
    rw [hn b List.mem_cons_self]
    exact ih h.2 fun c hc => hn c (List.mem_cons_of_mem b hc)

theorem path_head {a : β} {l : List β} (h : Path next after a l) : a = l.headD after := by
  cases l with
  | nil => exact h
  | cons b l => exact h.1

theorem path_next {a b : β} {l : List β} (h : Path next after a l) (hb : b ∈ l) :
    next b = after ∨ next b ∈ l.tail := by
  induction l generalizing a with
  | nil => cases hb
  | cons c l ih =>
    obtain ⟨-, h⟩ := h
    obtain rfl | hb := List.mem_cons.mp hb
    · cases l with
      | nil => exact .inl h
      | cons d l => exact .inr (h.1 ▸ List.mem_cons_self)
    · exact (ih h hb).imp_right List.mem_of_mem_tail

theorem path_unique {a : β} {l l' : List β} (h : Path next after a l) (h' : Path next after a l')
    (hl : after ∉ l) (hl' : after ∉ l') : l = l' := by
  induction l generalizing a l' with
  | nil =>
    obtain rfl : a = after := h
    cases l' with
    | nil => rfl
    | cons b l' => exact absurd (h'.1 ▸ List.mem_cons_self) hl'
  | cons b l ih =>
    obtain ⟨rfl, h⟩ := h
    cases l' with
    | nil =>
      obtain rfl : a = after := h'
      exact absurd List.mem_cons_self hl
    | cons c l' =>
      obtain ⟨rfl, h'⟩ := h'
      have htail := ih h h' (fun hm => hl (List.mem_cons_of_mem a hm))
        fun hm => hl' (List.mem_cons_of_mem a hm)
      rw [htail]

theorem path_of_doublyLinked {l : List β} (h : DoublyLinked prev next after before l) :
    Path next after (l.headD after) l := by
  induction l generalizing before with
  | nil => rfl
  | cons a l ih =>
    obtain ⟨-, h2, h3⟩ := h
    refine ⟨rfl, ?_⟩
    rw [h2]
    exact ih h3

theorem path_append {a : β} {l l' : List β} :
    Path next after a (l ++ l') ↔
      Path next (l'.headD after) a l ∧ Path next after (l'.headD after) l' := by
  induction l generalizing a with
  | nil =>
    refine ⟨fun h => ⟨path_head h, path_head h ▸ h⟩, fun h => ?_⟩
    obtain ⟨rfl, h⟩ := h
    exact h
  | cons b l ih =>
    rw [List.cons_append, Path, Path, ih, and_assoc]

end Libseff.LinkedLists
