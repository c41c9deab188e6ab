import Mathlib.Data.Nat.Notation
import Mathlib.Algebra.Group.Nat.Defs

namespace Libseff.ByteMemory

abbrev Memory := BitVec 64 → BitVec 8

/-- The `n` bytes from `a` on; a range may wrap around at the end of the address
space. -/
def Inside (a : BitVec 64) (n : ℕ) (x : BitVec 64) : Prop := (x - a).toNat < n

instance (a : BitVec 64) (n : ℕ) (x : BitVec 64) : Decidable (Inside a n x) :=
  inferInstanceAs (Decidable (_ < _))

def load (mem : Memory) (a : BitVec 64) : BitVec 64 :=
  mem (a + 7) ++ mem (a + 6) ++ mem (a + 5) ++ mem (a + 4) ++ mem (a + 3) ++ mem (a + 2) ++
    mem (a + 1) ++ mem (a + 0)

def store (mem : Memory) (a w : BitVec 64) : Memory := fun x =>
  if Inside a 8 x then w.extractLsb' (8 * (x - a).toNat) 8 else mem x

/-- The two ranges do not overlap. -/
def copy (mem : Memory) (dst src : BitVec 64) (n : ℕ) : Memory := fun x =>
  if Inside dst n x then mem (src + (x - dst)) else mem x

def pushAll (mem : Memory) (sp : BitVec 64) : List (BitVec 64) → Memory
  | [] => mem
  | w :: ws => pushAll (store mem (sp - 8) w) (sp - 8) ws

theorem add_sub_self (a d : BitVec 64) : a + d - a = d := by
  rw [BitVec.add_comm, BitVec.add_sub_cancel]

theorem inside_add (a : BitVec 64) {d : BitVec 64} {n : ℕ} (h : d.toNat < n) :
    Inside a n (a + d) := by
  rw [Inside, add_sub_self]
  exact h

theorem Inside.add {a d x : BitVec 64} {k n : ℕ} (h : Inside (a + d) k x)
    (hd : d.toNat + k ≤ n) : Inside a n x := by
  have hx : x - a = d + (x - (a + d)) := by bv_omega
  rw [Inside, hx, BitVec.toNat_add]
  rw [Inside] at h
  exact Nat.lt_of_le_of_lt (Nat.mod_le _ _) (by omega)

theorem Inside.mono {a x : BitVec 64} {k n : ℕ} (h : Inside a k x) (hk : k ≤ n) : Inside a n x :=
  Nat.lt_of_lt_of_le h hk

theorem store_outside {mem : Memory} {a w x : BitVec 64} (h : ¬ Inside a 8 x) :
    store mem a w x = mem x := if_neg h

theorem store_inside (mem : Memory) (a w : BitVec 64) {d : BitVec 64} (h : d.toNat < 8) :
    store mem a w (a + d) = w.extractLsb' (8 * d.toNat) 8 := by
  rw [store, if_pos (inside_add a h), add_sub_self]

theorem copy_outside {mem : Memory} {dst src x : BitVec 64} {n : ℕ} (h : ¬ Inside dst n x) :
    copy mem dst src n x = mem x := if_neg h

theorem copy_inside (mem : Memory) (dst src : BitVec 64) {d : BitVec 64} {n : ℕ}
    (h : d.toNat < n) : copy mem dst src n (dst + d) = mem (src + d) := by
  rw [copy, if_pos (inside_add dst h), add_sub_self]

theorem load_congr {mem mem' : Memory} {a : BitVec 64}
    (h : ∀ x, Inside a 8 x → mem x = mem' x) : load mem a = load mem' a := by
  have hat : ∀ d : BitVec 64, d.toNat < 8 → mem (a + d) = mem' (a + d) := fun d hd =>
    h _ (inside_add a hd)
  simp only [load, hat 0 (by decide), hat 1 (by decide), hat 2 (by decide), hat 3 (by decide),
    hat 4 (by decide), hat 5 (by decide), hat 6 (by decide), hat 7 (by decide)]

theorem extract_append (w : BitVec 64) (i n : ℕ) :
    w.extractLsb' (i + 8) n ++ w.extractLsb' i 8 = w.extractLsb' i (n + 8) :=
  BitVec.extractLsb'_append_extractLsb'_eq_extractLsb' rfl

theorem load_store (mem : Memory) (a w : BitVec 64) : load (store mem a w) a = w := by
  have hat : ∀ d : BitVec 64, d.toNat < 8 →
      store mem a w (a + d) = w.extractLsb' (8 * d.toNat) 8 := fun d => store_inside mem a w
  rw [load, hat 0 (by decide), hat 1 (by decide), hat 2 (by decide), hat 3 (by decide),
    hat 4 (by decide), hat 5 (by decide), hat 6 (by decide), hat 7 (by decide)]
  change w.extractLsb' 56 8 ++ w.extractLsb' 48 8 ++ w.extractLsb' 40 8 ++ w.extractLsb' 32 8 ++
    w.extractLsb' 24 8 ++ w.extractLsb' 16 8 ++ w.extractLsb' 8 8 ++ w.extractLsb' 0 8 = w
  rw [extract_append w 48, extract_append w 40, extract_append w 32, extract_append w 24,
    extract_append w 16, extract_append w 8, extract_append w 0]
  exact BitVec.extractLsb'_eq_self

theorem pushAll_outside {ws : List (BitVec 64)} (hlen : 8 * ws.length < 2 ^ 64) (mem : Memory)
    (sp : BitVec 64) {x : BitVec 64}
    (hx : ¬ Inside (sp - BitVec.ofNat 64 (8 * ws.length)) (8 * ws.length) x) :
    pushAll mem sp ws x = mem x := by
  induction ws generalizing mem sp with
  | nil => rfl
  | cons w ws ih =>
    rw [List.length_cons] at hlen hx
    have hbase : ∀ d k : ℕ, d + k ≤ 8 * (ws.length + 1) → ¬ Inside
        (sp - BitVec.ofNat 64 (8 * (ws.length + 1)) + BitVec.ofNat 64 d) k x := by
      intro d k hd hin
      refine hx (hin.add ?_)
      rw [BitVec.toNat_ofNat]
      have hmod := Nat.mod_le d (2 ^ 64)
      omega
    have htop := hbase (8 * ws.length) 8 (by omega)
    have hrest := hbase 0 (8 * ws.length) (by omega)
    rw [show sp - BitVec.ofNat 64 (8 * (ws.length + 1)) + BitVec.ofNat 64 (8 * ws.length) =
      sp - 8 by bv_omega] at htop
    rw [show sp - BitVec.ofNat 64 (8 * (ws.length + 1)) + BitVec.ofNat 64 0 =
      sp - 8 - BitVec.ofNat 64 (8 * ws.length) by bv_omega] at hrest
    rw [pushAll, ih (by omega) _ _ hrest, store_outside htop]

theorem load_pushAll {ws : List (BitVec 64)} (hlen : 8 * ws.length < 2 ^ 64) (mem : Memory)
    (sp : BitVec 64) {k : ℕ} (hk : k < ws.length) :
    load (pushAll mem sp ws) (sp - BitVec.ofNat 64 (8 * (k + 1))) = ws[k] := by
  induction ws generalizing mem sp k with
  | nil => cases hk
  | cons w ws ih =>
    rw [List.length_cons] at hlen hk
    rw [pushAll]
    cases k with
    | zero =>
      refine Eq.trans (load_congr fun x hx => pushAll_outside (by omega) _ _ fun hin => ?_)
        (load_store mem (sp - 8) w)
      rw [Inside] at hx hin
      bv_omega
    | succ k =>
      rw [List.getElem_cons_succ, ← ih (by omega) (store mem (sp - 8) w) (sp - 8) (by omega)]
      congr 1
      bv_omega

end Libseff.ByteMemory
