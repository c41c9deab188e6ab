import Libseff.Declarations

namespace Libseff.DeclarationLayout

open StructLayout Declarations

theorem declare_suffixes (ty : Ty) (k : ℕ) (suffixes : List Suffix) :
    declare ty ⟨k, suffixes⟩ = suffixes.foldr Suffix.read (declare ty ⟨k, []⟩) := by
  cases ty with
  | ptr ty => exact declare_suffixes ty (k + 1) suffixes
  | arr ty n =>
    have h := declare_suffixes ty k (suffixes ++ [.dim n])
    have h' := declare_suffixes ty k [.dim n]
    rw [List.foldr_append, ← h'] at h
    exact h
  | func ret =>
    have h := declare_suffixes ret k (suffixes ++ [.params])
    have h' := declare_suffixes ret k [.params]
    rw [List.foldr_append, ← h'] at h
    exact h
  | _ => rfl

theorem declare_arr (ty : Ty) (n k : ℕ) :
    declare (.arr ty n) ⟨k, []⟩ = .array (declare ty ⟨k, []⟩) n :=
  declare_suffixes ty k [.dim n]

theorem declare_func (ret : Ty) (k : ℕ) : declare (.func ret) ⟨k, []⟩ = .function :=
  declare_suffixes ret k [.params]

theorem read_pointer (k : ℕ) (base : CType) : Declarator.read ⟨k + 1, []⟩ base = .pointer := rfl

theorem sizeof_behind (ty : Ty) (k : ℕ) :
    sizeof (declare ty ⟨k + 1, []⟩) = (pointers ty).map fun m => m * 8 := by
  cases ty with
  | ptr ty => exact sizeof_behind ty (k + 1)
  | arr ty n =>
    rw [declare_arr, sizeof, sizeof_behind ty k, pointers, Option.map_map, Option.map_map]
    congr 1
    funext m
    exact (Nat.mul_assoc n m 8).symm
  | func ret =>
    rw [declare_func]
    rfl
  | _ => rfl

theorem alignOf_behind (ty : Ty) (k : ℕ) (h : pointers ty ≠ none) :
    alignOf (declare ty ⟨k + 1, []⟩) = 8 := by
  cases ty with
  | ptr ty => exact alignOf_behind ty (k + 1) h
  | arr ty n =>
    rw [declare_arr]
    exact alignOf_behind ty k (mt Option.map_eq_none_iff.mpr h)
  | func ret => exact absurd rfl h
  | _ => rfl

theorem sizeof_ptr (ty : Ty) :
    sizeof (declare (.ptr ty) .plain) = (pointers ty).map fun m => m * 8 :=
  sizeof_behind ty 0

theorem sizeof_arr (ty : Ty) (n : ℕ) :
    sizeof (declare (.arr ty n) .plain) =
      (sizeof (declare ty .plain)).map fun s => n * s := by
  rw [Declarator.plain, declare_arr, sizeof]

theorem sizeof_func (ret : Ty) : sizeof (declare (.func ret) .plain) = none := by
  rw [Declarator.plain, declare_func, sizeof]

theorem sizeof_struct (name : String) {fields : Fields} (h : SameLayout fields) :
    ∃ s, size (.struct name fields) = some s ∧
      sizeof (declare (.struct name fields) .plain) = some s := by
  obtain ⟨offsets, total, e, hinit, -, hsize⟩ := h
  refine ⟨total, ?_, hsize⟩
  rw [size, hinit]
  rfl

/-- The three results that follow are about a type all of whose structs have the
same layout. -/
theorem declarable_iff (ty : Ty) (h : Everywhere SameLayout ty) :
    Declarable ty ↔ ∃ s c, size ty = some s ∧ sizeof (declare ty .plain) = some c := by
  cases ty with
  | byte | halfWord | word | sizeT => exact iff_of_true trivial ⟨_, _, rfl, rfl⟩
  | void | unsized name => exact iff_of_false id fun ⟨_, _, _, hc⟩ => by cases hc
  | func ret =>
    refine iff_of_false id ?_
    rintro ⟨s, c, -, hc⟩
    rw [sizeof_func] at hc
    cases hc
  | ptr ty =>
    rw [sizeof_ptr]
    constructor
    · intro hp
      obtain ⟨m, hm⟩ := Option.ne_none_iff_exists'.mp hp
      exact ⟨wordSize, m * 8, rfl, by rw [hm, Option.map_some]⟩
    · rintro ⟨s, c, -, hc⟩ hp
      rw [hp] at hc
      cases hc
  | arr ty n =>
    refine (declarable_iff ty h).trans ?_
    rw [sizeof_arr, size]
    constructor
    · rintro ⟨s, c, hs, hc⟩
      exact ⟨n * s, n * c, by rw [hs, Option.map_some], by rw [hc, Option.map_some]⟩
    · rintro ⟨s, c, hs, hc⟩
      obtain ⟨s', hs', -⟩ := Option.map_eq_some_iff.mp hs
      obtain ⟨c', hc', -⟩ := Option.map_eq_some_iff.mp hc
      exact ⟨s', c', hs', hc'⟩
  | typeDef name target => exact declarable_iff target h
  | enum name underlying => exact declarable_iff underlying h
  | struct name fields =>
    obtain ⟨s, hs, hc⟩ := sizeof_struct name h.1
    exact iff_of_true trivial ⟨s, s, hs, hc⟩

theorem plain_iff (ty : Ty) (h : Everywhere SameLayout ty) :
    Plain ty ↔ ∃ s, size ty = some s ∧ sizeof (declare ty .plain) = some s := by
  cases ty with
  | byte | halfWord | word | sizeT => exact iff_of_true trivial ⟨_, rfl, rfl⟩
  | void | unsized name => exact iff_of_false id fun ⟨_, _, hc⟩ => by cases hc
  | func ret =>
    refine iff_of_false id ?_
    rintro ⟨s, -, hc⟩
    rw [sizeof_func] at hc
    cases hc
  | ptr ty =>
    rw [sizeof_ptr]
    constructor
    · intro hp
      have hone : pointers ty = some 1 := hp
      exact ⟨8, rfl, by rw [hone, Option.map_some]⟩
    · rintro ⟨s, hs, hc⟩
      cases hs
      obtain ⟨m, hm, h8⟩ := Option.map_eq_some_iff.mp hc
      have hone : m = 1 := by
        rw [wordSize] at h8
        omega
      rw [hone] at hm
      exact hm
  | arr ty n =>
    have hplain := plain_iff ty h
    have hdeclarable := declarable_iff ty h
    rw [sizeof_arr, size]
    constructor
    · rintro (hp | ⟨rfl, hd⟩)
      · obtain ⟨s, hs, hc⟩ := hplain.mp hp
        exact ⟨n * s, by rw [hs, Option.map_some], by rw [hc, Option.map_some]⟩
      · obtain ⟨s, c, hs, hc⟩ := hdeclarable.mp hd
        exact ⟨0, by rw [hs, Option.map_some, Nat.zero_mul], by
          rw [hc, Option.map_some, Nat.zero_mul]⟩
    · rintro ⟨s, hs, hc⟩
      obtain ⟨s', hs', rfl⟩ := Option.map_eq_some_iff.mp hs
      obtain ⟨c', hc', heq⟩ := Option.map_eq_some_iff.mp hc
      obtain rfl | hpos := Nat.eq_zero_or_pos n
      · exact Or.inr ⟨rfl, hdeclarable.mpr ⟨s', c', hs', hc'⟩⟩
      · obtain rfl := Nat.eq_of_mul_eq_mul_left hpos heq
        exact Or.inl (hplain.mpr ⟨c', hs', hc'⟩)
  | typeDef name target => exact plain_iff target h
  | enum name underlying => exact plain_iff underlying h
  | struct name fields => exact iff_of_true trivial (sizeof_struct name h.1)

theorem size_le (ty : Ty) (h : Everywhere SameLayout ty) {s c : ℕ} (hs : size ty = some s)
    (hc : sizeof (declare ty .plain) = some c) :
    s ≤ c ∨ alignOf (declare ty .plain) = 8 := by
  cases ty with
  | byte | halfWord | word | sizeT =>
    cases hs
    cases hc
    exact Or.inl le_rfl
  | void | unsized name => cases hc
  | func ret =>
    rw [sizeof_func] at hc
    cases hc
  | ptr ty =>
    rw [sizeof_ptr] at hc
    obtain ⟨m, hm, -⟩ := Option.map_eq_some_iff.mp hc
    exact Or.inr (alignOf_behind ty 0 (by simp [hm]))
  | arr ty n =>
    rw [sizeof_arr] at hc
    obtain ⟨s', hs', rfl⟩ := Option.map_eq_some_iff.mp hs
    obtain ⟨c', hc', rfl⟩ := Option.map_eq_some_iff.mp hc
    obtain hle | halign := size_le ty h hs' hc'
    · exact Or.inl (Nat.mul_le_mul_left n hle)
    · refine Or.inr ?_
      rw [Declarator.plain, declare_arr]
      exact halign
  | typeDef name target => exact size_le target h hs hc
  | enum name underlying => exact size_le underlying h hs hc
  | struct name fields =>
    obtain ⟨s', hs', hc'⟩ := sizeof_struct name h.1
    rw [hs'] at hs
    rw [hc'] at hc
    cases hs
    cases hc
    exact Or.inl le_rfl

/-- Where the offsets and the size come out the same, the two positions were the
same from the start: C can only be ahead, or it stands at a multiple of 8, where
it leaves no padding that could make up for a smaller size. -/
theorem aligned_of_place (fields : Fields) (h : EverywhereFields SameLayout fields) {p q k : ℕ}
    (hk : k ≤ 3) (hpq : p ≤ q ∨ 8 ∣ q) {offsets : List ℕ} {total e : ℕ}
    (hinit : structInit fields p = some (offsets, total))
    (hplace : place (members fields) q = some (offsets, e)) (hend : roundUp e (2 ^ k) = total) :
    p = q ∧ Aligned (2 ^ k) fields p := by
  have hsame {k : ℕ} (hk : k ≤ 3) (hp : roundUp q (2 ^ k) = p) : p = q := by
    obtain hle | hdvd := hpq
    · have := le_roundUp (Nat.two_pow_pos k) q
      omega
    · rw [← hp, roundUp_of_eight_dvd hk hdvd]
  cases fields with
  | nil =>
    cases hinit
    cases hplace
    refine ⟨hsame hk hend, ?_⟩
    rw [← hend]
    exact dvd_roundUp q _
  | cons name ty rest =>
    obtain ⟨s, hs, hmap⟩ := Option.bind_eq_some_iff.mp hinit
    obtain ⟨⟨offsets', total'⟩, hinit', heq⟩ := Option.map_eq_some_iff.mp hmap
    cases heq
    obtain ⟨c, hc, hmap'⟩ := Option.bind_eq_some_iff.mp hplace
    obtain ⟨⟨offsets'', e'⟩, hplace', heq⟩ := Option.map_eq_some_iff.mp hmap'
    obtain ⟨hcons, rfl⟩ := Prod.mk.inj heq
    obtain ⟨hp, rfl⟩ := List.cons.inj hcons
    obtain rfl : p = q := hsame (alignLog_le _) hp
    have hdvd : alignOf (declare ty .plain) ∣ p := by
      rw [← hp]
      exact dvd_roundUp p _
    have hnext : p + s ≤ p + c ∨ 8 ∣ p + c := by
      obtain hle | halign := size_le ty h.1 hs hc
      · exact Or.inl (Nat.add_le_add_left hle p)
      · have hsize := alignOf_dvd_sizeof _ hc
        rw [halign] at hdvd hsize
        exact Or.inr (Nat.dvd_add hdvd hsize)
    rw [hp] at hplace'
    obtain ⟨heq, hrest⟩ := aligned_of_place rest h.2 hk hnext hinit' hplace' hend
    obtain rfl : s = c := Nat.add_left_cancel heq
    exact ⟨rfl, (plain_iff ty h.1).mpr ⟨s, hs, hc⟩, hdvd, s, hs, hrest⟩

theorem place_of_aligned (fields : Fields) (h : EverywhereFields SameLayout fields) {p align : ℕ}
    (ha : Aligned align fields p) : ∃ offsets total, structInit fields p = some (offsets, total) ∧
      place (members fields) p = some (offsets, total) ∧ align ∣ total := by
  cases fields with
  | nil => exact ⟨[], p, rfl, rfl, ha⟩
  | cons name ty rest =>
    obtain ⟨hplain, hdvd, s, hs, hrest⟩ := ha
    obtain ⟨s', hs', hc⟩ := (plain_iff ty h.1).mp hplain
    obtain rfl : s = s' := Option.some.inj (hs.symm.trans hs')
    obtain ⟨offsets, total, hinit, hplace, htotal⟩ := place_of_aligned rest h.2 hrest
    refine ⟨p :: offsets, total, ?_, ?_, htotal⟩
    · rw [structInit, hs, Option.bind_some, hinit, Option.map_some]
    · rw [members, place, hc, Option.bind_some, roundUp_of_dvd (alignOf_pos _) hdvd, hplace,
        Option.map_some]

theorem sameLayout_iff (fields : Fields) (h : EverywhereFields SameLayout fields) :
    SameLayout fields ↔ Packed fields := by
  constructor
  · rintro ⟨offsets, total, e, hinit, hplace, hsize⟩
    rw [sizeof, hplace] at hsize
    exact (aligned_of_place fields h (membersAlignLog_le (members fields)) (Or.inl le_rfl) hinit
      hplace (Option.some.inj hsize)).2
  · intro hpacked
    obtain ⟨offsets, total, hinit, hplace, hdvd⟩ := place_of_aligned fields h hpacked
    refine ⟨offsets, total, total, hinit, hplace, ?_⟩
    rw [sizeof, hplace, Option.map_some]
    exact congrArg some (roundUp_of_dvd (Nat.two_pow_pos _) hdvd)

mutual

theorem everywhere_iff (ty : Ty) : Everywhere SameLayout ty ↔ Everywhere Packed ty := by
  cases ty with
  | arr ty n => exact everywhere_iff ty
  | typeDef name target => exact everywhere_iff target
  | enum name underlying => exact everywhere_iff underlying
  | struct name fields =>
    have hfields := everywhereFields_iff fields
    constructor
    · rintro ⟨hsame, h⟩
      exact ⟨(sameLayout_iff fields h).mp hsame, hfields.mp h⟩
    · rintro ⟨hpacked, h⟩
      have h' := hfields.mpr h
      exact ⟨(sameLayout_iff fields h').mpr hpacked, h'⟩
  | _ => exact Iff.rfl

theorem everywhereFields_iff (fields : Fields) :
    EverywhereFields SameLayout fields ↔ EverywhereFields Packed fields := by
  cases fields with
  | nil => exact Iff.rfl
  | cons name ty rest => exact and_congr (everywhere_iff ty) (everywhereFields_iff rest)

end

/-- A struct and the structs that are parts of it have the same layout on both
sides exactly when all of them are packed; for one struct that depends only on
itself once its parts are in order. -/
theorem declarations_sameLayout_iff (name : String) (fields : Fields) :
    (Everywhere SameLayout (.struct name fields) ↔ Everywhere Packed (.struct name fields)) ∧
      (EverywhereFields SameLayout fields → (SameLayout fields ↔ Packed fields)) :=
  ⟨everywhere_iff _, sameLayout_iff fields⟩

example : SameLayout seffStackSegmentFields ∧ SameLayout seffCoroutineFields :=
  ⟨⟨_, _, _, rfl, rfl, rfl⟩, ⟨_, _, _, rfl, rfl, rfl⟩⟩

/-- `Struct('s', Field('tag', byte), Field('value', arch.word_type))`: the
assembly finds `value` at offset 1, C at offset 8. -/
theorem not_sameLayout :
    ¬∀ (name : String) (fields : Fields), Everywhere SameLayout (.struct name fields) := by
  intro hall
  obtain ⟨⟨offsets, total, e, hinit, hplace, -⟩, -⟩ :=
    hall "s" (.cons "tag" .byte (.cons "value" .word .nil))
  cases hinit
  cases hplace

end Libseff.DeclarationLayout
