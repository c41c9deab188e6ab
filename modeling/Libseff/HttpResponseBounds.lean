import Libseff.HttpResponse
import Mathlib.Data.Nat.Digits.Defs

namespace Libseff.HttpResponseBounds

open FixedWidth HttpResponse

structure Wrote (size : ℕ) (w : List Char) (buffer : Buffer) : Prop where
  inside : ∀ i, size ≤ i → buffer i = none
  chars : w.length < size → ∀ i, i < w.length → buffer i = w[i]?

def putAll (size : ℕ) (l : List (List Char)) (o : Output) : Option Output :=
  l.foldlM (fun o s => put size s o) o

theorem storeAt_of_lt {offset i : ℕ} {s : List Char} {buffer : Buffer} (h : i < offset) :
    storeAt offset s buffer i = buffer i := by
  rw [storeAt, if_neg (not_le.mpr h)]

theorem storeAt_of_ge {offset i : ℕ} {s : List Char} {buffer : Buffer}
    (h : offset + s.length ≤ i) : storeAt offset s buffer i = buffer i := by
  rw [storeAt, if_pos (by omega), List.getElem?_eq_none (by omega), Option.none_or]

theorem storeAt_of_mem {offset i : ℕ} {s : List Char} {buffer : Buffer} (h : i < s.length) :
    storeAt offset s buffer (offset + i) = s[i]? := by
  rw [storeAt, if_pos (Nat.le_add_right offset i), Nat.add_sub_cancel_left,
    List.getElem?_eq_getElem h, Option.some_or]

theorem put_eq {size : ℕ} {s : List Char} {o : Output} (h : s.length ≤ INT_MAX) :
    put size s o = some ⟨if sizeT (size - o.response_length) = 0 then o.buffer
      else storeAt o.response_length (s.take (sizeT (size - o.response_length) - 1) ++ [NUL])
        o.buffer, sizeT (o.response_length + s.length)⟩ := by
  rw [put, snprintf, if_pos h, Option.map_some]

theorem put_wrote {size : ℕ} (hsize : size < 2 ^ 64) {w s : List Char} {buffer : Buffer}
    (h : Wrote size w buffer) (hw : w.length ≤ size) (hs : s.length ≤ INT_MAX)
    (hlen : (w ++ s).length < 2 ^ 64) :
    ∃ buffer', put size s ⟨buffer, w.length⟩ = some ⟨buffer', (w ++ s).length⟩ ∧
      Wrote size (w ++ s) buffer' := by
  have hn : sizeT ((size : ℤ) - w.length) = size - w.length := by
    rw [sizeT_of_lt (by omega) (by omega)]
    omega
  have hsum : sizeT ((w.length : ℤ) + s.length) = (w ++ s).length := by
    rw [List.length_append] at hlen ⊢
    rw [sizeT_of_lt (by omega) (by omega)]
    omega
  refine ⟨_, by rw [put_eq hs]; simp only [hn, hsum]; rfl, ?_⟩
  by_cases hfull : size - w.length = 0
  · rw [if_pos hfull]
    refine ⟨h.inside, fun hlt => ?_⟩
    rw [List.length_append] at hlt
    omega
  · rw [if_neg hfull]
    refine ⟨fun i hi => ?_, fun hlt i hi => ?_⟩
    · rw [storeAt_of_ge (by simp only [List.length_append, List.length_take,
        List.length_singleton]; omega)]
      exact h.inside i hi
    · rw [List.length_append] at hlt hi
      by_cases hiw : i < w.length
      · rw [storeAt_of_lt hiw, h.chars (by omega) i hiw, List.getElem?_append_left hiw]
      · obtain ⟨j, rfl⟩ := Nat.exists_eq_add_of_le (not_lt.mp hiw)
        rw [storeAt_of_mem (by simp only [List.length_append, List.length_take,
            List.length_singleton]; omega), List.take_of_length_le (by omega),
          List.getElem?_append_left (by omega), List.getElem?_append_right (by omega),
          Nat.add_sub_cancel_left]

/-- Behind the end of the buffer the rest of its size is taken for a huge one. -/
theorem put_escapes {size : ℕ} {s : List Char} {o o' : Output} (hlt : size < o.response_length)
    (hlen : o.response_length < 2 ^ 64) (h : put size s o = some o') :
    o'.buffer o.response_length ≠ none := by
  have hs : s.length ≤ INT_MAX := by
    by_contra hs
    rw [put, snprintf, if_neg hs] at h
    cases h
  rw [put_eq hs, Option.some.injEq] at h
  subst h
  have hn : sizeT ((size : ℤ) - o.response_length) ≠ 0 := by
    simp only [sizeT]
    omega
  have hpos : 0 < (s.take (sizeT ((size : ℤ) - o.response_length) - 1) ++ [NUL]).length := by
    simp
  have hstore : storeAt o.response_length _ o.buffer (o.response_length + 0) = _ :=
    storeAt_of_mem hpos
  rw [Nat.add_zero, List.getElem?_eq_getElem hpos] at hstore
  simp only [if_neg hn]
  rw [hstore]
  simp

theorem putAll_append (size : ℕ) (l l' : List (List Char)) (o : Output) :
    putAll size (l ++ l') o = (putAll size l o).bind (putAll size l') := List.foldlM_append

theorem flatten_length_le {l : List (List Char)} (h : ∀ s ∈ l, s.length ≤ INT_MAX) :
    l.flatten.length ≤ l.length * INT_MAX := by
  induction l with
  | nil => simp
  | cons s l ih =>
    have hs := h s List.mem_cons_self
    have hl := ih fun t ht => h t (List.mem_cons_of_mem s ht)
    rw [List.flatten_cons, List.length_append, List.length_cons, Nat.succ_mul]
    omega

theorem putAll_length {size : ℕ} {l : List (List Char)} (h : ∀ s ∈ l, s.length ≤ INT_MAX)
    {o : Output} (hlen : o.response_length + l.flatten.length < 2 ^ 64) :
    ∃ o', putAll size l o = some o' ∧
      o'.response_length = o.response_length + l.flatten.length := by
  induction l generalizing o with
  | nil => exact ⟨o, rfl, rfl⟩
  | cons s l ih =>
    rw [List.flatten_cons, List.length_append] at hlen ⊢
    have hsum : sizeT ((o.response_length : ℤ) + s.length) = o.response_length + s.length := by
      rw [sizeT_of_lt (by omega) (by omega)]
      omega
    have hput : put size s o = _ := put_eq (h s List.mem_cons_self)
    rw [hsum] at hput
    obtain ⟨o', ho', hlen'⟩ := ih (fun t ht => h t (List.mem_cons_of_mem s ht))
      (o := ⟨_, o.response_length + s.length⟩) (by simp only; omega)
    refine ⟨o', ?_, by rw [hlen']; simp only; omega⟩
    rw [putAll, List.foldlM_cons, hput]
    exact ho'

theorem putAll_defined {size : ℕ} {l : List (List Char)} {o o' : Output}
    (h : putAll size l o = some o') : ∀ s ∈ l, s.length ≤ INT_MAX := by
  induction l generalizing o with
  | nil => simp
  | cons s l ih =>
    rw [putAll, List.foldlM_cons] at h
    obtain ⟨o1, hput, hrest⟩ := Option.bind_eq_some_iff.mp h
    intro t ht
    obtain rfl | ht := List.mem_cons.mp ht
    · by_contra hs
      rw [put, snprintf, if_neg hs] at hput
      cases hput
    · exact ih hrest t ht

theorem putAll_wrote {size : ℕ} (hsize : size < 2 ^ 64) {l : List (List Char)} {w : List Char}
    {buffer : Buffer} (h : Wrote size w buffer) (hs : ∀ s ∈ l, s.length ≤ INT_MAX)
    (hfit : l ≠ [] → (w ++ l.dropLast.flatten).length ≤ size)
    (hlen : (w ++ l.flatten).length < 2 ^ 64) :
    ∃ buffer', putAll size l ⟨buffer, w.length⟩ = some ⟨buffer', (w ++ l.flatten).length⟩ ∧
      Wrote size (w ++ l.flatten) buffer' := by
  induction l generalizing w buffer with
  | nil =>
    rw [List.flatten_nil, List.append_nil]
    exact ⟨buffer, rfl, h⟩
  | cons s l ih =>
    have hw : w.length ≤ size := by
      have := hfit (List.cons_ne_nil s l)
      rw [List.length_append] at this
      omega
    rw [List.flatten_cons, ← List.append_assoc] at hlen ⊢
    obtain ⟨buffer1, hput, hwrote⟩ := put_wrote hsize h hw (hs s List.mem_cons_self)
      (by simp only [List.length_append] at hlen ⊢; omega)
    obtain ⟨buffer', hrest, hwrote'⟩ := ih hwrote (fun t ht => hs t (List.mem_cons_of_mem s ht))
      (fun hl => by
        have := hfit (List.cons_ne_nil s l)
        rwa [List.dropLast_cons_of_ne_nil hl, List.flatten_cons, ← List.append_assoc] at this)
      hlen
    refine ⟨buffer', ?_, hwrote'⟩
    rw [putAll, List.foldlM_cons, hput]
    exact hrest

theorem formatInt_length {width k : ℕ} {x : ℤ} (hk : 0 < k) (hw : width ≤ k)
    (hx : x.natAbs < 10 ^ k) : (formatInt width x).length ≤ k + 1 := by
  have hdigits : (Nat.toDigits 10 x.natAbs).length ≤ k :=
    (Nat.length_toDigits_le_iff (by omega) hk).mpr hx
  simp only [formatInt]
  split
  · simp only [List.length_cons, List.length_append, List.length_replicate]
    omega
  · simp only [List.length_append, List.length_replicate]
    omega

theorem dateLine_length (tm : Tm) : (dateLine tm).length ≤ 100 := by
  have hday : ∀ i : Fin 7, (daysOfWeek.get i).toList.length = 3 := by decide
  have hmon : ∀ i : Fin 12, (months.get i).toList.length = 3 := by decide
  have h2 : ∀ n : ℕ, n < 100 → (formatInt 2 n).length ≤ 3 := fun n hn =>
    formatInt_length (by omega) le_rfl (by simpa using hn)
  have hyear : (formatInt 4 (tm.tm_year + 1900)).length ≤ 11 :=
    formatInt_length (by omega) (by omega) (lt_of_le_of_lt tm.year_int (by norm_num))
  have hmday := h2 tm.tm_mday.val (by omega)
  have hhour := h2 tm.tm_hour.val (by omega)
  have hmin := h2 tm.tm_min.val (by omega)
  have hsec := h2 tm.tm_sec.val (by omega)
  have hdate : "Date: ".toList.length = 6 := by decide
  have hcomma : ", ".toList.length = 2 := by decide
  have hspace : " ".toList.length = 1 := by decide
  have hcolon : ":".toList.length = 1 := by decide
  have hgmt : " GMT\r\n".toList.length = 6 := by decide
  unfold dateLine
  simp only [List.length_append, hday, hmon, hdate, hcomma, hspace, hcolon, hgmt]
  omega

theorem contentLengthLine_length {content_length : ℤ} (h0 : 0 ≤ content_length)
    (h : content_length ≤ INT_MAX) : (contentLengthLine content_length).length ≤ 100 := by
  have habs : content_length.natAbs < 10 ^ 10 := by
    have hmax : INT_MAX < 10 ^ 10 := by norm_num [INT_MAX]
    omega
  have hlen : (formatInt 0 content_length).length ≤ 11 :=
    formatInt_length (by omega) (by omega) habs
  have hname : "Content-Length: ".toList.length = 16 := by decide
  have hcrlf : CRLF.length = 2 := by decide
  unfold contentLengthLine
  simp only [List.length_append, hname, hcrlf]
  omega

theorem buildResponse_eq (buff_size : ℕ) (header content_type body : List Char)
    (content_length : ℤ) (tm : Tm) :
    buildResponse buff_size header content_type body content_length tm =
      (putAll buff_size (pieces header content_type body content_length tm)
        ⟨fun _ => none, 0⟩).map fun o => (o.buffer,
          if o.response_length ≥ buff_size then -1 else intOf o.response_length) := by
  have hlast : ∀ o : Output, (if o.response_length < 0 ∨ o.response_length ≥ buff_size then
      some (o.buffer, (-1 : ℤ)) else some (o.buffer, intOf o.response_length)) =
      some (o.buffer, if o.response_length ≥ buff_size then -1
        else intOf o.response_length) := by
    intro o
    split <;> simp_all
  unfold buildResponse pieces
  simp only [hlast]
  by_cases hbody : content_length > 0
  · simp only [if_pos hbody, putAll, List.cons_append, List.nil_append, List.foldlM_cons,
      List.foldlM_nil, Option.map_eq_bind, Option.bind_eq_bind, Option.bind_assoc,
      Option.pure_def, Option.bind_some, Function.comp_def]
  · simp only [if_neg hbody, putAll, List.append_nil, List.foldlM_cons,
      List.foldlM_nil, Option.map_eq_bind, Option.bind_eq_bind, Option.bind_assoc,
      Option.pure_def, Option.bind_some, Function.comp_def]

theorem mem_pieces {header content_type body : List Char} {content_length : ℤ} {tm : Tm}
    (h0 : 0 ≤ content_length) (hint : content_length ≤ INT_MAX)
    (hbody : content_length = 0 ∨ content_length = body.length) :
    (∀ s ∈ pieces header content_type body content_length tm, s.length ≤ INT_MAX) ↔
      header.length ≤ INT_MAX ∧ (contentTypeLine content_type).length ≤ INT_MAX := by
  have hmax : 100 ≤ INT_MAX := by norm_num [INT_MAX]
  constructor
  · intro h
    exact ⟨h header (by simp [pieces]), h _ (by simp [pieces])⟩
  · rintro ⟨hheader, htype⟩ s hs
    obtain hs | hs := List.mem_append.mp hs
    · simp only [List.mem_cons, List.not_mem_nil, or_false] at hs
      obtain rfl | rfl | rfl | rfl | rfl | rfl := hs
      · exact hheader
      · exact le_trans (by decide) hmax
      · exact (dateLine_length tm).trans hmax
      · exact (contentLengthLine_length h0 hint).trans hmax
      · exact htype
      · exact le_trans (by decide) hmax
    · split at hs
      · rename_i hpos
        obtain rfl := List.mem_singleton.mp hs
        omega
      · cases hs

theorem intOf_of_le {n : ℕ} (h : n ≤ INT_MAX) : intOf n = n := by
  rw [INT_MAX] at h
  apply Int.bmod_eq_of_le_mul_two
  · push_cast
    omega
  · push_cast
    omega

theorem intOf_le (n : ℕ) : intOf n ≤ INT_MAX := by
  unfold intOf INT_MAX
  rw [Int.bmod_def]
  push_cast
  split <;> omega

theorem pieces_ne_nil (header content_type body : List Char) (content_length : ℤ) (tm : Tm) :
    pieces header content_type body content_length tm ≠ [] := by
  simp [pieces]

theorem pieces_flatten_lt {header content_type body : List Char} {content_length : ℤ} {tm : Tm}
    (h : ∀ s ∈ pieces header content_type body content_length tm, s.length ≤ INT_MAX) :
    (pieces header content_type body content_length tm).flatten.length < 2 ^ 64 := by
  have hlen : (pieces header content_type body content_length tm).length ≤ 7 := by
    rw [pieces, List.length_append]
    split <;> simp
  have hle := (flatten_length_le h).trans (Nat.mul_le_mul_right INT_MAX hlen)
  exact lt_of_le_of_lt hle (by norm_num [INT_MAX])

theorem buildResponse_escapes {buff_size : ℕ} {header content_type body : List Char}
    {content_length : ℤ} {tm : Tm} {buffer : Buffer} {r : ℤ}
    (hlt : buff_size <
      (pieces header content_type body content_length tm).dropLast.flatten.length)
    (h : buildResponse buff_size header content_type body content_length tm = some (buffer, r)) :
    ∃ i, buff_size ≤ i ∧ buffer i ≠ none := by
  rw [buildResponse_eq] at h
  obtain ⟨o, ho, he⟩ := Option.map_eq_some_iff.mp h
  have hdefined := putAll_defined ho
  have hlen := pieces_flatten_lt hdefined
  generalize hl : pieces header content_type body content_length tm = l at *
  have hne : l ≠ [] := hl ▸ pieces_ne_nil header content_type body content_length tm
  obtain ⟨front, last, rfl⟩ : ∃ front last, l = front ++ [last] :=
    ⟨l.dropLast, l.getLast hne, (List.dropLast_concat_getLast hne).symm⟩
  rw [List.dropLast_concat] at hlt
  rw [List.flatten_append, List.length_append] at hlen
  obtain ⟨o1, ho1, hlen1⟩ : ∃ o1, putAll buff_size front ⟨fun _ => none, 0⟩ = some o1 ∧
      o1.response_length = 0 + front.flatten.length :=
    putAll_length (fun s hs => hdefined s (List.mem_append_left _ hs)) (by simp only; omega)
  rw [Nat.zero_add] at hlen1
  rw [putAll_append, ho1, Option.bind_some] at ho
  obtain ⟨o2, hput, ho2⟩ := Option.bind_eq_some_iff.mp ho
  cases ho2
  cases he
  refine ⟨o1.response_length, ?_, put_escapes ?_ ?_ hput⟩ <;> omega

/-- The response stays inside the buffer and the result is right if and only if
the texts are no longer than an `int`, and everything but the last piece fits. -/
theorem buildResponse_staysInside_iff {buff_size : ℕ} (hsize : buff_size < 2 ^ 64)
    {header content_type body : List Char} {content_length : ℤ} (tm : Tm)
    (h0 : 0 ≤ content_length) (hint : content_length ≤ INT_MAX)
    (hbody : content_length = 0 ∨ content_length = body.length) :
    StaysInside buff_size header content_type body content_length tm ↔
      header.length ≤ INT_MAX ∧ (contentTypeLine content_type).length ≤ INT_MAX ∧
      (pieces header content_type body content_length tm).dropLast.flatten.length ≤ buff_size ∧
      ((pieces header content_type body content_length tm).flatten.length < buff_size →
        (pieces header content_type body content_length tm).flatten.length ≤ INT_MAX) := by
  have hmem : (∀ s ∈ pieces header content_type body content_length tm, s.length ≤ INT_MAX) ↔
      header.length ≤ INT_MAX ∧ (contentTypeLine content_type).length ≤ INT_MAX :=
    mem_pieces h0 hint hbody
  constructor
  · rintro ⟨buffer, r, hr, hinside, -, hfits⟩
    have hout := fun hlt => buildResponse_escapes hlt hr
    rw [buildResponse_eq] at hr
    obtain ⟨o, ho, he⟩ := Option.map_eq_some_iff.mp hr
    obtain ⟨hheader, htype⟩ := hmem.mp (putAll_defined ho)
    refine ⟨hheader, htype, ?_, fun hlt => ?_⟩
    · by_contra hlt
      obtain ⟨i, hi, hne⟩ := hout (not_le.mp hlt)
      exact hne (hinside i hi)
    · obtain ⟨hlen, -⟩ := hfits hlt
      obtain ⟨-, rfl⟩ := Prod.mk.inj he
      have hle := intOf_le o.response_length
      split at hlen <;> omega
  · rintro ⟨hheader, htype, hfit, hshort⟩
    have hpieces := hmem.mpr ⟨hheader, htype⟩
    have hempty : Wrote buff_size [] fun _ => none :=
      ⟨fun _ _ => rfl, fun _ i hi => absurd hi (Nat.not_lt_zero i)⟩
    obtain ⟨buffer, hput, hwrote⟩ := putAll_wrote hsize hempty hpieces (fun _ => hfit)
      (pieces_flatten_lt hpieces)
    rw [List.nil_append, List.length_nil] at hput
    rw [List.nil_append] at hwrote
    refine ⟨buffer, _, by rw [buildResponse_eq, hput]; rfl, hwrote.inside, ?_, fun hlt => ?_⟩
    · by_cases hlt : (pieces header content_type body content_length tm).flatten.length < buff_size
      · simp only [if_neg (not_le.mpr hlt), intOf_of_le (hshort hlt)]
        omega
      · simp only [if_pos (not_lt.mp hlt), true_iff]
        omega
    · have hlt := Nat.lt_of_succ_le hlt
      simp only [if_neg (not_le.mpr hlt), intOf_of_le (hshort hlt)]
      exact ⟨trivial, hwrote.chars hlt⟩

def epoch : Tm := ⟨0, 0, 0, 1, 0, 70, 4, by decide⟩

theorem staysInside_hello :
    StaysInside 1024 "HTTP/1.1 200 OK".toList "text/plain".toList "Hello".toList 5 epoch :=
  (buildResponse_staysInside_iff (by norm_num) epoch (by norm_num) (by decide)
    (.inr (by decide))).mpr ⟨by decide, by decide, by decide, fun _ => by decide⟩

/-- A response of 101 characters, 99 of them before its last line break, and a
buffer of 64. -/
theorem not_staysInside :
    ¬ StaysInside 64 "HTTP/1.1 200 OK".toList "text/plain".toList [] 0 epoch := by
  rintro ⟨buffer, r, hr, hinside, -⟩
  obtain ⟨i, hi, hne⟩ := buildResponse_escapes (by decide) hr
  exact hne (hinside i hi)

end Libseff.HttpResponseBounds
