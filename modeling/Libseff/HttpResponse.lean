import Libseff.FixedWidth

namespace Libseff.HttpResponse

open FixedWidth

def INT_MAX : ℕ := 2 ^ 31 - 1

abbrev Buffer := ℕ → Option Char

def NUL : Char := '\x00'

def storeAt (offset : ℕ) (s : List Char) (buffer : Buffer) : Buffer := fun i =>
  if offset ≤ i then (s[i - offset]?).or (buffer i) else buffer i

/-- `snprintf` of the formatted text `s` into a buffer of `n` characters that
starts at `offset`: the length it would have needed is one of C's `int`. -/
def snprintf (offset n : ℕ) (s : List Char) (buffer : Buffer) : Option (Buffer × ℕ) :=
  if s.length ≤ INT_MAX then
    some (if n = 0 then buffer else storeAt offset (s.take (n - 1) ++ [NUL]) buffer, s.length)
  else none

def formatInt (width : ℕ) (x : ℤ) : List Char :=
  let digits := Nat.toDigits 10 x.natAbs
  if x < 0 then '-' :: (List.replicate (width - 1 - digits.length) '0' ++ digits)
  else List.replicate (width - digits.length) '0' ++ digits

structure Tm where
  tm_sec : Fin 61
  tm_min : Fin 60
  tm_hour : Fin 24
  tm_mday : Fin 32
  tm_mon : Fin 12
  tm_year : ℤ
  tm_wday : Fin 7
  year_int : (tm_year + 1900).natAbs ≤ 2 ^ 31

def daysOfWeek : List String := ["Sun", "Mon", "Tue", "Wed", "Thu", "Fri", "Sat"]

def months : List String :=
  ["Jan", "Feb", "Mar", "Apr", "May", "Jun", "Jul", "Aug", "Sep", "Oct", "Nov", "Dec"]

def CRLF : List Char := "\r\n".toList

def dateLine (tm : Tm) : List Char :=
  "Date: ".toList ++ (daysOfWeek.get tm.tm_wday).toList ++ ", ".toList ++
    formatInt 2 tm.tm_mday.val ++ " ".toList ++ (months.get tm.tm_mon).toList ++ " ".toList ++
    formatInt 4 (tm.tm_year + 1900) ++ " ".toList ++ formatInt 2 tm.tm_hour.val ++ ":".toList ++
    formatInt 2 tm.tm_min.val ++ ":".toList ++ formatInt 2 tm.tm_sec.val ++ " GMT\r\n".toList

def contentLengthLine (content_length : ℤ) : List Char :=
  "Content-Length: ".toList ++ formatInt 0 content_length ++ CRLF

def contentTypeLine (content_type : List Char) : List Char :=
  "Content-Type: ".toList ++ content_type ++ CRLF

structure Output where
  buffer : Buffer
  response_length : ℕ

/-- `response_length += snprintf(buffer + response_length, buff_size -
response_length, ..)` -/
def put (buff_size : ℕ) (s : List Char) (o : Output) : Option Output :=
  (snprintf o.response_length (sizeT (buff_size - o.response_length)) s o.buffer).map fun p =>
    ⟨p.1, sizeT (o.response_length + p.2)⟩

def intOf (n : ℕ) : ℤ := Int.bmod n (2 ^ 32)

/-- `response_length` is not signed, so the first test never holds. -/
def buildResponse (buff_size : ℕ) (header content_type body : List Char) (content_length : ℤ)
    (tm : Tm) : Option (Buffer × ℤ) := do
  let o ← put buff_size header ⟨fun _ => none, 0⟩
  let o ← put buff_size CRLF o
  let o ← put buff_size (dateLine tm) o
  let o ← put buff_size (contentLengthLine content_length) o
  let o ← put buff_size (contentTypeLine content_type) o
  let o ← put buff_size CRLF o
  let o ← if content_length > 0 then put buff_size body o else some o
  if o.response_length < 0 ∨ o.response_length ≥ buff_size then some (o.buffer, -1)
  else some (o.buffer, intOf o.response_length)

def pieces (header content_type body : List Char) (content_length : ℤ) (tm : Tm) :
    List (List Char) :=
  [header, CRLF, dateLine tm, contentLengthLine content_length, contentTypeLine content_type,
    CRLF] ++ if content_length > 0 then [body] else []

/-- A response is stored as a whole or refused, and nothing is stored outside of
the buffer. -/
def StaysInside (buff_size : ℕ) (header content_type body : List Char) (content_length : ℤ)
    (tm : Tm) : Prop :=
  let response := (pieces header content_type body content_length tm).flatten
  ∃ buffer r, buildResponse buff_size header content_type body content_length tm =
      some (buffer, r) ∧
    (∀ i, buff_size ≤ i → buffer i = none) ∧ (r = -1 ↔ buff_size < response.length + 1) ∧
    (response.length + 1 ≤ buff_size →
      r = response.length ∧ ∀ i, i < response.length → buffer i = response[i]?)

end Libseff.HttpResponse
