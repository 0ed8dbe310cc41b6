/-!
# Reading bytes as text

Strict UTF-8: a machine reads one byte at a time and remembers the character it is in. It stops at
the first byte that no character goes on with, and the fault names the bytes of the character that
was begun there. Line ends of every kind come out as line feeds.
-/

namespace TokenParsing.Text

namespace Utf8

/-- Why bytes are no text. -/
inductive Cause where
  /-- The byte starts no character. -/
  | invalidStart
  /-- The next byte does not go on with the character. -/
  | invalidContinuation
  /-- The bytes end within a character. -/
  | truncated
  deriving DecidableEq, Repr

/-- The bytes that are no character: where they start, how many they are, and the first of them. -/
structure Fault where
  cause : Cause
  start : Nat
  count : Nat
  lead : UInt8
  deriving DecidableEq, Repr

/-- A character that is not complete: where it starts, its first byte, how many bytes are read and
how many are owed, the bounds of the next byte, and the value so far. -/
structure Pending where
  start : Nat
  lead : UInt8
  seen : Nat
  owed : Nat
  low : Nat
  high : Nat
  value : Nat

/-- The character that a first byte begins, if it begins one of more than one byte. The bounds of
the second byte rule out overlong forms, surrogates and values that are too large. -/
def Pending.begin? (start : Nat) (lead : UInt8) : Option Pending :=
  let b := lead.toNat
  if 0xC2 ≤ b ∧ b ≤ 0xDF then some ⟨start, lead, 1, 1, 0x80, 0xBF, b - 0xC0⟩
  else if 0xE0 ≤ b ∧ b ≤ 0xEF then
    some ⟨start, lead, 1, 2, if b = 0xE0 then 0xA0 else 0x80, if b = 0xED then 0x9F else 0xBF,
      b - 0xE0⟩
  else if 0xF0 ≤ b ∧ b ≤ 0xF4 then
    some ⟨start, lead, 1, 3, if b = 0xF0 then 0x90 else 0x80, if b = 0xF4 then 0x8F else 0xBF,
      b - 0xF0⟩
  else none

/-- Reads on at offset `pos`, within the character `pending` or between characters. `done` holds the
characters read, last first. -/
def decodeFrom (done : List Char) (pos : Nat) :
    Option Pending → List UInt8 → Except Fault (List Char)
  | none, [] => .ok done.reverse
  | some p, [] => .error ⟨.truncated, p.start, p.seen, p.lead⟩
  | none, b :: rest =>
    if b < 0x80 then decodeFrom (Char.ofNat b.toNat :: done) (pos + 1) none rest
    else match Pending.begin? pos b with
      | some p => decodeFrom done (pos + 1) (some p) rest
      | none => .error ⟨.invalidStart, pos, 1, b⟩
  | some p, b :: rest =>
    if p.low ≤ b.toNat ∧ b.toNat ≤ p.high then
      let value := 0x40 * p.value + (b.toNat - 0x80)
      if p.owed ≤ 1 then decodeFrom (Char.ofNat value :: done) (pos + 1) none rest
      else
        decodeFrom done (pos + 1)
          (some ⟨p.start, p.lead, p.seen + 1, p.owed - 1, 0x80, 0xBF, value⟩) rest
    else .error ⟨.invalidContinuation, p.start, p.seen, p.lead⟩

end Utf8

/-- The characters that the bytes encode. -/
def decodeUtf8 (bytes : List UInt8) : Except Utf8.Fault (List Char) :=
  Utf8.decodeFrom [] 0 none bytes

/-- Every line end (`\r\n`, `\r` or `\n`) as one line feed. -/
def unifyLineEnds : List Char → List Char
  | [] => []
  | '\r' :: '\n' :: rest => '\n' :: unifyLineEnds rest
  | c :: rest => (if c = '\r' then '\n' else c) :: unifyLineEnds rest

end TokenParsing.Text
