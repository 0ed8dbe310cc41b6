import TokenParsing.Text.CharTable

/-!
# Character classes

The classes that decide where a word, a number or a gap ends and what a quoted text shows as it is.
ASCII is decided by comparison, everything else by the tables.
-/

namespace TokenParsing.Text

/-- A letter or a character with a numeric value, of any script. -/
def isAlphanumeric (c : Char) : Bool :=
  if c.toNat < 0x80 then c.isAlphanum else alphanumericTable.covers c

/-- A decimal digit of any script. -/
def isDecimal (c : Char) : Bool :=
  if c.toNat < 0x80 then c.isDigit else decimalTable.covers c

/-- White space, the four ASCII information separators included. -/
def isBlank (c : Char) : Bool :=
  if c.toNat < 0x80 then c == ' ' || (9 ≤ c.toNat && c.toNat ≤ 13) || (28 ≤ c.toNat && c.toNat ≤ 31)
  else blankTable.covers c

/-- A character that a quoted text shows as it is: the space, and all that is neither a control
nor a separator. -/
def isPrintable (c : Char) : Bool :=
  if c.toNat < 0x80 then 32 ≤ c.toNat && c.toNat < 127 else !unprintableTable.covers c

/-- A character that a word may hold. -/
def isWordChar (c : Char) : Bool :=
  c == '_' || isAlphanumeric c

/-- A character that a word may start with: a digit starts a number. -/
def isWordStart (c : Char) : Bool :=
  isWordChar c && !isDecimal c

/-- The value of a decimal digit of any script. -/
def decimalValue? (c : Char) : Option Nat :=
  if c.toNat < 0x80 then if c.isDigit then some (c.toNat - '0'.toNat) else none
  else (decimalTable.range? c).map fun r => (c.toNat - r.1) % 10

theorem isWordStart_iff {c : Char} :
    isWordStart c = true ↔ isWordChar c = true ∧ isDecimal c = false := by
  rw [isWordStart, Bool.and_eq_true, Bool.not_eq_true']

end TokenParsing.Text
