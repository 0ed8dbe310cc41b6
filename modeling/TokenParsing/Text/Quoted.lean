import TokenParsing.Text.CharClass

/-!
# Quoted text

A text shown between quotes so that it can be told apart from what surrounds it. The quotes are
single unless the text holds a single quote and no double one.
-/

namespace TokenParsing.Text

/-- A number in lower-case hexadecimal digits, zeros in front up to the given width. -/
def hexPadded (width n : Nat) : String :=
  let digits := Nat.toDigits 16 n
  String.ofList (List.replicate (width - digits.length) '0' ++ digits)

namespace Quoted

/-- The quote that a text is put between. -/
def mark (text : List Char) : Char :=
  if text.contains '\'' && !text.contains '"' then '"' else '\''

/-- How a character stands between two `quote`s: by itself if it is printable, else by its short
name or its code point. -/
def encodeChar (quote c : Char) : String :=
  if c = quote ∨ c = '\\' then "\\" ++ c.toString
  else if c = '\n' then "\\n"
  else if c = '\r' then "\\r"
  else if c = '\t' then "\\t"
  else if isPrintable c then c.toString
  else if c.toNat < 0x100 then "\\x" ++ hexPadded 2 c.toNat
  else if c.toNat < 0x10000 then "\\u" ++ hexPadded 4 c.toNat
  else "\\U" ++ hexPadded 8 c.toNat

end Quoted

def quoted (text : String) : String :=
  let quote := Quoted.mark text.toList
  quote.toString ++ String.join (text.toList.map (Quoted.encodeChar quote)) ++ quote.toString

end TokenParsing.Text
