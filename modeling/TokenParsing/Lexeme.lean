import TokenParsing.Recogniser
import TokenParsing.TokenTree

/-!
# Lexemes

The words of the source language, each told by a recogniser. A text is read from left to right: at
each place stands a literal, an identifier, a delimiter or a character of punctuation, tried in this
order, or else a blank or a comment between two of them.
-/

namespace TokenParsing

namespace Lexeme

open Recogniser Text

/-- A run of characters of one class, the first of a narrower class. -/
def run? (first rest : Char → Bool) : Recogniser
  | [] => none
  | c :: cs => if first c then some (c :: cs.takeWhile rest, cs.dropWhile rest) else none

/-! ### Literals -/

/-- A string behind its opening quote. A backslash takes the next character with it. -/
def stringTail? : Recogniser
  | [] => none
  | '"' :: cs => some (['"'], cs)
  | ['\\'] => none
  | '\\' :: c :: cs => (stringTail? cs).map (extend ['\\', c])
  | c :: cs => (stringTail? cs).map (extend [c])

def string? : Recogniser
  | '"' :: cs => (stringTail? cs).map (extend ['"'])
  | _ => none

/-- A raw string behind its opening quote: it ends at the first quote with the hashes behind it. -/
def rawTail? (hashes : List Char) : Recogniser
  | [] => none
  | c :: cs =>
    if c = '"' ∧ hashes.isPrefixOf cs then some (c :: hashes, cs.drop hashes.length)
    else (rawTail? hashes cs).map (extend [c])

/-- A raw string: as many hashes behind the closing quote as in front of the opening one. -/
def rawString? : Recogniser
  | 'r' :: cs =>
    let hashes := cs.takeWhile (· == '#')
    match cs.dropWhile (· == '#') with
    | '"' :: body => (rawTail? hashes body).map (extend ('r' :: hashes ++ ['"']))
    | _ => none
  | _ => none

def isHexDigit (c : Char) : Bool :=
  c.isDigit || ('a' ≤ c && c ≤ 'f') || ('A' ≤ c && c ≤ 'F')

/-- Two hexadecimal digits behind `\x`, and the closing quote. -/
def hexEscape? : Recogniser
  | 'x' :: a :: b :: '\'' :: cs =>
    if isHexDigit a && isHexDigit b then some (['x', a, b, '\''], cs) else none
  | _ => none

/-- One to six hexadecimal digits in braces behind `\u`, and the closing quote. -/
def codePointEscape? : Recogniser
  | 'u' :: '\x7b' :: cs =>
    let digits := cs.takeWhile isHexDigit
    if 1 ≤ digits.length ∧ digits.length ≤ 6 then
      match cs.dropWhile isHexDigit with
      | '\x7d' :: '\'' :: rest => some ('u' :: '\x7b' :: digits ++ ['\x7d', '\''], rest)
      | _ => none
    else none
  | _ => none

/-- Any character of the line behind a backslash, and the closing quote. -/
def plainEscape? : Recogniser
  | c :: '\'' :: cs => if c = '\n' then none else some ([c, '\''], cs)
  | _ => none

/-- A character literal: one character or one escape between single quotes. -/
def char? : Recogniser
  | '\'' :: '\\' :: cs =>
    ((hexEscape?.orElse (codePointEscape?.orElse plainEscape?)) cs).map (extend ['\'', '\\'])
  | '\'' :: c :: '\'' :: cs =>
    if c = '\'' ∨ c = '\n' then none else some (['\'', c, '\''], cs)
  | _ => none

def isDigitOrBar (c : Char) : Bool := isDecimal c || c == '_'

/-- The digits, underscores among them, of a number written in the base that a letter stands for. -/
def radixDigit? : Char → Option (Char → Bool)
  | 'x' => some fun c => isHexDigit c || c == '_'
  | 'o' => some fun c => ('0' ≤ c && c ≤ '7') || c == '_'
  | 'b' => some fun c => c == '0' || c == '1' || c == '_'
  | _ => none

def radixNumber? : Recogniser
  | '0' :: base :: cs =>
    match radixDigit? base with
    | some digit => (run? digit digit cs).map (extend ['0', base])
    | none => none
  | _ => none

def digits? : Recogniser := run? isDecimal isDigitOrBar

def fraction? : Recogniser
  | '.' :: cs => (digits? cs).map (extend ['.'])
  | _ => none

def exponent? : Recogniser
  | e :: sign :: cs =>
    if e = 'e' ∨ e = 'E' then
      if sign = '+' ∨ sign = '-' then (digits? cs).map (extend [e, sign])
      else (digits? (sign :: cs)).map (extend [e])
    else none
  | _ => none

def decimalNumber? : Recogniser := fun cs =>
  (digits? cs).map fun m => exponent?.optionally (fraction?.optionally m)

/-- A word: it starts with no digit. -/
def word? : Recogniser := run? isWordStart isWordChar

/-- A number, and the word that may follow it as its unit. -/
def number? : Recogniser := fun cs =>
  (radixNumber?.orElse decimalNumber? cs).map word?.optionally

/-- A literal: raw string, string, character or number. -/
def literal? : Recogniser :=
  rawString?.byteMarked.orElse <| string?.byteMarked.orElse <| char?.byteMarked.orElse number?

/-! ### Identifiers, punctuation and delimiters -/

def rawIdent? : Recogniser
  | 'r' :: '#' :: cs => (word? cs).map (extend ['r', '#'])
  | _ => none

/-- An identifier: a word, with or without a mark in front. -/
def ident? : Recogniser := rawIdent?.orElse word?

def punctChars : List Char := "=<>!~+-*/%^&|@.,;:#$?'".toList

def isPunct (c : Char) : Bool := punctChars.contains c

inductive Kind where
  | literal
  | ident
  | punct (c : Char)
  | opener (d : Delimiter)
  | closer (d : Delimiter)
  deriving DecidableEq, Repr

/-- What a character is by itself. -/
def single? (c : Char) : Option Kind :=
  match Delimiter.ofOpener? c, Delimiter.ofCloser? c with
  | some d, _ => some (.opener d)
  | none, some d => some (.closer d)
  | none, none => if isPunct c then some (.punct c) else none

/-- The lexeme at the start of a text. A literal goes before an identifier, and both go before
a single character. -/
def next? (cs : List Char) : Option (Kind × List Char × List Char) :=
  match literal? cs, ident? cs, cs with
  | some m, _, _ => some (.literal, m)
  | none, some m, _ => some (.ident, m)
  | none, none, [] => none
  | none, none, c :: rest => (single? c).map fun kind => (kind, [c], rest)

/-! ### Gaps -/

/-- A block comment behind its opening mark: it ends at the first closing mark. -/
def blockCommentTail? : Recogniser
  | [] => none
  | '*' :: '/' :: cs => some (['*', '/'], cs)
  | c :: cs => (blockCommentTail? cs).map (extend [c])

/-- The rest of a line comment: up to the end of the line, where a backslash at the end of a line
takes the next line with it. -/
def lineCommentTail : List Char → List Char × List Char
  | [] => ([], [])
  | '\\' :: '\n' :: cs => extend ['\\', '\n'] (lineCommentTail cs)
  | '\n' :: cs => ([], '\n' :: cs)
  | c :: cs => extend [c] (lineCommentTail cs)

/-- A blank that may stand between lexemes. -/
def isGapBlank (c : Char) : Bool := c == ' ' || c == '\t' || c == '\n' || c == '\r'

/-- A blank or a comment. A block comment that does not end is none. -/
def gapPiece? : Recogniser
  | '/' :: '*' :: cs => (blockCommentTail? cs).map (extend ['/', '*'])
  | '/' :: '/' :: cs => some (extend ['/', '/'] (lineCommentTail cs))
  | c :: cs => if isGapBlank c then some ([c], cs) else none
  | [] => none

end Lexeme

end TokenParsing
