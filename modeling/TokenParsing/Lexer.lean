import TokenParsing.Lexeme.Splits

/-!
# From text to trees

A text is scanned into placed lexemes up to the first place where none starts. The lexemes are then
put together from left to right: an opener sets the trees read so far aside, and the closer of the
same kind makes a group of all that came since. A group that does not end well is blamed on the
outermost opener that is still open, because nothing in front of that opener is in doubt.
-/

namespace TokenParsing

/-- A place in a text: the number of characters before it, its line, and its column. -/
structure Place where
  offset : Nat
  line : Nat
  col : Nat
  deriving DecidableEq, Repr

namespace Place

def start : Place := ⟨0, 1, 1⟩

def step (p : Place) (c : Char) : Place :=
  if c = '\n' then ⟨p.offset + 1, p.line + 1, 1⟩ else ⟨p.offset + 1, p.line, p.col + 1⟩

def advance (p : Place) (cs : List Char) : Place := cs.foldl step p

/-- The span of the characters that start at a place. -/
def span (p : Place) (file : String) (cs : List Char) : Span :=
  let e := p.advance cs
  ⟨file, p.line, p.col, e.line, e.col, String.ofList cs⟩

end Place

/-- A lexeme at its place. `source` is the text from the place on, so it starts with `text`. -/
structure Lexeme where
  kind : Lexeme.Kind
  text : List Char
  source : List Char
  place : Place

/-- The lexemes of a text, and where and in front of what the scan ended. -/
structure Scan where
  lexemes : List Lexeme
  place : Place
  rest : List Char

/-- Scans a text that starts at the given place. -/
def Scan.ofText (place : Place) (cs : List Char) : Scan :=
  let gap := Lexeme.gap cs
  let place := place.advance gap.1
  match _h : Lexeme.next? gap.2 with
  | none => ⟨[], place, gap.2⟩
  | some (kind, text, rest) =>
    let scan := Scan.ofText (place.advance text) rest
    { scan with lexemes := ⟨kind, text, gap.2, place⟩ :: scan.lexemes }
termination_by cs.length
decreasing_by
  exact Nat.lt_of_lt_of_le (Lexeme.length_next?_lt _h) (Lexeme.length_gap_le cs)

/-! ### What can go wrong -/

/-- Why a text has no trees. -/
inductive LexError.Cause where
  | tooDeep
  /-- No tree starts here; `none` is the end of the text. -/
  | stopped (char : Option Char)
  deriving DecidableEq, Repr

structure LexError where
  cause : LexError.Cause
  span : Span
  deriving DecidableEq, Repr

/-- A closing delimiter without its opener. The end of the text counts as one without a sign. -/
def LexError.isUnmatched : Option Char → Bool
  | none => true
  | some c => (Delimiter.ofCloser? c).isSome

def LexError.message (e : LexError) : String :=
  match e.cause with
  | .tooDeep => "delimiters nested too deeply"
  | .stopped char =>
    let sign := "`" ++ (char.map Char.toString).getD "" ++ "`"
    if LexError.isUnmatched char then "unmatched close delimiter " ++ sign
    else if (char.bind Delimiter.ofOpener?).isSome then "unclosed delimiter " ++ sign
    else if char = some '"' ∨ char = some '\'' then "unterminated literal starting with " ++ sign
    else "unknown character " ++ sign

/-- A lexing problem and, where it is known, its place. -/
def LexError.report (message : String) : Option Span → String
  | none => "Tokenize error: " ++ message
  | some span => "Tokenize error at " ++ span.describe ++ ": " ++ message

def LexError.describe (e : LexError) : String := LexError.report e.message (some e.span)

/-! ### Putting trees together -/

namespace Lexer

/-- The most groups that may be open at once. Nothing in the language of trees asks for this number: it
stands for the depth that a reader which calls itself for each group has room for on its stack, which
depends on the machine. -/
def maxDepth : Nat := 128

/-- Why trees could not be put together: groups nest too deeply, or no tree starts at a place, in
front of the given text. -/
inductive Stop where
  | tooDeep
  | before (place : Place) (source : List Char)

/-- The span of the first character, at or behind a place, that is no white space. -/
def firstSpan (file : String) (place : Place) (source : List Char) : Span :=
  (place.advance (source.takeWhile Text.isBlank)).span file
    ((source.dropWhile Text.isBlank).take 1)

/-- What is told of a stop in a text. Too deep a nesting is put on the start of the text, anything
else on the first character behind the stop that is no white space. -/
def Stop.error (file : String) (text : List Char) : Stop → LexError
  | .tooDeep => ⟨.tooDeep, firstSpan file .start text⟩
  | .before place source =>
    ⟨.stopped (source.dropWhile Text.isBlank).head?, firstSpan file place source⟩

/-- The spacing of punctuation that is the first character of a text: joint if punctuation follows
directly. -/
def spacing (source : List Char) : Spacing :=
  if source.tail.head?.any Lexeme.isPunct then .joint else .alone

/-- A group whose end is not read yet: its opener, and the trees in front of it, last one first. -/
structure Opened where
  delimiter : Delimiter
  opener : Lexeme
  before : List TokenTree

/-- The group that a closer ends; its span runs from the opener to the closer. -/
def Opened.close (o : Opened) (file : String) (closer : Lexeme) (trees : List TokenTree) :
    TokenTree :=
  let stop := closer.place.advance closer.text
  let source := o.opener.source.take (stop.offset - o.opener.place.offset)
  .group o.delimiter trees (o.opener.place.span file source)

/-- Trees on their way: the open groups, innermost first, and the trees read in the innermost of
them, last one first. -/
structure Builder where
  opened : List Opened
  trees : List TokenTree

namespace Builder

def push (b : Builder) (t : TokenTree) : Builder := { b with trees := t :: b.trees }

def add (file : String) (b : Builder) (l : Lexeme) : Except Stop Builder :=
  let span := l.place.span file l.text
  match l.kind with
  | .literal => .ok (b.push (.literal (String.ofList l.text) span))
  | .ident => .ok (b.push (.ident (String.ofList l.text) span))
  | .punct c => .ok (b.push (.punct c (spacing l.source) span))
  | .opener d =>
    if maxDepth ≤ b.opened.length then .error .tooDeep
    else .ok ⟨⟨d, l, b.trees⟩ :: b.opened, []⟩
  | .closer d =>
    match b.opened with
    | [] => .error (.before l.place l.source)
    | o :: outer =>
      if o.delimiter = d then .ok ⟨outer, o.close file l b.trees.reverse :: o.before⟩
      else
        let outermost := (outer.getLastD o).opener
        .error (.before outermost.place outermost.source)

/-- The trees, if no group is open and the scan reached the end of the text. -/
def finish (b : Builder) (scan : Scan) : Except Stop (List TokenTree) :=
  match b.opened.getLast? with
  | some outermost => .error (.before outermost.opener.place outermost.opener.source)
  | none => if scan.rest.isEmpty then .ok b.trees.reverse else .error (.before scan.place scan.rest)

end Builder

def assemble (file : String) (scan : Scan) : Except Stop (List TokenTree) := do
  let b ← scan.lexemes.foldlM (Builder.add file) ⟨[], []⟩
  b.finish scan

end Lexer

/-- The trees of a text; spans name the given file. -/
def tokenize (file : String) (text : String) : Except LexError (List TokenTree) :=
  (Lexer.assemble file (Scan.ofText .start text.toList)).mapError
    (Lexer.Stop.error file text.toList)

end TokenParsing
