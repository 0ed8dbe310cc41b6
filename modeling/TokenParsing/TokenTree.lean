import TokenParsing.Scalar
import TokenParsing.Span

/-!
# Token trees

Source text as nested trees: the leaves are identifiers, literals and punctuation, and a group is a
list of trees between delimiters. A group of the invisible kind has no delimiters in the text; it
only keeps its trees together. The rendering of a list of trees shows their tokens in order. It does not
always read back as the trees: an invisible group leaves no mark in it, and quotes that a line end kept
apart make a literal.
-/

namespace TokenParsing

/-- Does punctuation stand directly before more punctuation? -/
inductive Spacing where
  | alone
  | joint
  deriving DecidableEq, Repr, Inhabited

inductive Delimiter where
  | parenthesis
  | brace
  | bracket
  | invisible
  deriving DecidableEq, Repr, Inhabited

namespace Delimiter

/-- The characters in front of and behind a group; an invisible group has none. -/
def marks? : Delimiter → Option (Char × Char)
  | .parenthesis => some ('(', ')')
  | .brace => some ('\x7b', '\x7d')
  | .bracket => some ('[', ']')
  | .invisible => none

/-- The kind of group that opens with the character. -/
def ofOpener? : Char → Option Delimiter
  | '(' => some .parenthesis
  | '\x7b' => some .brace
  | '[' => some .bracket
  | _ => none

def ofCloser? : Char → Option Delimiter
  | ')' => some .parenthesis
  | '\x7d' => some .brace
  | ']' => some .bracket
  | _ => none

/-- The kind of group that a character opens or closes. -/
def ofChar? (c : Char) : Option Delimiter := (ofOpener? c).or (ofCloser? c)

/-- The kind of group that a text opens or closes, if it is a delimiter. -/
def ofText? (text : String) : Option Delimiter :=
  match text.toList with
  | [c] => ofChar? c
  | _ => none

/-- The rendering of a group with the given contents: braces keep a space inside. -/
def wrap (d : Delimiter) (inner : String) : String :=
  match d.marks? with
  | none => inner
  | some (opener, closer) =>
    if d = .brace then
      if inner.isEmpty then opener.toString ++ " " ++ closer.toString
      else opener.toString ++ " " ++ inner ++ " " ++ closer.toString
    else opener.toString ++ inner ++ closer.toString

end Delimiter

/-- An argument that was to be a delimiter and is none. -/
structure DelimiterError where
  char : Scalar
  deriving DecidableEq, Repr

def DelimiterError.message (e : DelimiterError) : String :=
  "not a delimiter character: " ++ e.char.describe

/-- The kind of group that an argument opens or closes. No character at all stands for the invisible
kind. -/
def Delimiter.ofScalar : Scalar → Except DelimiterError Delimiter
  | .null => .ok .invisible
  | .text s =>
    match Delimiter.ofText? s with
    | some d => .ok d
    | none => .error ⟨.text s⟩
  | s => .error ⟨s⟩

/-- A leaf or a group of trees. A literal is kept as its source text. -/
inductive TokenTree where
  | ident (text : String) (span : Span)
  | literal (text : String) (span : Span)
  | punct (char : Char) (spacing : Spacing) (span : Span)
  | group (delimiter : Delimiter) (trees : List TokenTree) (span : Span)
  deriving Repr, Inhabited

/-- Trees that stand one after another. -/
abbrev TokenStream := List TokenTree

namespace TokenTree

/-- Does the next tree follow without a space? -/
def isJoint : TokenTree → Bool
  | .punct _ .joint _ => true
  | _ => false

/-- What stands between a tree and the next one in a rendering. -/
def gap (t : TokenTree) : String := if t.isJoint then "" else " "

end TokenTree

mutual

def TokenTree.render : TokenTree → String
  | .ident text _ => text
  | .literal text _ => text
  | .punct c _ _ => c.toString
  | .group d trees _ => d.wrap (TokenStream.render trees)

/-- Trees as text: a space between neighbours, except after joint punctuation. -/
def TokenStream.render : List TokenTree → String
  | [] => ""
  | [t] => t.render
  | t :: u :: rest => t.render ++ t.gap ++ TokenStream.render (u :: rest)

end

mutual

/-- Do two trees differ in nothing but their spans? -/
def TokenTree.same : TokenTree → TokenTree → Bool
  | .ident a _, .ident b _ => a == b
  | .literal a _, .literal b _ => a == b
  | .punct a s _, .punct b t _ => a == b && s == t
  | .group d ts _, .group e us _ => d == e && TokenStream.same ts us
  | _, _ => false

def TokenStream.same : List TokenTree → List TokenTree → Bool
  | [], [] => true
  | t :: ts, u :: us => t.same u && TokenStream.same ts us
  | _, _ => false

end

/-- The rendering, marked as a stream. -/
def TokenStream.describe (trees : List TokenTree) : String :=
  "TokenStream(" ++ Text.quoted (TokenStream.render trees) ++ ")"

/-- A text that was to be punctuation is not a single character. -/
structure PunctError where
  text : String
  deriving DecidableEq, Repr

def PunctError.message (e : PunctError) : String :=
  "punct must be a single character, got " ++ Text.quoted e.text

/-- A text as the character of punctuation. -/
def punctChar (text : String) : Except PunctError Char :=
  match text.toList with
  | [c] => .ok c
  | _ => .error ⟨text⟩

end TokenParsing
