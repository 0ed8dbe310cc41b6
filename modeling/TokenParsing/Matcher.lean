import TokenParsing.Value

/-!
# Matchers

The leaves of every grammar. A matcher looks at one token: it gives a value for a token it accepts,
and a label to ask for one with. A matcher is made from an argument that may be of any kind and is
checked first.
-/

namespace TokenParsing

inductive GrammarError where
  | notAWord (word : Scalar)
  | notAChar (char : Scalar)
  | notADelimiter (char : Scalar)
  /-- An invisible group has no delimiters that could be matched. -/
  | invisibleGroup
  | noAlternative
  | unknownRule (name : String)
  deriving DecidableEq, Repr

def GrammarError.message : GrammarError → String
  | .notAWord w => "keyword expects a non-empty string, got " ++ w.describe
  | .notAChar c => "punct expects a single character, got " ++ c.describe
  | .notADelimiter c => "Invalid delimiter char: `" ++ c.plain ++ "`"
  | .invisibleGroup => "invisible groups produce no delimiter tokens to match"
  | .noAlternative => "Choice needs at least one alternative"
  | .unknownRule name => "unknown rule " ++ Text.quoted name

/-- What a parser looks for in one token. -/
inductive Matcher where
  | ident
  | literal
  | keyword (word : String)
  | punct (char : Char)
  | delim (char : Char)
  deriving DecidableEq, Repr

namespace Matcher

/-- A matcher for an identifier of the given spelling. -/
def ofWord : Scalar → Except GrammarError Matcher
  | .text w => if w.isEmpty then .error (.notAWord (.text w)) else .ok (.keyword w)
  | s => .error (.notAWord s)

/-- The character that an argument is, if it is one. -/
def char? : Scalar → Option Char
  | .text w =>
    match w.toList with
    | [c] => some c
    | _ => none
  | _ => none

def ofPunct (s : Scalar) : Except GrammarError Matcher :=
  match char? s with
  | some c => .ok (.punct c)
  | none => .error (.notAChar s)

/-- A matcher for the given opening or closing delimiter. -/
def ofDelim (s : Scalar) : Except GrammarError Matcher :=
  match char? s with
  | some c =>
    if (Delimiter.ofChar? c).isSome then .ok (.delim c)
    else .error (.notADelimiter s)
  | none => .error (.notADelimiter s)

def label : Matcher → String
  | .ident => "IDENT"
  | .literal => "LITERAL"
  | .keyword word => word
  | .punct c => c.toString
  | .delim c => c.toString

/-- The value of a token that the matcher accepts. Where any token of a kind will do, the value is
the leaf; otherwise it is the token. -/
def accept (m : Matcher) (t : Token) : Option Value :=
  match m, t with
  | .ident, .ident text span => some (.tree (.ident text span))
  | .literal, .literal text span => some (.tree (.literal text span))
  | .keyword word, .ident text _ => if text = word then some (.token t) else none
  | .punct c, .punct d _ _ => if d = c then some (.token t) else none
  | .delim c, .delim text _ => if text = c.toString then some (.token t) else none
  | _, _ => none

/-- How a matcher is shown by itself: its kind and its label. -/
def describe (m : Matcher) : String :=
  let kind := match m with
    | .ident => "IdentMatcher"
    | .literal => "LiteralMatcher"
    | .keyword _ => "KeywordMatcher"
    | .punct _ => "PunctMatcher"
    | .delim _ => "DelimMatcher"
  kind ++ "(" ++ Text.quoted m.label ++ ")"

end Matcher

end TokenParsing
