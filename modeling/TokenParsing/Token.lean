import TokenParsing.TokenTree

/-!
# Tokens and the flat view of trees

A tree read from left to right is a list of tokens: a leaf is one token, and a visible group is its
opening delimiter, the tokens of its trees and its closing delimiter. An invisible group adds
nothing to the tokens of its trees.
-/

namespace TokenParsing

/-- A leaf, or one of the two delimiters of a group. -/
inductive Token where
  | delim (text : String) (span : Span)
  | punct (char : Char) (spacing : Spacing) (span : Span)
  | ident (text : String) (span : Span)
  | literal (text : String) (span : Span)
  deriving DecidableEq, Repr, Inhabited

inductive Token.Kind where
  | delim
  | punct
  | ident
  | literal
  deriving DecidableEq, Repr

namespace Token

def kind : Token → Kind
  | .delim .. => .delim
  | .punct .. => .punct
  | .ident .. => .ident
  | .literal .. => .literal

def text : Token → String
  | .delim text _ => text
  | .punct c _ _ => c.toString
  | .ident text _ => text
  | .literal text _ => text

/-- Where the token stands; a delimiter has the span of its group. -/
def span : Token → Span
  | .delim _ span => span
  | .punct _ _ span => span
  | .ident _ span => span
  | .literal _ span => span

/-- Tokens of one kind are the same if they read the same. -/
def same (a b : Token) : Bool := a.kind == b.kind && a.text == b.text

/-- The text of a delimiter or of punctuation. -/
def mark? : Token → Option String
  | .delim text _ => some text
  | .punct c _ _ => some c.toString
  | _ => none

/-- The leaf that a token stands for; a delimiter by itself is no tree. -/
def toTree? : Token → Option TokenTree
  | .delim .. => none
  | .punct c spacing span => some (.punct c spacing span)
  | .ident text span => some (.ident text span)
  | .literal text span => some (.literal text span)

/-- What is said of a delimiter that was to be a tree. -/
def noTreeMessage (text : String) : String :=
  "delimiter `" ++ text ++ "` has no token tree form outside its group"

/-- Does a text stand somewhere in the row of opening delimiters? Of single delimiters these are the
openers. -/
def isOpenerText (text : String) : Bool :=
  let openers := ['(', '[', '\x7b']
  (List.range 4).any fun i => text.toList.isPrefixOf (openers.drop i)

def describe (t : Token) : String :=
  let label := match t.kind with
    | .delim => "DelimToken"
    | .punct => "PunctToken"
    | .ident => "IdentToken"
    | .literal => "LiteralToken"
  label ++ "(" ++ Text.quoted t.text ++ ")"

end Token

mutual

/-- The tokens of a tree from left to right. The delimiters of a group carry the group's span. -/
def TokenTree.flatten : TokenTree → List Token
  | .ident text span => [.ident text span]
  | .literal text span => [.literal text span]
  | .punct c spacing span => [.punct c spacing span]
  | .group d trees span =>
    match d.marks? with
    | none => TokenStream.flatten trees
    | some (opener, closer) =>
      .delim opener.toString span :: (TokenStream.flatten trees ++ [.delim closer.toString span])

def TokenStream.flatten : List TokenTree → List Token
  | [] => []
  | t :: rest => t.flatten ++ TokenStream.flatten rest

end

namespace TokenStream

variable {ts us : List TokenTree}

@[simp]
theorem flatten_nil : flatten [] = [] := by simp [flatten]

@[simp]
theorem flatten_cons (t : TokenTree) : flatten (t :: ts) = t.flatten ++ flatten ts := by
  simp [flatten]

@[simp]
theorem flatten_append : flatten (ts ++ us) = flatten ts ++ flatten us := by
  induction ts with
  | nil => simp
  | cons t ts ih => simp [ih]

end TokenStream

end TokenParsing
