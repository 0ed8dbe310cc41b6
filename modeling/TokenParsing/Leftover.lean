import TokenParsing.Text.Numeral
import TokenParsing.TokenSource

/-!
# What a parse leaves over

A report of the tokens behind a parse. It keeps the first leaves, up to a limit and in the groups
that open among the tokens it sees, and counts all of them. A closing delimiter whose group opened
earlier is left out; a group that is still open at the end is closed there.
-/

namespace TokenParsing

/-- The leaves that were left over: the first of them as trees, how many they are, and how many were
to be kept. -/
structure Leftover where
  trees : List TokenTree
  total : Nat
  limit : Int
  deriving Repr

namespace Leftover

/-- The number of leaves that are kept if nothing else is asked for. -/
def defaultLimit : Int := 50

/-- A group that opened among the tokens: its opening delimiter, and the trees in front of it, last
one first. -/
structure Opened where
  delimiter : Delimiter
  span : Span
  before : List TokenTree

/-- A report on its way: the open groups, innermost first; the trees in the innermost of them, last
one first; and the number of leaves so far. -/
structure Draft where
  opened : List Opened := []
  trees : List TokenTree := []
  total : Nat := 0

namespace Draft

/-- Closes the innermost group. -/
def close (o : Opened) (outer : List Opened) (d : Draft) : Draft :=
  { d with opened := outer, trees := .group o.delimiter d.trees.reverse o.span :: o.before }

/-- Takes in a delimiter. A closing one ends the innermost group if that is of its kind. -/
def delim (d : Draft) (text : String) (span : Span) : Draft :=
  match Delimiter.ofText? text with
  | none => d
  | some delimiter =>
    if Token.isOpenerText text then
      { d with opened := ⟨delimiter, span, d.trees⟩ :: d.opened, trees := [] }
    else
      match d.opened with
      | o :: outer => if o.delimiter = delimiter then d.close o outer else d
      | [] => d

/-- Takes in a leaf; it is only counted once there are enough. -/
def leaf (limit : Int) (d : Draft) (t : TokenTree) : Draft :=
  let total := d.total + 1
  if (total : Int) ≤ limit then { d with trees := t :: d.trees, total } else { d with total }

def add (limit : Int) (d : Draft) (t : Token) : Draft :=
  match t with
  | .delim text span => if limit ≤ d.total then d else d.delim text span
  | .punct c spacing span => d.leaf limit (.punct c spacing span)
  | .ident text span => d.leaf limit (.ident text span)
  | .literal text span => d.leaf limit (.literal text span)

/-- The trees from the innermost group outwards, each group closed where the tokens end. -/
def unwind (trees : List TokenTree) : List Opened → List TokenTree
  | [] => trees
  | o :: outer => unwind (.group o.delimiter trees.reverse o.span :: o.before) outer

def finish (d : Draft) : List TokenTree := (unwind d.trees d.opened).reverse

end Draft

/-- The report on some tokens; there is none if they come to nothing. -/
def ofTokens? (limit : Int) (tokens : List Token) : Option Leftover :=
  let d := tokens.foldl (Draft.add limit) {}
  let trees := d.finish
  if trees.isEmpty && d.total == 0 then none else some ⟨trees, d.total, limit⟩

/-- Reads a source to its end and reports on what was there. -/
def ofSource? {σ : Type} [TokenSource σ] (limit : Int) (s : σ) : Option Leftover × σ :=
  let (tokens, s') := TokenSource.drain s
  (ofTokens? limit tokens, s')

def isCut (l : Leftover) : Bool := decide (l.limit < l.total)

def render (l : Leftover) : String :=
  let shown := TokenStream.render l.trees
  if l.isCut then
    let more := "[and " ++ toString ((l.total : Int) - l.limit) ++ " more ...]"
    if shown.isEmpty then more else shown ++ " " ++ more
  else shown

/-- The rendering, unless the number of leaves that are not shown has too many digits: the limit may lie
as far below zero as one likes. -/
def print (l : Leftover) : Except Text.Numeral.PrintError String :=
  if l.isCut then (Text.Numeral.print ((l.total : Int) - l.limit)).map fun _ => l.render
  else .ok l.render

def describe (l : Leftover) : String :=
  "Incomplete(total=" ++ toString l.total ++ ", max_trailing=" ++ toString l.limit ++ ")"

/-- What a report is announced with. -/
def announce (text : String) : String := "unexpected tokens at end of input:\n\n" ++ text

end Leftover

end TokenParsing
