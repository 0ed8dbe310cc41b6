import TokenParsing.Text.Quoted

/-!
# Spans

A span says where in a source a token stands: a file, the line and column where it starts, and the
line and column just behind it. A token that comes from no source has the span `Span.callSite`.
-/

namespace TokenParsing

/-- A stretch of source text. The text itself is carried along and takes no part in comparisons. -/
structure Span where
  file : String
  startLine : Int
  startCol : Int
  endLine : Int
  endCol : Int
  text : String := ""
  deriving DecidableEq, Repr, Inhabited

namespace Span

def callSite : Span := ⟨"<call_site>", 0, 0, 0, 0, ""⟩

/-- From the start of one span to the end of another, in the file of the first. -/
def join (s t : Span) : Span := ⟨s.file, s.startLine, s.startCol, t.endLine, t.endCol, ""⟩

def same (s t : Span) : Bool :=
  s.file == t.file && s.startLine == t.startLine && s.startCol == t.startCol
    && s.endLine == t.endLine && s.endCol == t.endCol

/-- The file, the start, and the end; a span within one line names the line once. -/
def describe (s : Span) : String :=
  let start := s.file ++ ":" ++ toString s.startLine ++ ":" ++ toString s.startCol ++ "-"
  if s.startLine = s.endLine then start ++ toString s.endCol
  else start ++ toString s.endLine ++ ":" ++ toString s.endCol

end Span

/-- How far a stream is read: the number of tokens read and the span of the last of them. Positions
are compared by the number alone. -/
structure Position where
  ordinal : Int
  span : Span := .callSite
  deriving DecidableEq, Repr, Inhabited

namespace Position

/-- The number of tokens, and the span unless it is the call site. -/
def describe (p : Position) : String :=
  let count := "token " ++ toString p.ordinal
  if p.span.same .callSite then count else count ++ " (" ++ p.span.describe ++ ")"

/-- The places of a list's positions in ascending order, equal ones in the order of the list. -/
def ranking (ps : List Position) : List Nat :=
  (ps.zipIdx.mergeSort fun a b => decide (a.1.ordinal ≤ b.1.ordinal)).map (·.2)

end Position

end TokenParsing
