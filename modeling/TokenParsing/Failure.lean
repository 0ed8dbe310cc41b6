import TokenParsing.Token

/-!
# Failures

Where a parse failed, what stood there, and what was expected instead. A failure is committed if
input was read before it; alternatives are tried only after one that is not. Of two failures the
furthest counts; two at one place share their labels.
-/

namespace TokenParsing

/-- The labels of two lists, each once more only if it is new, in the order first seen. -/
def unionLabels (left right : List String) : List String :=
  right.foldl (fun labels l => if labels.contains l then labels else labels ++ [l]) left

/-- Labels in a sentence: commas between them, and an `or` before the last. -/
def listLabels (labels : List String) : String :=
  let quote (l : String) := "`" ++ l ++ "`"
  match labels.reverse with
  | [] => ""
  | [l] => quote l
  | last :: front => ", ".intercalate (front.reverse.map quote) ++ " or " ++ quote last

/-- A failure told in three lines: its place, what stood there, and what was expected, if anything
was. -/
def failureText (place : String) (unexpected : Option String) (expected : List String) : String :=
  let found := match unexpected with
    | none => "Unexpected end of input"
    | some text => "Unexpected `" ++ text ++ "`"
  let wanted := if expected.isEmpty then [] else ["Expected " ++ listLabels expected]
  "\n".intercalate (["Parse error at " ++ place, found] ++ wanted)

/-- Why a parser did not match; `unexpected` is the token at the place, if there is one. -/
structure Failure where
  position : Position
  unexpected : Option Token
  expected : List String
  committed : Bool := false
  deriving DecidableEq, Repr

namespace Failure

def atEnd (e : Failure) : Bool := e.unexpected.isNone

def ordinal (e : Failure) : Int := e.position.ordinal

/-- The furthest of two failures. At one place their labels are united, and the result is committed
if one of them is. -/
def merge (e f : Failure) : Failure :=
  if e.ordinal < f.ordinal then f
  else if f.ordinal < e.ordinal then e
  else ⟨e.position, e.unexpected, unionLabels e.expected f.expected, e.committed || f.committed⟩

def withExpected (e : Failure) (labels : List String) : Failure := { e with expected := labels }

def withCommitted (e : Failure) (committed : Bool) : Failure := { e with committed }

def commitIf (e : Failure) (condition : Bool) : Failure :=
  if condition then e.withCommitted true else e

def describe (e : Failure) : String :=
  failureText e.position.describe (e.unexpected.map Token.text) e.expected

end Failure

/-- The failure that an optional or repeated part stopped at, if any. It did not stop the parse, but
what it expected may still be what is missing. -/
abbrev Hint := Option Failure

namespace Hint

def merge : Hint → Hint → Hint
  | none, right => right
  | left, none => left
  | some e, some f => some (e.merge f)

/-- A hint, and behind it a failure: the labels of the hint come first if both are at one place, and
otherwise the failure takes the place of the hint. -/
def extend (hint : Hint) (e : Failure) : Failure :=
  match hint with
  | none => e
  | some h => if h.ordinal = e.ordinal then h.merge e else e

end Hint

/-- An uncommitted failure, and behind it the hint that stands at the same place. -/
def Failure.withHint (e : Failure) (hint : Hint) : Failure :=
  match hint with
  | none => e
  | some h => if e.committed = false ∧ h.ordinal = e.ordinal then e.merge h else e

end TokenParsing
