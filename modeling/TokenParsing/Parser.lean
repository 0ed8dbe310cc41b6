import TokenParsing.Failure
import TokenParsing.Matcher

/-!
# Parsers

A parser is a term: matchers at the leaves, combinators above them, and names of rules where it goes
on in another parser. What a parser does with a source of tokens is said by `Parser.run`.
-/

namespace TokenParsing

inductive Parser where
  | token (m : Matcher)
  | eof
  /-- One after the other; the value is the tuple of the values. -/
  | sequence (parts : List Parser)
  /-- The first that matches, where the ones before it fail without reading. -/
  | choice (first : Parser) (others : List Parser)
  | map (f : Value → Except ValueError Value) (body : Parser)
  /-- Asked for by a label of its own if it fails where it starts. -/
  | named (label : String) (body : Parser)
  /-- As often as it matches, and at least `minimum` times; the value is the list of the values. -/
  | many (minimum : Int) (body : Parser)
  /-- Its value, or `default` if it fails without reading. -/
  | opt (default : Value) (body : Parser)
  /-- Reads nothing if it fails. -/
  | attempt (body : Parser)
  /-- A parser that was put off until it is needed, known under a label. -/
  | delayed (label : String) (body : Parser)
  | rule (name : String)
  /-- What was to be built here cannot be: using it ends the parse. -/
  | invalid (e : GrammarError)
  deriving Inhabited

namespace Parser

def eofLabel : String := "end of input"

/-- A parser, and another one behind it. A sequence takes the other one in as its last part. -/
def append : Parser → Parser → Parser
  | .sequence ps, q => .sequence (ps ++ [q])
  | p, q => .sequence [p, q]

/-- A parser, or another one. A choice takes the other one in as its last alternative. -/
def orElse : Parser → Parser → Parser
  | .choice p ps, q => .choice p (ps ++ [q])
  | p, q => .choice p [q]

/-- Both parsers, for the value of the second. -/
def andThen (p q : Parser) : Parser := .map (Value.element 1) (.sequence [p, q])

/-- Both parsers, for the value of the first. -/
def skip (p q : Parser) : Parser := .map (Value.element 0) (.sequence [p, q])

/-- A parser between two others, for the second value of their sequence. -/
def between (opening closing body : Parser) : Parser :=
  .map (Value.element 1) ((opening.append body).append closing)

/-- Any number of times the body, a separator between each two; the value is the list of the values
of the body. -/
def sepBy (body separator : Parser) : Parser :=
  .map (.ok ·.orEmpty) <|
    .opt .null (.map Value.consList (body.append (.many 0 (separator.andThen body))))

/-- How a matcher, a rule or a delayed parser is shown by itself. -/
def describe? : Parser → Option String
  | .token m => some m.describe
  | .delayed label _ => some ("Lazy(" ++ label ++ ")")
  | .rule name => some ("Lazy(" ++ name ++ ")")
  | _ => none

end Parser

/-- The parsers of the rules by name. A rule that cannot be built keeps the reason. -/
abbrev Rules := List (String × Except GrammarError Parser)

/-- What a run leaves behind besides its result: the rules it built, in order and each under its
name, and the labels it asked for in vain, each with the place; the latest of both come first. -/
structure Journal where
  built : List String := []
  refused : List (String × Int) := []
  deriving DecidableEq, Repr, Inhabited

namespace Journal

def build (j : Journal) (name : String) : Journal := { j with built := name :: j.built }

/-- A rule is used. It is built the first time. -/
def use (j : Journal) (name : String) : Journal :=
  if j.built.contains name then j else j.build name

/-- No token at a place is what the label asks for. -/
def refuse (j : Journal) (label : String) (ordinal : Int) : Journal :=
  { j with refused := (label, ordinal) :: j.refused }

def builtInOrder (j : Journal) : List String := j.built.reverse

end Journal

end TokenParsing
