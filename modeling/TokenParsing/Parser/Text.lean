import TokenParsing.Lexer
import TokenParsing.Leftover
import TokenParsing.Parser.Run

/-!
# Parsing a text

A text is lexed and parsed in one go. If all of it is to be parsed, tokens that are left over are an
error. The error carries the report on them, or the trees that are left where there is nothing to
report, as when only closing delimiters are left.
-/

namespace TokenParsing

/-- What a parse left over although it was to leave nothing. -/
inductive Trailing where
  | trees (ts : List TokenTree)
  | report (l : Leftover)
  deriving Repr

def Trailing.message : Trailing → String
  | .trees ts => Leftover.announce (TokenStream.render ts)
  | .report l => Leftover.announce l.render

inductive ParseError where
  | lex (e : LexError)
  | failure (e : Failure)
  | fault (f : Fault)
  | trailing (t : Trailing)
  deriving Repr

/-- The source name of a text that was given none. -/
def defaultFile : String := "<input>"

/-- What is left behind a parse: nothing, or what is to be said of it. -/
def Trailing.ofInput? (i : Input) : Option Trailing :=
  if i.isEmpty then none
  else match (Leftover.ofSource? Leftover.defaultLimit i).1 with
    | some l => some (.report l)
    | none => some (.trees i.intoTrees)

/-- The value of a text. With `all`, the parser has to read every token of it. -/
def Parser.parseText (rules : Rules) (p : Parser) (file text : String) (all : Bool) :
    Except ParseError Value :=
  match tokenize file text with
  | .error e => .error (.lex e)
  | .ok trees =>
    match p.run rules ⟨Input.ofTrees trees, {}⟩ with
    | (.failure e, _) => .error (.failure e)
    | (.abort f, _) => .error (.fault f)
    | (.success v _, s) =>
      match if all then Trailing.ofInput? s.source else none with
      | some t => .error (.trailing t)
      | none => .ok v

end TokenParsing
