import TokenParsing.Parser

/-!
# Grammars

A grammar is a parser as it is written down: the arguments of its matchers are not checked yet.
`Grammar.build` checks them from left to right, the parts of a grammar before the whole, and gives
the parser or the first reason why there is none. What is delayed is checked when it is used.
-/

namespace TokenParsing

/-- What a value may be turned into. -/
inductive Projection where
  | text
  | size
  | first
  | last
  | nothing
  deriving DecidableEq, Repr

def Projection.apply : Projection → Value → Value
  | .text, v => v.toText
  | .size, v => .int v.size
  | .first, v => v.first
  | .last, v => v.last
  | .nothing, _ => .null

/-- A parser as it is written down. -/
inductive Grammar where
  | ident
  | literal
  | eof
  | keyword (word : Scalar)
  | punct (char : Scalar)
  | delim (char : Scalar)
  /-- The body between the delimiters of a group. -/
  | group (d : Delimiter) (body : Grammar)
  | sequence (parts : List Grammar)
  | choice (alternatives : List Grammar)
  /-- Parts put behind a first one, one at a time. -/
  | append (first : Grammar) (others : List Grammar)
  /-- Alternatives put behind a first one, one at a time. -/
  | orElse (first : Grammar) (others : List Grammar)
  | many (minimum : Int) (body : Grammar)
  | opt (default : Value) (body : Grammar)
  | attempt (body : Grammar)
  | between (opening closing body : Grammar)
  | sepBy (body separator : Grammar)
  | andThen (first second : Grammar)
  | skip (first second : Grammar)
  | named (label : String) (body : Grammar)
  | map (f : Projection) (body : Grammar)
  | delayed (label : Option String) (body : Grammar)
  | rule (name : String)
  deriving Inhabited

namespace Grammar

/-- The label of a delayed grammar that was given none. -/
def anonymous : String := "<lambda>"

/-- A parser that aborts for the reason why it could not be built. -/
def orInvalid : Except GrammarError Parser → Parser
  | .ok p => p
  | .error e => .invalid e

/-- Parser for the body of a group of some kind. -/
def inGroup (d : Delimiter) (body : Parser) : Except GrammarError Parser :=
  match d.marks? with
  | some (opener, closer) => .ok (.between (.token (.delim opener)) (.token (.delim closer)) body)
  | none => .error .invisibleGroup

mutual

/-- The parser of a grammar; `known` holds the names of the rules there are. -/
def build (known : List String) : Grammar → Except GrammarError Parser
  | .ident => pure (.token .ident)
  | .literal => pure (.token .literal)
  | .eof => pure .eof
  | .keyword w => .token <$> Matcher.ofWord w
  | .punct c => .token <$> Matcher.ofPunct c
  | .delim c => .token <$> Matcher.ofDelim c
  | .group d body => do inGroup d (← body.build known)
  | .sequence parts => .sequence <$> buildAll known parts
  | .choice alternatives => do
    match ← buildAll known alternatives with
    | [] => throw .noAlternative
    | p :: ps => pure (.choice p ps)
  | .append first others => do
    let p ← first.build known
    return (← buildAll known others).foldl Parser.append p
  | .orElse first others => do
    let p ← first.build known
    return (← buildAll known others).foldl Parser.orElse p
  | .many minimum body => .many minimum <$> body.build known
  | .opt default body => .opt default <$> body.build known
  | .attempt body => .attempt <$> body.build known
  | .between opening closing body => do
    return .between (← opening.build known) (← closing.build known) (← body.build known)
  | .sepBy body separator => do return .sepBy (← body.build known) (← separator.build known)
  | .andThen first second => do return .andThen (← first.build known) (← second.build known)
  | .skip first second => do return .skip (← first.build known) (← second.build known)
  | .named label body => .named label <$> body.build known
  | .map f body => .map (.ok <| f.apply ·) <$> body.build known
  | .delayed label body =>
    let label := label.getD ""
    pure (.delayed (if label.isEmpty then anonymous else label) (orInvalid (body.build known)))
  | .rule name => if known.contains name then pure (.rule name) else throw (.unknownRule name)

def buildAll (known : List String) : List Grammar → Except GrammarError (List Parser)
  | [] => pure []
  | g :: gs => do
    let p ← g.build known
    let ps ← buildAll known gs
    pure (p :: ps)

end

end Grammar

/-- The rules with the given grammars. They may name each other. -/
def Rules.ofGrammars (grammars : List (String × Grammar)) : Rules :=
  let known := grammars.map (·.1)
  grammars.map fun (name, g) => (name, g.build known)

end TokenParsing
