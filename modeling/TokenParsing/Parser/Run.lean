import TokenParsing.Parser.Action

/-!
# Running a parser

A parser means an action, by recursion on its term; a rule means the action of its parser. Between
two tokens no rule can call itself again in a grammar without left recursion, so the depth of calls
is bounded by the number of rules for each token that is left, and the length of a repetition by the
number of tokens that are left. `Parser.run` starts with these bounds.
-/

namespace TokenParsing

variable {σ : Type} [TokenSource σ]

mutual

/-- The action of a parser, where `call` gives the action of a rule and a repetition goes on `limit`
times at most. -/
def Parser.action (call : String → Action σ Value) (limit : Nat) : Parser → Action σ Value
  | .token m => Action.token m
  | .eof => Action.eof
  | .sequence ps => Action.sequence (Parser.actions call limit ps)
  | .choice p ps => Action.choice (p.action call limit) (Parser.actions call limit ps)
  | .map f p => Action.map f (p.action call limit)
  | .named label p => Action.named label (p.action call limit)
  | .many minimum p => Action.many minimum limit (p.action call limit)
  | .opt default p => Action.opt default (p.action call limit)
  | .attempt p => Action.attempt (p.action call limit)
  | .delayed _ p => p.action call limit
  | .rule name => call name
  | .invalid e => Action.abort (.grammar e)

def Parser.actions (call : String → Action σ Value) (limit : Nat) :
    List Parser → List (Action σ Value)
  | [] => []
  | p :: ps => p.action call limit :: Parser.actions call limit ps

end

/-- The action of a rule, with at most `depth` calls within calls. -/
def Rules.call (rules : Rules) (limit : Nat) : (depth : Nat) → String → Action σ Value
  | 0, _ => Action.abort .exhausted
  | depth + 1, name => fun s =>
    match rules.lookup name with
    | some (.ok p) =>
      p.action (Rules.call rules limit depth) limit { s with journal := s.journal.use name }
    | some (.error e) => (.abort (.grammar e), { s with journal := s.journal.build name })
    | none => (.abort (.grammar (.unknownRule name)), s)

def Parser.run (rules : Rules) (p : Parser) : Action σ Value := fun s =>
  let limit := TokenSource.remaining s.source + 1
  p.action (Rules.call rules limit ((rules.length + 1) * limit)) limit s

/-! ### What a parser is asked for with -/

/-- A look at the labels of a parser: it may build rules, and fail to. -/
abbrev Survey := ExceptT GrammarError (StateM Journal)

mutual

/-- The labels of a parser, where `call` gives those of a rule: what it can be asked for with at its
start. -/
def Parser.labels (call : String → Survey (List String)) : Parser → Survey (List String)
  | .token m => pure [m.label]
  | .eof => pure [Parser.eofLabel]
  | .sequence [] => pure []
  | .sequence (p :: _) => p.labels call
  | .choice p ps => do
    let first ← p.labels call
    let others ← Parser.allLabels call ps
    pure (unionLabels [] (first ++ others))
  | .map _ p => p.labels call
  | .named label _ => pure (if label.isEmpty then [] else [label])
  | .many _ p => p.labels call
  | .opt _ p => p.labels call
  | .attempt p => p.labels call
  | .delayed _ p => p.labels call
  | .rule name => call name
  | .invalid e => throw e

def Parser.allLabels (call : String → Survey (List String)) : List Parser → Survey (List String)
  | [] => pure []
  | p :: ps => do
    let first ← p.labels call
    let others ← Parser.allLabels call ps
    pure (first ++ others)

end

/-- The labels of a rule, with at most `depth` calls within calls. -/
def Rules.labels (rules : Rules) : (depth : Nat) → String → Survey (List String)
  | 0, _ => pure []
  | depth + 1, name =>
    match rules.lookup name with
    | some (.ok p) => do
      modify (·.use name)
      p.labels (Rules.labels rules depth)
    | some (.error e) => do
      modify (·.build name)
      throw e
    | none => throw (.unknownRule name)

/-- The labels of a parser. A rule that its own labels depend on adds none. -/
def Parser.expected (rules : Rules) (p : Parser) (j : Journal) :
    Except GrammarError (List String) × Journal :=
  (p.labels (Rules.labels rules (rules.length + 1))).run.run j

end TokenParsing
