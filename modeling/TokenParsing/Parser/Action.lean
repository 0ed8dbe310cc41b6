import TokenParsing.Parser
import TokenParsing.TokenSource

/-!
# Actions on a source of tokens

An action reads from a source and ends in success, in a failure, or in an abort that no alternative
can mend. Each combinator is a function on actions. Success carries a hint: the failure that an
optional or repeated part stopped at, as long as nothing was read since.
-/

namespace TokenParsing

/-- Why a parse ended that neither matched nor failed. -/
inductive Fault where
  | backtrack (e : BacktrackError)
  | grammar (e : GrammarError)
  | value (e : ValueError)
  /-- Rules called each other without end. -/
  | exhausted
  deriving DecidableEq, Repr

/-- What an action comes to. -/
inductive Result (α : Type) where
  | success (value : α) (hint : Hint)
  | failure (e : Failure)
  | abort (f : Fault)
  deriving Repr

namespace Result

variable {α β : Type}

def map (f : α → β) : Result α → Result β
  | .success v hint => .success (f v) hint
  | .failure e => .failure e
  | .abort e => .abort e

end Result

/-- The source during a run, and the journal of the run. -/
structure State (σ : Type) where
  source : σ
  journal : Journal

def State.ordinal {σ : Type} [TokenSource σ] (s : State σ) : Int :=
  (TokenSource.position s.source).ordinal

abbrev Action (σ α : Type) := State σ → Result α × State σ

namespace Action

variable {σ : Type} [TokenSource σ] {α : Type}

def abort (f : Fault) : Action σ α := fun s => (.abort f, s)

/-- Fails for want of what a label asks for; `start` is the place and `found` the token there. -/
def refuse (label : String) (start : Position) (found : Option Token) : Action σ α := fun s =>
  (.failure ⟨start, found, [label], false⟩,
    { s with journal := s.journal.refuse label start.ordinal })

/-- Reads one token if the matcher accepts it, and otherwise goes back in front of it. -/
def token (m : Matcher) : Action σ Value := fun s =>
  let start := TokenSource.position s.source
  let mark := TokenSource.mark s.source
  let (found, after) := TokenSource.next s.source
  match found.bind m.accept with
  | some v => (.success v none, { s with source := after })
  | none =>
    match TokenSource.restore mark after with
    | .ok back => refuse m.label start found { s with source := back }
    | .error e => (.abort (.backtrack e), { s with source := after })

def eof : Action σ Value := fun s =>
  if TokenSource.isEmpty s.source then (.success .null none, s)
  else
    let start := TokenSource.position s.source
    let (found, after) := TokenSource.peek s.source
    refuse Parser.eofLabel start found { s with source := after }

/-- The actions of a sequence from some part on. `start` is where the sequence started, and `hint`
comes from the parts before. -/
def sequenceFrom (start : Int) : List (Action σ Value) → Hint → Action σ (List Value)
  | [], hint => fun s => (.success [] hint, s)
  | p :: ps, hint => fun s =>
    match p s with
    | (.success v new, s') =>
      let hint := if s.ordinal < s'.ordinal then new else hint.merge new
      let (r, s'') := sequenceFrom start ps hint s'
      (r.map (v :: ·), s'')
    | (.failure e, s') => (.failure ((e.withHint hint).commitIf (start < s'.ordinal)), s')
    | (.abort f, s') => (.abort f, s')

/-- One after the other. A failure is committed if anything was read before it. -/
def sequence (parts : List (Action σ Value)) : Action σ Value := fun s =>
  let (r, s') := sequenceFrom s.ordinal parts none s
  (r.map .tuple, s')

/-- The alternatives of a choice from some alternative on. `start` is where the choice started, and
`missed` holds the failures of the alternatives before. -/
def choiceFrom (start : Int) : Action σ Value → List (Action σ Value) → Hint → Action σ Value
  | p, others, missed => fun s =>
    match p s with
    | (.success v hint, s') =>
      (.success v (if s'.ordinal = start then missed.merge hint else hint), s')
    | (.failure e, s') =>
      if e.committed then (.failure e, s')
      else
        let missed := missed.elim e (·.merge e)
        match others with
        | [] => (.failure missed, s')
        | q :: qs => choiceFrom start q qs (some missed) s'
    | (.abort f, s') => (.abort f, s')

/-- The first alternative that succeeds, where the ones before it fail uncommitted. -/
def choice (first : Action σ Value) (others : List (Action σ Value)) : Action σ Value := fun s =>
  choiceFrom s.ordinal first others none s

def map (f : Value → Except ValueError Value) (body : Action σ Value) : Action σ Value := fun s =>
  match body s with
  | (.success v hint, s') =>
    match f v with
    | .ok u => (.success u hint, s')
    | .error e => (.abort (.value e), s')
  | r => r

/-- Puts one label in place of all that is expected where the body starts. -/
def named (label : String) (body : Action σ Value) : Action σ Value := fun s =>
  let start := s.ordinal
  match body s with
  | (.success v hint, s') =>
    (.success v (hint.map fun h => if h.ordinal = start then h.withExpected [label] else h), s')
  | (.failure e, s') =>
    if e.committed = true ∨ e.ordinal ≠ start then (.failure e, s')
    else (.failure (e.withExpected [label]), s')
  | r => r

/-- The repetitions of the body after the first `count`. `start` is where the first one started, and
at most `limit` more are tried. -/
def manyFrom (start minimum : Int) (body : Action σ Value) :
    (limit count : Nat) → Hint → Action σ (List Value)
  | 0, _, _ => abort .exhausted
  | limit + 1, count, hint => fun s =>
    match body s with
    | (.success v new, s') =>
      if s'.ordinal = s.ordinal then (.success [v] hint, s')
      else
        let (r, s'') := manyFrom start minimum body limit (count + 1) new s'
        (r.map (v :: ·), s'')
    | (.failure e, s') =>
      if e.committed = true ∨ (count : Int) < minimum then
        (.failure (e.commitIf (start < s'.ordinal)), s')
      else (.success [] (some (hint.extend e)), s')
    | (.abort f, s') => (.abort f, s')

/-- The body as often as it succeeds. A repetition that reads nothing is the last one, since it
would succeed for ever. -/
def many (minimum : Int) (limit : Nat) (body : Action σ Value) : Action σ Value := fun s =>
  let (r, s') := manyFrom s.ordinal minimum body limit 0 none s
  (r.map .list, s')

/-- The body's value, or a default if the body fails uncommitted. -/
def opt (default : Value) (body : Action σ Value) : Action σ Value := fun s =>
  match body s with
  | (.failure e, s') =>
    if e.committed then (.failure e, s') else (.success default (some e), s')
  | r => r

/-- Goes back to the start if the body fails, and makes the failure uncommitted. -/
def attempt (body : Action σ Value) : Action σ Value := fun s =>
  let mark := TokenSource.mark s.source
  match body s with
  | (.failure e, s') =>
    match TokenSource.restore mark s'.source with
    | .ok back => (.failure (e.withCommitted false), { s' with source := back })
    | .error f => (.abort (.backtrack f), s')
  | r => r

end Action

end TokenParsing
