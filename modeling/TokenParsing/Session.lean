import TokenParsing.Grammar
import TokenParsing.Lexer
import TokenParsing.Leftover
import TokenParsing.Parser.Run

/-!
# Sessions

A session keeps streams under names and lets them be read step by step. Streams may share: a window
can be put over a stream that goes on being read under its own name, and each of the two sees what
the other has read. So the session keeps every input and every window once, in the order made; a
window knows its source by number, and the source is always older.
-/

namespace TokenParsing

/-- Where a stream starts. -/
inductive Origin where
  | text (file content : String)
  | trees (ts : List TokenTree)
  deriving Repr

def Origin.input : Origin → Except LexError Input
  | .text file content => Input.ofTrees <$> tokenize file content
  | .trees ts => .ok (Input.ofTrees ts)

namespace Session

/-- An input, or a window over an older stream. -/
inductive Node where
  | input (i : Input)
  | window (w : Window) (source : Nat)
  deriving Repr

/-- Inputs and windows, the youngest first. The number of a node is that of the nodes older than it.
-/
abbrev Store := List Node

namespace Store

/-- The stream that ends in a node. -/
def get? : Store → Nat → Option Stream
  | [], _ => none
  | n :: older, id =>
    if id = older.length then
      match n with
      | .input i => some (.input i)
      | .window w source => (get? older source).map (.lookahead w)
    else get? older id

/-- Puts a stream back that was taken from a node and has been read since. -/
def set : Store → Nat → Stream → Store
  | [], _, _ => []
  | n :: older, id, s =>
    if id = older.length then
      match n, s with
      | .input _, .input i => .input i :: older
      | .window _ source, .lookahead w s' => .window w source :: set older source s'
      | _, _ => n :: older
    else n :: set older id s

/-- Adds the nodes of a stream of its own; the youngest of them stands for it. -/
def add (store : Store) : Stream → Store
  | .input i => .input i :: store
  | .lookahead w s =>
    let store := add store s
    .window w (store.length - 1) :: store

end Store

end Session

/-- Streams and marks under their names, and the rules for all parses. -/
structure Session where
  rules : Rules
  store : Session.Store := []
  names : List (String × Nat) := []
  marks : List (String × Stream.Mark) := []

namespace Session

/-- One thing to do with a stream that is there. -/
inductive Reading where
  | next
  | advance
  | take (count : Int)
  | drain
  | peek (distance : Int)
  | restore (mark : String)
  | intoTrees
  | leftover (limit : Int)
  | describe
  | parse (g : Grammar)

/-- One thing to do with the stream of a name. -/
inductive Step where
  | openOrigin (origin : Origin) (horizons : List Int)
  /-- Makes the stream from what is left of another one. -/
  | reopen (source : String)
  /-- Makes the stream a window over another one, which it shares. -/
  | lookahead (source : String) (horizon : Int)
  | mark (mark : String)
  | read (r : Reading)

inductive Reply where
  | nothing
  | token (t : Option Token)
  | texts (ts : List String)
  | trees (ts : List TokenTree)
  | leftover (l : Option Leftover)
  | text (s : String)
  | value (v : Value)

inductive Refusal where
  | lex (e : LexError)
  | horizon (e : HorizonError)
  | peek (e : PeekError)
  | grammar (e : GrammarError)
  | failure (e : Failure)
  | fault (f : Fault)
  | atEnd
  | unknownName (name : String)
  | noTrees

/-- The stream of a name. -/
def stream? (s : Session) (name : String) : Option Stream :=
  (s.names.lookup name).bind (s.store.get? ·)

/-- Gives a name to a stream of its own. -/
def bindNew (s : Session) (name : String) (stream : Stream) : Session :=
  let store := s.store.add stream
  { s with store, names := (name, store.length - 1) :: s.names }

/-- Puts back the stream of a name after it has been read. -/
def update (s : Session) (name : String) (stream : Stream) : Session :=
  match s.names.lookup name with
  | some id => { s with store := s.store.set id stream }
  | none => s

def openStream (s : Session) (name : String) (origin : Origin) (horizons : List Int) :
    Except Refusal Session := do
  let input ← origin.input.mapError .lex
  let stream ← ((Stream.input input).withLookahead horizons).mapError .horizon
  return s.bindNew name stream

/-- The start of a session: one stream, under the given name. -/
def start (rules : Rules) (name : String) (origin : Origin) (horizons : List Int) :
    Except Refusal Session :=
  openStream { rules } name origin horizons

/-- Puts a window over a stream that goes on under its own name. -/
def openWindow (s : Session) (name source : String) (horizon : Int) : Except Refusal Session :=
  match s.names.lookup source with
  | none => .error (.unknownName source)
  | some id => do
    let w ← (Window.ofHorizon horizon).mapError .horizon
    return { s with
      store := .window w id :: s.store
      names := (name, s.store.length) :: s.names }

/-- Makes a stream from what is left of another one. -/
def reopen (s : Session) (name source : String) : Except Refusal Session :=
  match s.stream? source with
  | none => .error (.unknownName source)
  | some stream =>
    match stream.intoTrees? with
    | some trees => .ok (s.bindNew name (.input (.ofTrees trees)))
    | none => .error .noTrees

/-- Reads a stream: the answer, and the stream after it. -/
def read (rules : Rules) (marks : List (String × Stream.Mark)) (stream : Stream) :
    Reading → Except Refusal Reply × Stream
  | .next => let (t, s) := stream.next; (.ok (.token t), s)
  | .advance =>
    match stream.next with
    | (some t, s) => (.ok (.token (some t)), s)
    | (none, s) => (.error .atEnd, s)
  | .take count =>
    let (ts, s) := TokenSource.take count.toNat stream
    (.ok (.texts (ts.map Token.text)), s)
  | .drain => let (ts, s) := TokenSource.drain stream; (.ok (.texts (ts.map Token.text)), s)
  | .peek distance =>
    match stream.peek distance with
    | .ok (t, s) => (.ok (.token t), s)
    | .error e => (.error (.peek e), stream)
  | .restore mark =>
    match marks.lookup mark with
    | none => (.error (.unknownName mark), stream)
    | some mark =>
      match stream.restore mark with
      | .ok s => (.ok .nothing, s)
      | .error e => (.error (.fault (.backtrack e)), stream)
  | .intoTrees =>
    (match stream.intoTrees? with
      | some ts => .ok (.trees ts)
      | none => .error .noTrees, stream)
  | .leftover limit =>
    let (l, s) := Leftover.ofSource? limit stream
    (.ok (.leftover l), s)
  | .describe => (.ok (.text stream.describe), stream)
  | .parse g =>
    match g.build (rules.map (·.1)) with
    | .error e => (.error (.grammar e), stream)
    | .ok p =>
      match p.run rules ⟨stream, {}⟩ with
      | (.success v _, s) => (.ok (.value v), s.source)
      | (.failure e, s) => (.error (.failure e), s.source)
      | (.abort f, s) => (.error (.fault f), s.source)

/-- The outcome of a step that changes names: the session with the change, or without it and the
reason why. -/
def settle (s : Session) : Except Refusal Session → Except Refusal Reply × Session
  | .ok s' => (.ok .nothing, s')
  | .error e => (.error e, s)

/-- Does one thing with the stream of a name. -/
def step (s : Session) (name : String) (what : Step) : Except Refusal Reply × Session :=
  match what with
  | .openOrigin origin horizons => s.settle (s.openStream name origin horizons)
  | .reopen source => s.settle (s.reopen name source)
  | .lookahead source horizon => s.settle (s.openWindow name source horizon)
  | .mark mark =>
    s.settle <| match s.stream? name with
      | some stream => .ok { s with marks := (mark, stream.mark) :: s.marks }
      | none => .error (.unknownName name)
  | .read r =>
    match s.stream? name with
    | none => (.error (.unknownName name), s)
    | some stream =>
      let (reply, stream) := read s.rules s.marks stream r
      (reply, s.update name stream)

end Session

end TokenParsing
