import TokenParsing.Input

/-!
# Lookahead with a bounded memory

A window over a source of tokens. It remembers the last `horizon` tokens it took from the source,
each with the position in front of it, so that reading can go back to any of them without asking the
source again. Going back further is refused. A stream is an input or a window over another stream.
-/

namespace TokenParsing

/-- Reading was to go back to a token that is no longer remembered. -/
structure BacktrackError where
  offset : Int
  oldest : Int
  horizon : Int
  deriving DecidableEq, Repr

def BacktrackError.message (e : BacktrackError) : String :=
  "cannot backtrack to token " ++ toString e.offset ++ ": lookahead horizon of " ++
    toString e.horizon ++ " only keeps tokens from " ++ toString e.oldest ++ " onwards"

inductive HorizonError where
  | belowOne (horizon : Int)
  /-- More than a buffer can hold. -/
  | tooLarge (horizon : Int)
  deriving DecidableEq, Repr

def HorizonError.message : HorizonError → String
  | .belowOne k => "lookahead horizon must be at least 1, got " ++ toString k
  | .tooLarge k => "lookahead horizon must fit in 63 bits, got " ++ toString k

/-- A token too far ahead to be looked at. -/
structure PeekError where
  horizon : Nat
  distance : Int
  deriving DecidableEq, Repr

def PeekError.message (e : PeekError) : String :=
  "can only peek 0.." ++ toString ((e.horizon : Int) - 1) ++ " tokens ahead, got " ++
    toString e.distance

/-- The memory of a lookahead: the tokens taken from the source, newest first and each with the
position in front of it, and, counted from the first token taken, the next token to be read and the
number of tokens taken. -/
structure Window where
  horizon : Nat
  buffer : List (Position × Token)
  offset : Nat
  produced : Nat
  deriving DecidableEq, Repr

namespace Window

/-- The number of tokens a window looks ahead if nothing else is asked for. -/
def defaultHorizon : Int := 1

/-- The largest horizon: the greatest number that fits in 63 bits. -/
def maxHorizon : Int := 9223372036854775807

def empty (horizon : Nat) : Window := ⟨horizon, [], 0, 0⟩

/-- An empty window of a horizon that is asked for. -/
def ofHorizon (k : Int) : Except HorizonError Window :=
  if k < 1 then .error (.belowOne k)
  else if maxHorizon < k then .error (.tooLarge k)
  else .ok (empty k.toNat)

def oldest (w : Window) : Nat := w.produced - w.buffer.length

def remembered? (w : Window) (offset : Nat) : Option (Position × Token) :=
  if offset < w.produced then w.buffer[w.produced - 1 - offset]? else none

/-- The next token, if it is one that was read before. -/
def replay? (w : Window) : Option (Position × Token) := w.remembered? w.offset

/-- Remembers one more token of the source and forgets the oldest if there are too many. -/
def push (w : Window) (e : Position × Token) : Window :=
  { w with buffer := (e :: w.buffer).take w.horizon, produced := w.produced + 1 }

def forward (w : Window) : Window := { w with offset := w.offset + 1 }

def moveTo (w : Window) (offset : Int) : Except BacktrackError Window :=
  if w.oldest ≤ offset ∧ offset ≤ w.produced then .ok { w with offset := offset.toNat }
  else .error ⟨offset, w.oldest, w.horizon⟩

end Window

/-- Tokens to be read: from trees, or through a window over another stream. -/
inductive Stream where
  | input (i : Input)
  | lookahead (w : Window) (source : Stream)
  deriving Repr

/-- What a stream needs to come back to a place: an input all of itself, a window a number. -/
inductive Stream.Mark where
  | input (i : Input)
  | offset (n : Int)
  deriving Repr

namespace Stream

/-- A stream behind windows of the given horizons, the first of them innermost. -/
def withLookahead (s : Stream) (horizons : List Int) : Except HorizonError Stream :=
  horizons.foldlM (fun s k => return .lookahead (← Window.ofHorizon k) s) s

/-- How far the stream is read. A window knows the position of a token that it remembers. -/
def position : Stream → Position
  | .input i => i.position
  | .lookahead w s => (w.replay?.map (·.1)).getD s.position

def isEmpty : Stream → Bool
  | .input i => i.isEmpty
  | .lookahead w s => w.produced ≤ w.offset && s.isEmpty

def remaining : Stream → Nat
  | .input i => i.tokens.length
  | .lookahead w s => (w.produced - w.offset) + s.remaining

/-- The next token. A window takes it from its source if it does not remember it. -/
def next : Stream → Option Token × Stream
  | .input i => (i.next.1, .input i.next.2)
  | .lookahead w s =>
    match w.replay? with
    | some (_, t) => (some t, .lookahead w.forward s)
    | none =>
      match s.next with
      | (some t, s') => (some t, .lookahead (w.push (s.position, t)).forward s')
      | (none, s') => (none, .lookahead w s')

/-- Lets a window take up to `count` tokens from its source. -/
def fill : Nat → Window → Stream → Window × Stream
  | 0, w, s => (w, s)
  | count + 1, w, s =>
    match s.next with
    | (some t, s') => fill count (w.push (s.position, t)) s'
    | (none, s') => (w, s')

/-- The token at some distance, none of them read. An input looks at the next token only. -/
def peekAt (distance : Nat) : Stream → Option Token × Stream
  | .input i => (i.peek, .input i)
  | .lookahead w s =>
    let r := fill (w.offset + distance + 1 - w.produced) w s
    ((r.1.remembered? (w.offset + distance)).map (·.2), .lookahead r.1 r.2)

/-- The token at a distance that the window allows. -/
def peek (distance : Int) : Stream → Except PeekError (Option Token × Stream)
  | .input i => .ok (i.peek, .input i)
  | .lookahead w s =>
    if 0 ≤ distance ∧ distance < w.horizon then .ok (peekAt distance.toNat (.lookahead w s))
    else .error ⟨w.horizon, distance⟩

def mark : Stream → Mark
  | .input i => .input i
  | .lookahead w _ => .offset w.offset

/-- Goes back, or forward, to a mark. A mark of the other kind is no place in this stream. -/
def restore : Mark → Stream → Except BacktrackError Stream
  | .input i, .input _ => .ok (.input i)
  | .offset n, .lookahead w s => (w.moveTo n).map (.lookahead · s)
  | _, s => .ok s

/-- What is left, as trees. A window has no trees. -/
def intoTrees? : Stream → Option (List TokenTree)
  | .input i => some i.intoTrees
  | .lookahead .. => none

/-- The number of levels around the next token of an input. -/
def depth? : Stream → Option Nat
  | .input i => some i.depth
  | .lookahead .. => none

def describe : Stream → String
  | .input i => i.describe
  | .lookahead w s =>
    "LookaheadInput(position=" ++ (position (.lookahead w s)).describe ++ ", horizon=" ++
      toString w.horizon ++ ")"

end Stream

end TokenParsing
