import TokenParsing.Lookahead

/-!
# Sources of tokens

What a parser needs of the thing it reads: tokens one at a time, the place it is at, a look at the
next token, and the way back to a place it has marked. The way back may be refused.
-/

namespace TokenParsing

/-- Tokens that can be read one at a time, with a way back to marked places. -/
class TokenSource (σ : Type) where
  Mark : Type
  position : σ → Position
  isEmpty : σ → Bool
  next : σ → Option Token × σ
  /-- The next token, not read. -/
  peek : σ → Option Token × σ
  mark : σ → Mark
  restore : Mark → σ → Except BacktrackError σ
  remaining : σ → Nat

instance : TokenSource Input where
  Mark := Input
  position := Input.position
  isEmpty := Input.isEmpty
  next := Input.next
  peek i := (i.peek, i)
  mark i := i
  restore m _ := .ok m
  remaining i := i.tokens.length

instance : TokenSource Stream where
  Mark := Stream.Mark
  position := Stream.position
  isEmpty := Stream.isEmpty
  next := Stream.next
  peek := Stream.peekAt 0
  mark := Stream.mark
  restore := Stream.restore
  remaining := Stream.remaining

namespace TokenSource

variable {σ : Type} [TokenSource σ]

/-- Up to `count` tokens, and the source behind them. -/
def take : Nat → σ → List Token × σ
  | 0, s => ([], s)
  | count + 1, s =>
    match next s with
    | (some t, s') => let r := take count s'; (t :: r.1, r.2)
    | (none, s') => ([], s')

/-- All tokens that are left, and the source at its end. -/
def drain (s : σ) : List Token × σ := take (remaining s + 1) s

end TokenSource

end TokenParsing
