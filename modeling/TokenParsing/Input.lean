import TokenParsing.Token

/-!
# Reading trees token by token

An input is a place in a nest of trees. It keeps one level for every group around the next token,
innermost first: what is left of the group, and the delimiter that is owed behind it. An input is
kept settled (`Level.settle`): levels with nothing left are dropped, and invisible groups are
entered, so that the next token is at hand and the levels run out exactly when the tokens do.
-/

namespace TokenParsing

mutual

/-- A bound on the moves it takes to read a tree. -/
def TokenTree.weight : TokenTree → Nat
  | .group _ trees _ => 2 + TokenStream.weight trees
  | _ => 1

def TokenStream.weight : List TokenTree → Nat
  | [] => 0
  | t :: rest => t.weight + TokenStream.weight rest

end

/-- What is around the trees of a level. -/
inductive Enclosure where
  /-- Nothing: these are the trees that were handed over. -/
  | outermost
  | invisible (span : Span)
  /-- A group whose closing delimiter is still to come. -/
  | visible (closer : Char) (span : Span)
  deriving DecidableEq, Repr

namespace Enclosure

/-- The closing delimiter that is to come when the trees of the level are read. -/
def owed? : Enclosure → Option Token
  | .visible closer span => some (.delim closer.toString span)
  | _ => none

/-- The trees of a level together with what is around them. The opening delimiter of a visible
group is gone, so the closing one comes back as punctuation. -/
def rebuild (e : Enclosure) (trees : List TokenTree) : List TokenTree :=
  match e with
  | .outermost => trees
  | .invisible span => [.group .invisible trees span]
  | .visible closer span => trees ++ [.punct closer .alone span]

end Enclosure

/-- What is left of one group. -/
structure Level where
  enclosure : Enclosure
  rest : List TokenTree
  deriving Repr

/-- What comes of looking at the levels once. -/
inductive Move where
  | finished
  /-- A token, and the levels behind it. -/
  | token (t : Token) (levels : List Level)
  /-- No token: a level was dropped or an invisible group entered. -/
  | silent (levels : List Level)

namespace Level

/-- The tokens of a level, with the closing delimiter that is owed. -/
def tokens (l : Level) : List Token := TokenStream.flatten l.rest ++ l.enclosure.owed?.toList

def weight (l : Level) : Nat := 1 + TokenStream.weight l.rest

def totalWeight : List Level → Nat
  | [] => 0
  | l :: outer => l.weight + totalWeight outer

/-- One move through the levels, innermost first. -/
def move : List Level → Move
  | [] => .finished
  | ⟨e, []⟩ :: outer =>
    match e.owed? with
    | some t => .token t outer
    | none => .silent outer
  | ⟨e, t :: rest⟩ :: outer =>
    match t with
    | .ident text span => .token (.ident text span) (⟨e, rest⟩ :: outer)
    | .literal text span => .token (.literal text span) (⟨e, rest⟩ :: outer)
    | .punct c spacing span => .token (.punct c spacing span) (⟨e, rest⟩ :: outer)
    | .group d trees span =>
      match d.marks? with
      | none => .silent (⟨.invisible span, trees⟩ :: ⟨e, rest⟩ :: outer)
      | some (opener, closer) =>
        .token (.delim opener.toString span) (⟨.visible closer span, trees⟩ :: ⟨e, rest⟩ :: outer)

theorem weight_move_lt {levels next : List Level} (h : move levels = .silent next) :
    totalWeight next < totalWeight levels := by
  unfold move at h
  split at h
  · cases h
  · split at h
    · cases h
    · cases h
      simp only [totalWeight, weight]
      omega
  · split at h <;> try cases h
    split at h
    · cases h
      simp only [totalWeight, weight, TokenStream.weight, TokenTree.weight]
      omega
    · cases h

/-- Moves on until the next token is at hand. -/
def settle (levels : List Level) : List Level :=
  match _h : move levels with
  | .silent next => settle next
  | _ => levels
termination_by totalWeight levels
decreasing_by exact weight_move_lt _h

def next? (levels : List Level) : Option (Token × List Level) :=
  match _h : move levels with
  | .finished => none
  | .token t outer => some (t, outer)
  | .silent next => next? next
termination_by totalWeight levels
decreasing_by exact weight_move_lt _h

/-- The trees that are left, from the innermost level outwards; `inner` is what is left inside. -/
def rebuild (inner : List TokenTree) : List Level → List TokenTree
  | [] => inner
  | l :: outer => rebuild (l.enclosure.rebuild (inner ++ l.rest)) outer

end Level

/-- A place in a nest of trees: the levels around the next token, innermost first, the number of
tokens read, and the span of the last of them. -/
structure Input where
  levels : List Level
  ordinal : Nat
  lastSpan : Span
  deriving Repr

namespace Input

def ofTrees (trees : List TokenTree) : Input :=
  ⟨Level.settle [⟨.outermost, trees⟩], 0, .callSite⟩

def tokens (i : Input) : List Token := i.levels.flatMap Level.tokens

def isEmpty (i : Input) : Bool := i.levels.isEmpty

/-- The number of levels, the outermost one included. -/
def depth (i : Input) : Nat := i.levels.length

def position (i : Input) : Position := ⟨i.ordinal, i.lastSpan⟩

/-- The next token, and the input behind it. At the end there is none, and no level is left. -/
def next (i : Input) : Option Token × Input :=
  match Level.next? i.levels with
  | some (t, levels) => (some t, ⟨Level.settle levels, i.ordinal + 1, t.span⟩)
  | none => (none, { i with levels := [] })

def peek (i : Input) : Option Token := i.next.1

def intoTrees (i : Input) : List TokenTree := Level.rebuild [] i.levels

def describe (i : Input) : String :=
  "Input(position=" ++ i.position.describe ++ ", depth=" ++ toString i.depth ++ ")"

end Input

end TokenParsing
