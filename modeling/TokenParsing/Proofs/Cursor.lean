import TokenParsing.Proofs.Reader
import TokenParsing.Proofs.Settling

/-!
# An input is a cursor

A cursor is a number into a list of tokens: the number of tokens read. An input that was opened on
some trees stands, after any reading, at a cursor of their flat view (`Input.At`), and each
operation answers as the cursor does (`Input.cursors`). So a reader cannot tell the nest of levels
from the flat list (`Input.answers_ofTrees`).
-/

namespace TokenParsing

/-- A place in a list of tokens: so many of them are read. -/
structure Cursor where
  tokens : List Token
  index : Nat

namespace Cursor

/-- The span of the last of the first `n` tokens. -/
def spanBefore (tokens : List Token) : (n : Nat) → Span
  | 0 => .callSite
  | n + 1 => (tokens[n]?.map Token.span).getD .callSite

/-- The number of tokens read, and the span of the last of them. -/
def position (c : Cursor) : Position := ⟨c.index, spanBefore c.tokens c.index⟩

/-- The next token, and the cursor behind it. At the end there is none, and the cursor stays. -/
def next (c : Cursor) : Option Token × Cursor :=
  match c.tokens[c.index]? with
  | some t => (some t, ⟨c.tokens, c.index + 1⟩)
  | none => (none, c)

instance : TokenSource Cursor where
  Mark := Nat
  position := position
  isEmpty c := c.index == c.tokens.length
  next := next
  peek c := (c.tokens[c.index]?, c)
  mark c := c.index
  restore n c := .ok ⟨c.tokens, n⟩
  remaining c := c.tokens.length - c.index

variable {tokens : List Token} {n : Nat}

theorem next_of_lt (h : n < tokens.length) :
    next ⟨tokens, n⟩ = (some tokens[n], ⟨tokens, n + 1⟩) := by
  simp [next, h]

theorem next_of_le (h : tokens.length ≤ n) : next ⟨tokens, n⟩ = (none, ⟨tokens, n⟩) := by
  simp [next, h]

theorem next_fst (c : Cursor) : c.next.1 = c.tokens[c.index]? := by
  unfold next
  split <;> simp [*]

theorem next_snd_tokens (c : Cursor) : c.next.2.tokens = c.tokens := by
  unfold next
  split <;> rfl

section

variable {σ : Type} [TokenSource σ] {At : σ → Cursor → Prop} {s : σ} {c : Cursor}

theorem take_eq (hnext : ∀ {s c}, At s c → (TokenSource.next s).1 = c.next.1 ∧
      At (TokenSource.next s).2 c.next.2) (count : Nat) (h : At s c) :
    (TokenSource.take count s).1 = (c.tokens.drop c.index).take count := by
  induction count generalizing s c with
  | zero => rfl
  | succ count ih =>
    obtain ⟨tokens, n⟩ := c
    obtain ⟨htoken, hplace⟩ := hnext h
    rcases Nat.lt_or_ge n tokens.length with hn | hn
    · rw [next_of_lt hn] at htoken hplace
      rw [TokenSource.take, show TokenSource.next s = (some tokens[n], (TokenSource.next s).2) from
        Prod.ext htoken rfl, List.drop_eq_getElem_cons hn, List.take_succ_cons]
      exact congrArg _ (ih hplace)
    · rw [next_of_le hn] at htoken
      rw [TokenSource.take, show TokenSource.next s = (none, (TokenSource.next s).2) from
        Prod.ext htoken rfl, List.drop_eq_nil_of_le hn, List.take_nil]

theorem take_at (hnext : ∀ {s c}, At s c → (TokenSource.next s).1 = c.next.1 ∧
      At (TokenSource.next s).2 c.next.2) (count : Nat) (h : At s c)
    (hle : c.index ≤ c.tokens.length) :
    At (TokenSource.take count s).2 ⟨c.tokens, min (c.index + count) c.tokens.length⟩ := by
  induction count generalizing s c with
  | zero =>
    rw [Nat.add_zero, Nat.min_eq_left hle]
    exact h
  | succ count ih =>
    obtain ⟨tokens, n⟩ := c
    obtain ⟨htoken, hplace⟩ := hnext h
    rcases Nat.lt_or_ge n tokens.length with hn | hn
    · rw [next_of_lt hn] at htoken hplace
      rw [TokenSource.take, show TokenSource.next s = (some tokens[n], (TokenSource.next s).2) from
        Prod.ext htoken rfl, show n + (count + 1) = n + 1 + count from Nat.add_right_comm n count 1]
      exact ih hplace hn
    · rw [next_of_le hn] at htoken hplace
      rw [TokenSource.take, show TokenSource.next s = (none, (TokenSource.next s).2) from
        Prod.ext htoken rfl, Nat.min_eq_right (Nat.le_add_right_of_le hn),
        Nat.le_antisymm hn hle]
      exact hplace

theorem drain_eq (hnext : ∀ {s c}, At s c → (TokenSource.next s).1 = c.next.1 ∧
      At (TokenSource.next s).2 c.next.2) (h : At s c)
    (hremaining : TokenSource.remaining s = c.tokens.length - c.index) :
    (TokenSource.drain s).1 = c.tokens.drop c.index := by
  rw [TokenSource.drain, take_eq hnext _ h, hremaining]
  refine List.take_of_length_le ?_
  rw [List.length_drop]
  exact Nat.le_succ _

end

end Cursor

namespace Input

/-- The input stands at the cursor: it holds the tokens from there on. -/
structure At (i : Input) (c : Cursor) : Prop where
  index_le : c.index ≤ c.tokens.length
  tokens_eq : i.tokens = c.tokens.drop c.index
  position_eq : i.position = c.position
  settled : Level.Settled i.levels

theorem at_ofTrees (trees : List TokenTree) :
    (ofTrees trees).At ⟨TokenStream.flatten trees, 0⟩ where
  index_le := Nat.zero_le _
  tokens_eq := by
    simp only [tokens, ofTrees, Level.flatMap_tokens_settle]
    simp [Level.tokens, Enclosure.owed?]
  position_eq := rfl
  settled := Level.settled_settle _

namespace At

variable {i : Input} {c : Cursor} {n : Nat}

theorem isEmpty_eq (h : i.At c) : i.isEmpty = (c.index == c.tokens.length) := by
  have hnil : i.levels = [] ↔ c.index = c.tokens.length := by
    have hle := h.index_le
    rw [h.settled.eq_nil_iff]
    show i.tokens = [] ↔ _
    rw [h.tokens_eq, List.drop_eq_nil_iff]
    omega
  rw [Bool.eq_iff_iff]
  simpa [isEmpty] using hnil

theorem ordinal_eq (h : i.At c) : i.ordinal = c.index :=
  Int.ofNat.inj (congrArg Position.ordinal h.position_eq)

theorem remaining_eq (h : i.At c) : i.tokens.length = c.tokens.length - c.index := by
  rw [h.tokens_eq, List.length_drop]

theorem next_of_lt {tokens : List Token} (h : i.At ⟨tokens, n⟩) (hn : n < tokens.length) :
    i.next.1 = some tokens[n] ∧ i.next.2.At ⟨tokens, n + 1⟩ := by
  have htokens : i.levels.flatMap Level.tokens = tokens[n] :: tokens.drop (n + 1) := by
    rw [List.getElem_cons_drop]
    exact h.tokens_eq
  unfold Input.next
  split
  · rename_i t rest hr
    rw [Level.flatMap_tokens_of_next? hr] at htokens
    obtain ⟨rfl, hrest⟩ := List.cons.inj htokens
    refine ⟨rfl, hn, ?_, ?_, Level.settled_settle _⟩
    · show (Level.settle rest).flatMap Level.tokens = _
      rw [Level.flatMap_tokens_settle, hrest]
    · have hord : (i.ordinal : Int) = n := congrArg Position.ordinal h.position_eq
      simp [position, Cursor.position, Cursor.spanBefore, hn, hord]
  · rename_i hr
    rw [Level.flatMap_tokens_of_next?_eq_none hr] at htokens
    cases htokens

theorem next_of_le {tokens : List Token} (h : i.At ⟨tokens, n⟩) (hn : tokens.length ≤ n) :
    i.next = (none, i) := by
  have hnil : i.levels = [] := by
    rw [h.settled.eq_nil_iff]
    exact h.tokens_eq.trans (List.drop_eq_nil_of_le hn)
  obtain ⟨levels, ordinal, span⟩ := i
  subst hnil
  simp [Input.next, Level.next?, Level.move]

/-- The next token is the cursor's, and so is the place behind it. -/
theorem next (h : i.At c) : i.next.1 = c.next.1 ∧ i.next.2.At c.next.2 := by
  obtain ⟨tokens, n⟩ := c
  rcases Nat.lt_or_ge n tokens.length with hn | hn
  · rw [Cursor.next_of_lt hn]
    exact h.next_of_lt hn
  · rw [Cursor.next_of_le hn, h.next_of_le hn]
    exact ⟨rfl, h⟩

theorem peek (h : i.At c) : i.peek = c.tokens[c.index]? := by
  rw [← Cursor.next_fst]
  exact h.next.1

theorem drain (h : i.At c) : (TokenSource.drain i).1 = c.tokens.drop c.index :=
  Cursor.drain_eq At.next h h.remaining_eq

end At

/-- Inputs on trees with the given tokens, and cursors into the tokens. -/
def cursors (tokens : List Token) : Simulation Input Cursor where
  rel i c := c.tokens = tokens ∧ i.At c
  marks _ _ i n := i.At ⟨tokens, n⟩
  lossy := False
  position h := h.2.position_eq
  isEmpty h := h.2.isEmpty_eq
  remaining h := h.2.remaining_eq
  next h := ⟨h.2.next.1, ⟨(Cursor.next_snd_tokens _).trans h.1, h.2.next.2⟩, id⟩
  peek h := ⟨h.2.peek, .refl h⟩
  mark h := h.1 ▸ h.2
  restore h hm := .inl ⟨_, _, rfl, rfl, ⟨h.1, h.1 ▸ hm⟩, id⟩

/-- Reading an input step by step gives the answers of the cursor into the flat view of its trees,
whatever is asked for and however often one goes back to a mark. -/
theorem answers_ofTrees (trees : List TokenTree) (requests : List Request) :
    (Reader.on (ofTrees trees)).answers requests =
      (Reader.on (⟨TokenStream.flatten trees, 0⟩ : Cursor)).answers requests :=
  (cursors (TokenStream.flatten trees)).answers id ⟨⟨rfl, at_ofTrees trees⟩, .nil⟩ requests

end Input

end TokenParsing
