import TokenParsing.Token

/-!
# Which delimiter closes which

In the flat view of some trees a closing delimiter belongs to the opening delimiter of the same group
(`TokenStream.openings`). A reader who starts at some place of the flat view and counts the groups
that open and close finds the closing delimiters with nothing to close, and these are the ones whose
opening delimiters stand in front of the place (`TokenStream.unopened_drop`).
-/

namespace TokenParsing

mutual

/-- For each token of a tree, the place of the delimiter that it closes, if it closes one; `start` is
the place of the first token. -/
def TokenTree.openings (start : Nat) : TokenTree → List (Option Nat)
  | .group d trees _ =>
    match d.marks? with
    | none => TokenStream.openings start trees
    | some _ => none :: (TokenStream.openings (start + 1) trees ++ [some start])
  | .ident .. | .literal .. | .punct .. => [none]

def TokenStream.openings (start : Nat) : List TokenTree → List (Option Nat)
  | [] => []
  | t :: rest => t.openings start ++ TokenStream.openings (start + t.flatten.length) rest

end

namespace Token

def opens : Token → Bool
  | .delim text _ => (Delimiter.ofText? text).isSome && isOpenerText text
  | _ => false

def closes : Token → Bool
  | .delim text _ => (Delimiter.ofText? text).isSome && !isOpenerText text
  | _ => false

/-- For each token, does it close a group that did not open among the tokens in front of it? Before
the first of them `depth` groups are open. -/
def unopened : (depth : Nat) → List Token → List Bool
  | _, [] => []
  | depth, t :: ts =>
    if t.opens then false :: unopened (depth + 1) ts
    else if t.closes then (depth == 0) :: unopened (depth - 1) ts
    else false :: unopened depth ts

end Token

namespace Delimiter

variable {d : Delimiter} {opener closer : Char}

theorem opens_opener (h : d.marks? = some (opener, closer)) (span : Span) :
    (Token.delim opener.toString span).opens = true := by
  cases d <;> cases h <;> rfl

theorem opens_closer (h : d.marks? = some (opener, closer)) (span : Span) :
    (Token.delim closer.toString span).opens = false := by
  cases d <;> cases h <;> rfl

theorem closes_closer (h : d.marks? = some (opener, closer)) (span : Span) :
    (Token.delim closer.toString span).closes = true := by
  cases d <;> cases h <;> rfl

end Delimiter

namespace Token

variable {d : Delimiter} {opener closer : Char} {ts : List Token}

theorem unopened_opener (h : d.marks? = some (opener, closer)) (span : Span) (depth : Nat) :
    unopened depth (.delim opener.toString span :: ts) = false :: unopened (depth + 1) ts := by
  rw [unopened, if_pos (d.opens_opener h span)]

theorem unopened_closer (h : d.marks? = some (opener, closer)) (span : Span) (depth : Nat) :
    unopened depth (.delim closer.toString span :: ts) =
      (depth == 0) :: unopened (depth - 1) ts := by
  have hopens : ¬(Token.delim closer.toString span).opens = true := by
    rw [d.opens_closer h span]
    exact Bool.false_ne_true
  rw [unopened, if_neg hopens, if_pos (d.closes_closer h span)]

end Token

open List (replicate)

mutual

/-- Nothing is unopened within a tree, at any depth. -/
theorem TokenTree.unopened_flatten (depth : Nat) (more : List Token) :
    ∀ t : TokenTree, Token.unopened depth (t.flatten ++ more) =
      replicate t.flatten.length false ++ Token.unopened depth more
  | .ident .. | .literal .. | .punct .. => by
    simp [TokenTree.flatten, Token.unopened, Token.opens, Token.closes]
  | .group d trees span => by
    cases h : d.marks? with
    | none =>
      have ih := TokenStream.unopened_flatten depth more trees
      simpa [TokenTree.flatten, h] using ih
    | some m =>
      obtain ⟨opener, closer⟩ := m
      have ih := TokenStream.unopened_flatten (depth + 1)
        (.delim closer.toString span :: more) trees
      rw [Token.unopened_closer h] at ih
      simp only [TokenTree.flatten, h, List.cons_append, List.append_assoc, List.nil_append,
        Token.unopened_opener h, ih, List.length_cons, List.length_append, List.length_nil]
      rw [List.replicate_succ, List.replicate_succ']
      simp

theorem TokenStream.unopened_flatten (depth : Nat) (more : List Token) :
    ∀ ts : List TokenTree, Token.unopened depth (TokenStream.flatten ts ++ more) =
      replicate (TokenStream.flatten ts).length false ++ Token.unopened depth more
  | [] => by simp
  | t :: ts => by
    rw [TokenStream.flatten_cons, List.append_assoc, TokenTree.unopened_flatten,
      TokenStream.unopened_flatten, List.length_append, ← List.replicate_append_replicate,
      List.append_assoc]

end

mutual

theorem TokenTree.map_openings {start n : Nat} (hn : n ≤ start) :
    ∀ t : TokenTree, (t.openings start).map (·.any (· < n)) = replicate t.flatten.length false
  | .ident .. | .literal .. | .punct .. => by simp [TokenTree.openings, TokenTree.flatten]
  | .group d trees span => by
    cases h : d.marks? with
    | none =>
      have ih := TokenStream.map_openings hn trees
      simpa [TokenTree.openings, TokenTree.flatten, h] using ih
    | some m =>
      have ih := TokenStream.map_openings (Nat.le_succ_of_le hn) trees
      have hstart : decide (start < n) = false := by simpa using hn
      simp only [TokenTree.openings, TokenTree.flatten, h, List.map_cons, List.map_append, ih,
        Option.any_none, Option.any_some, hstart, List.map_nil, List.length_cons,
        List.length_append, List.length_nil]
      rw [List.replicate_succ, List.replicate_succ']

theorem TokenStream.map_openings {start n : Nat} (hn : n ≤ start) :
    ∀ ts : List TokenTree, (TokenStream.openings start ts).map (·.any (· < n)) =
      replicate (TokenStream.flatten ts).length false
  | [] => by simp [TokenStream.openings]
  | t :: ts => by
    have htree := t.map_openings hn
    have hrest := TokenStream.map_openings (Nat.le_add_right_of_le hn (k := t.flatten.length)) ts
    rw [TokenStream.openings, List.map_append, htree, hrest, TokenStream.flatten_cons,
      List.length_append, List.replicate_append_replicate]

end

theorem TokenTree.length_openings (start : Nat) (t : TokenTree) :
    (t.openings start).length = t.flatten.length := by
  have h := congrArg List.length (t.map_openings (Nat.le_refl start))
  simpa using h

theorem TokenStream.length_openings (start : Nat) (ts : List TokenTree) :
    (TokenStream.openings start ts).length = (TokenStream.flatten ts).length := by
  have h := congrArg List.length (TokenStream.map_openings (Nat.le_refl start) ts)
  simpa using h

mutual

theorem TokenTree.unopened_drop (start n : Nat) (more : List Token) :
    ∀ t : TokenTree, Token.unopened 0 (t.flatten.drop n ++ more) =
      ((t.openings start).drop n).map (·.any (· < start + n)) ++ Token.unopened 0 more
  | .ident .. | .literal .. | .punct .. => by
    cases n <;> simp [TokenTree.openings, TokenTree.flatten, Token.unopened, Token.opens,
      Token.closes]
  | .group d trees span => by
    cases h : d.marks? with
    | none =>
      have ih := TokenStream.unopened_drop start n more trees
      simpa [TokenTree.openings, TokenTree.flatten, h] using ih
    | some m =>
      obtain ⟨opener, closer⟩ := m
      have hlen := TokenStream.length_openings (start + 1) trees
      rcases n with _ | n
      · have hopened := TokenTree.map_openings (Nat.le_refl start) (.group d trees span)
        rw [List.drop_zero, List.drop_zero, TokenTree.unopened_flatten, Nat.add_zero, hopened]
      · have ih := TokenStream.unopened_drop (start + 1) n
          ([Token.delim closer.toString span].drop (n - (TokenStream.flatten trees).length) ++ more)
          trees
        simp only [TokenTree.openings, TokenTree.flatten, h, List.drop_succ_cons, List.drop_append,
          List.append_assoc, hlen, ih, List.map_append, Nat.add_assoc, Nat.add_comm 1 n]
        congr 1
        rcases hn : n - (TokenStream.flatten trees).length with _ | k
        · -- the closing delimiter is still to come, and its group is open
          rw [List.drop_zero, List.drop_zero, List.singleton_append, Token.unopened_closer h]
          simp
        · simp

theorem TokenStream.unopened_drop (start n : Nat) (more : List Token) :
    ∀ ts : List TokenTree, Token.unopened 0 ((TokenStream.flatten ts).drop n ++ more) =
      ((TokenStream.openings start ts).drop n).map (·.any (· < start + n)) ++
        Token.unopened 0 more
  | [] => by simp [TokenStream.openings]
  | t :: ts => by
    have htree := TokenTree.unopened_drop start n
      ((TokenStream.flatten ts).drop (n - t.flatten.length) ++ more) t
    have hrest := TokenStream.unopened_drop (start + t.flatten.length) (n - t.flatten.length) more ts
    rw [TokenStream.flatten_cons, List.drop_append, List.append_assoc, htree, hrest,
      TokenStream.openings, List.drop_append, t.length_openings, List.map_append, List.append_assoc]
    congr 2
    rcases Nat.lt_or_ge n t.flatten.length with hlt | hge
    · -- all of the later trees is there, and opened behind both places
      rw [Nat.sub_eq_zero_of_le (Nat.le_of_lt hlt), List.drop_zero,
        TokenStream.map_openings (by omega), TokenStream.map_openings (by omega)]
    · rw [Nat.add_assoc, Nat.add_sub_of_le hge]

end

/-- In `( a [ ] )` the brackets are within the parentheses; behind `[` both closing delimiters have
nothing to close. -/
example : let trees := [.group .parenthesis [.ident "a" .callSite,
      .group .bracket [] .callSite] .callSite]
    TokenStream.openings 0 trees = [none, none, none, some 2, some 0] ∧
      Token.unopened 0 ((TokenStream.flatten trees).drop 3) = [true, true] := by
  decide +kernel

end TokenParsing
