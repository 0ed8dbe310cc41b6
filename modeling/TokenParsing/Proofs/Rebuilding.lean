import TokenParsing.Proofs.Pairing
import TokenParsing.Proofs.StreamCursor
import TokenParsing.Session

/-!
# Rebuilding what is left

The trees that are rebuilt from what is left of an input read as the tokens that are left, but for
the closing delimiters whose opening delimiters are read: each of them comes back as punctuation
(`Input.drain_intoTrees`).

The levels of an input, innermost first, are the tokens up to the first such delimiter, up to the
second, and so on, so rebuilding them turns exactly the unopened delimiters into punctuation
(`Level.Proper.flatten_rebuild`). `TokenStream.unopened_drop` tells which ones these are.
-/

namespace TokenParsing

/-- A delimiter by itself as punctuation. -/
def Token.loosen : Token → Token
  | .delim text span =>
    match text.toList with
    | [c] => .punct c .alone span
    | _ => .delim text span
  | t => t

def Token.loosenIf (t : Token) (condition : Bool) : Token := if condition then t.loosen else t

theorem Token.loosen_delim (c : Char) (span : Span) :
    (Token.delim c.toString span).loosen = .punct c .alone span := by
  simp [Token.loosen]

theorem Token.zipWith_loosenIf_append (ts more : List Token) (flags : List Bool) :
    List.zipWith loosenIf (ts ++ more) (List.replicate ts.length false ++ flags) =
      ts ++ List.zipWith loosenIf more flags := by
  induction ts with
  | nil => rfl
  | cons t ts ih =>
    rw [List.length_cons, List.replicate_succ, List.cons_append, List.cons_append,
      List.zipWith_cons_cons, ih]
    rfl

/-- The place of the delimiter that the token at the place `n` closes, if it closes one. -/
def TokenStream.opener? (trees : List TokenTree) (n : Nat) : Option Nat :=
  (TokenStream.openings 0 trees)[n]?.join

/-- A delimiter that is owed is the closing one of some kind of group. -/
def Enclosure.Proper : Enclosure → Prop
  | .visible closer _ => ∃ (d : Delimiter) (opener : Char), d.marks? = some (opener, closer)
  | .outermost | .invisible _ => True

/-- The levels behind a move. -/
def Move.levels : Move → List Level
  | .finished => []
  | .token _ levels => levels
  | .silent levels => levels

namespace Level

variable {levels rest : List Level} {t : Token}

def Proper (levels : List Level) : Prop := ∀ l ∈ levels, l.enclosure.Proper

/-- The tokens of a level when it is rebuilt. -/
def rebuiltTokens (l : Level) : List Token :=
  TokenStream.flatten (l.enclosure.rebuild l.rest)

theorem flatten_rebuild (inner : List TokenTree) (levels : List Level) :
    TokenStream.flatten (rebuild inner levels) =
      TokenStream.flatten inner ++ levels.flatMap rebuiltTokens := by
  induction levels generalizing inner with
  | nil => simp [rebuild]
  | cons l outer ih =>
    obtain ⟨e, rest⟩ := l
    rw [rebuild, ih]
    cases e <;>
      simp [rebuiltTokens, Enclosure.rebuild, TokenTree.flatten, Delimiter.marks?]

namespace Proper

theorem tail {l : Level} (h : Proper (l :: levels)) : Proper levels :=
  fun l' hl => h l' (List.mem_cons_of_mem _ hl)

theorem cons {l : Level} (hl : l.enclosure.Proper) (h : Proper levels) : Proper (l :: levels) := by
  intro l' hl'
  rcases List.mem_cons.1 hl' with rfl | hl'
  · exact hl
  · exact h l' hl'

theorem move (h : Proper levels) : Proper (Level.move levels).levels := by
  unfold Level.move
  split
  · exact h
  · split <;> exact h.tail
  · rename_i e t rest outer
    have he : e.Proper := h ⟨e, t :: rest⟩ (List.mem_cons_self ..)
    have hrest : Proper (⟨e, rest⟩ :: outer) := h.tail.cons he
    cases t with
    | group d trees span =>
      cases hd : d.marks? with
      | none =>
        have hinner : Enclosure.Proper (.invisible span) := trivial
        simp only [hd]
        exact hrest.cons hinner
      | some m =>
        have hinner : Enclosure.Proper (.visible m.2 span) := ⟨d, m.1, hd⟩
        simp only [hd]
        exact hrest.cons hinner
    | _ => exact hrest

theorem settle (h : Proper levels) : Proper (Level.settle levels) := by
  fun_induction Level.settle levels with
  | case1 levels next hm ih =>
    have hnext := h.move
    rw [hm] at hnext
    exact ih hnext
  | case2 => exact h

theorem next? (h : Proper levels) (hnext : Level.next? levels = some (t, rest)) : Proper rest := by
  fun_induction Level.next? levels with
  | case1 => cases hnext
  | case2 levels u outer hm =>
    obtain ⟨rfl, rfl⟩ := Prod.mk.inj (Option.some.inj hnext)
    have hout := h.move
    rw [hm] at hout
    exact hout
  | case3 levels next hm ih =>
    have hin := h.move
    rw [hm] at hin
    exact ih hin hnext

/-- Rebuilding turns the unopened delimiters into punctuation. -/
theorem flatMap_rebuiltTokens (h : Proper levels) :
    levels.flatMap rebuiltTokens =
      List.zipWith Token.loosenIf (levels.flatMap tokens)
        (Token.unopened 0 (levels.flatMap tokens)) := by
  induction levels with
  | nil => rfl
  | cons l outer ih =>
    obtain ⟨e, rest⟩ := l
    have houter := ih h.tail
    have hopened := Token.zipWith_loosenIf_append (TokenStream.flatten rest)
    rw [List.flatMap_cons, List.flatMap_cons, houter]
    cases e with
    | outermost =>
      simp only [rebuiltTokens, tokens, Enclosure.rebuild, Enclosure.owed?, Option.toList_none,
        List.append_nil, TokenStream.unopened_flatten, hopened]
    | invisible span =>
      simp only [rebuiltTokens, tokens, Enclosure.rebuild, Enclosure.owed?, Option.toList_none,
        List.append_nil, TokenStream.unopened_flatten, hopened, TokenStream.flatten_cons,
        TokenStream.flatten_nil, TokenTree.flatten, Delimiter.marks?]
    | visible closer span =>
      -- the delimiter that is owed closes a group that is entered, so nothing that is left opens it
      obtain ⟨d, opener, hd⟩ := h ⟨.visible closer span, rest⟩ (List.mem_cons_self ..)
      simp only [rebuiltTokens, tokens, Enclosure.rebuild, Enclosure.owed?, Option.toList_some,
        List.append_assoc, List.singleton_append, TokenStream.unopened_flatten, hopened,
        Token.unopened_closer hd, List.zipWith_cons_cons, TokenStream.flatten_append,
        TokenStream.flatten_cons, TokenStream.flatten_nil, TokenTree.flatten]
      rw [← Token.loosen_delim]
      rfl

end Proper

end Level

namespace Input

variable {trees : List TokenTree} {i : Input}

theorem proper_ofTrees (trees : List TokenTree) : Level.Proper (ofTrees trees).levels := by
  refine Level.Proper.settle fun l hl => ?_
  rw [List.mem_singleton.1 hl]
  trivial

theorem proper_next (h : Level.Proper i.levels) : Level.Proper i.next.2.levels := by
  unfold Input.next
  split
  · rename_i t rest hr
    exact (h.next? hr).settle
  · exact fun l hl => absurd hl (List.not_mem_nil)

theorem flatten_intoTrees (h : Level.Proper i.levels) :
    TokenStream.flatten i.intoTrees =
      List.zipWith Token.loosenIf i.tokens (Token.unopened 0 i.tokens) := by
  rw [intoTrees, Level.flatten_rebuild, TokenStream.flatten_nil, List.nil_append]
  exact h.flatMap_rebuiltTokens

theorem unopened_tokens {n : Nat} (h : i.At ⟨TokenStream.flatten trees, n⟩) :
    Token.unopened 0 i.tokens =
      ((TokenStream.openings 0 trees).drop n).map (·.any (· < n)) := by
  have hscan := TokenStream.unopened_drop 0 n [] trees
  rw [List.append_nil, Token.unopened, List.append_nil, Nat.zero_add] at hscan
  rw [h.tokens_eq, hscan]

/-- Reading the trees that are rebuilt from what is left gives the tokens that are left, each closing
delimiter loosened whose opening delimiter is read. Rebuilding leaves the input as it is. -/
theorem drain_intoTrees (hi : (Stream.input i).Reachable trees) :
    (TokenSource.drain (ofTrees i.intoTrees)).1 =
        ((TokenStream.flatten trees).mapIdx fun n t =>
          t.loosenIf ((TokenStream.opener? trees n).any (· < i.ordinal))).drop i.ordinal ∧
      ∀ rules marks, Session.read rules marks (.input i) .intoTrees =
        (.ok (.trees i.intoTrees), .input i) := by
  refine ⟨?_, fun rules marks => rfl⟩
  have hproper : Level.Proper i.levels :=
    hi.input_rec (P := fun i => Level.Proper i.levels) (proper_ofTrees trees) proper_next
  obtain ⟨n, h⟩ := hi.input_at
  rw [(at_ofTrees i.intoTrees).drain, List.drop_zero, flatten_intoTrees hproper,
    unopened_tokens h, h.tokens_eq, h.ordinal_eq]
  refine List.ext_getElem? fun k => ?_
  simp only [List.getElem?_zipWith, List.getElem?_drop, List.getElem?_map, List.getElem?_mapIdx,
    TokenStream.opener?]
  have hlen := TokenStream.length_openings 0 trees
  rcases Nat.lt_or_ge (n + k) (TokenStream.flatten trees).length with hlt | hge
  · rw [List.getElem?_eq_getElem hlt, List.getElem?_eq_getElem (hlen ▸ hlt)]
    rfl
  · rw [List.getElem?_eq_none hge]
    rfl

/-- In `( a { b } ) +` with its braces in an invisible group, behind `{`: of the groups that are open
the closing delimiters come back as punctuation. -/
theorem drain_intoTrees_nested :
    let braces : Span := ⟨"<input>", 1, 5, 1, 9, ""⟩
    let all : Span := ⟨"<input>", 1, 1, 1, 11, ""⟩
    let start := ofTrees [.group .parenthesis [.ident "a" .callSite, .group .invisible
      [.group .brace [.ident "b" .callSite] braces] .callSite] all, .punct '+' .alone .callSite]
    (TokenSource.drain (ofTrees start.next.2.next.2.next.2.intoTrees)).1 =
      [.ident "b" .callSite, .punct '\x7d' .alone braces, .punct ')' .alone all,
        .punct '+' .alone .callSite] := by
  intro braces all start
  have hstart : (Stream.input start).Reachable _ := .ofTrees
  exact (drain_intoTrees hstart.next.next.next).1.trans (by decide +kernel)

end Input

end TokenParsing
