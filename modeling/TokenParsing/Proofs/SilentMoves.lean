import TokenParsing.Proofs.Cursor

/-!
# Silent moves come to an end

Levels are settled by moves that yield no token (`Level.Silent`): a level that is read and owes nothing
is dropped, or an invisible group is entered. The second adds a level, so it is not their number that
goes down but their weight, which counts what is left in them, and it goes down by one each time. The
tokens stay the same, since what is entered is flattened in place.

So from any levels whatever, settled or not, the silent moves come to an end at the settled levels, after
as many as the weight goes down, and the same tokens are read from there (`Level.rounds_settle`).
-/

namespace TokenParsing

namespace Level

/-- A move that yields no token. -/
inductive Silent : List Level → List Level → Prop
  | drop {e : Enclosure} (he : e.owed? = none) (outer : List Level) : Silent (⟨e, []⟩ :: outer) outer
  | enter (e : Enclosure) (trees rest : List TokenTree) (span : Span) (outer : List Level) :
    Silent (⟨e, .group .invisible trees span :: rest⟩ :: outer)
      (⟨.invisible span, trees⟩ :: ⟨e, rest⟩ :: outer)

/-- So many silent moves lead from the first levels to the second. -/
def Rounds : (count : Nat) → List Level → List Level → Prop
  | 0, levels, last => levels = last
  | count + 1, levels, last => ∃ next, Silent levels next ∧ Rounds count next last

variable {levels next last : List Level} {count : Nat}

theorem move_eq_silent_iff : move levels = .silent next ↔ Silent levels next := by
  constructor
  · intro h
    -- the cases are those of a move; the others yield a token or are the end
    match levels with
    | [] => cases h
    | ⟨e, []⟩ :: outer =>
      cases he : e.owed? with
      | none =>
        simp only [move, he] at h
        cases h
        exact .drop he _
      | some t => simp [move, he] at h
    | ⟨e, t :: rest⟩ :: outer =>
      cases t with
      | group d trees span =>
        cases d with
        | invisible => cases h; exact .enter e trees rest span outer
        | parenthesis | brace | bracket => cases h
      | ident | literal | punct => cases h
  · intro h
    cases h with
    | drop he outer => simp [move, he]
    | enter => rfl

namespace Silent

/-- A level weighs one by itself, and an invisible group two, of which one is for entering it. -/
theorem weight_eq (h : Silent levels next) : totalWeight next + 1 = totalWeight levels := by
  cases h with
  | drop =>
    simp only [totalWeight, weight, TokenStream.weight]
    omega
  | enter =>
    simp only [totalWeight, weight, TokenStream.weight, TokenTree.weight]
    omega

theorem tokens_eq (h : Silent levels next) : next.flatMap tokens = levels.flatMap tokens := by
  rw [← tokens_move levels, move_eq_silent_iff.2 h]
  rfl

theorem settle_eq (h : Silent levels next) : settle levels = settle next :=
  settle_of_silent (move_eq_silent_iff.2 h)

end Silent

namespace Rounds

theorem weight_eq (h : Rounds count levels last) : totalWeight last + count = totalWeight levels := by
  induction count generalizing levels with
  | zero =>
    obtain rfl : levels = last := h
    rfl
  | succ count ih =>
    obtain ⟨next, hnext, hrest⟩ := h
    rw [← hnext.weight_eq, ← ih hrest, Nat.add_assoc]

theorem tokens_eq (h : Rounds count levels last) : last.flatMap tokens = levels.flatMap tokens := by
  induction count generalizing levels with
  | zero =>
    obtain rfl : levels = last := h
    rfl
  | succ count ih =>
    obtain ⟨next, hnext, hrest⟩ := h
    exact (ih hrest).trans hnext.tokens_eq

theorem settle_eq (h : Rounds count levels last) : settle levels = settle last := by
  induction count generalizing levels with
  | zero =>
    obtain rfl : levels = last := h
    rfl
  | succ count ih =>
    obtain ⟨next, hnext, hrest⟩ := h
    exact hnext.settle_eq.trans (ih hrest)

end Rounds

theorem exists_rounds_settle (levels : List Level) : ∃ count, Rounds count levels (settle levels) := by
  fun_induction settle levels with
  | case1 levels next h ih =>
    obtain ⟨count, hcount⟩ := ih
    exact ⟨count + 1, next, move_eq_silent_iff.1 h, hcount⟩
  | case2 levels => exact ⟨0, rfl⟩

end Level

namespace Input

theorem next_tokens (i : Input) :
    i.next.1 = i.tokens.head? ∧ i.next.2.tokens = i.tokens.tail := by
  unfold Input.next
  split
  · rename_i t rest h
    have htokens : i.tokens = t :: rest.flatMap Level.tokens := Level.flatMap_tokens_of_next? h
    rw [htokens]
    exact ⟨rfl, Level.flatMap_tokens_settle rest⟩
  · rename_i h
    have htokens : i.tokens = [] := Level.flatMap_tokens_of_next?_eq_none h
    rw [htokens]
    exact ⟨rfl, rfl⟩

/-- Reading an input to its end gives its tokens. -/
theorem drain_tokens (i : Input) : (TokenSource.drain i).1 = i.tokens := by
  refine @Cursor.drain_eq Input _ (fun i c => i.tokens = c.tokens.drop c.index) i ⟨i.tokens, 0⟩ ?_ rfl
    rfl
  rintro i ⟨tokens, n⟩ h
  obtain ⟨htoken, hrest⟩ := i.next_tokens
  refine ⟨?_, ?_⟩
  · rw [Cursor.next_fst, ← List.head?_drop, ← h]
    exact htoken
  · rw [h, List.tail_drop] at hrest
    rcases Nat.lt_or_ge n tokens.length with hn | hn
    · rw [Cursor.next_of_lt hn]
      exact hrest
    · rw [Cursor.next_of_le hn, List.drop_eq_nil_of_le hn]
      rwa [List.drop_eq_nil_of_le (Nat.le_succ_of_le hn)] at hrest

end Input

namespace Level

/-- From any levels whatever, each run of silent moves is as long as it makes the levels lighter, leaves
the tokens as they are, and goes on to the settled levels. There no silent move is left, and what is read
from there on is the tokens of the levels, innermost first. -/
theorem rounds_settle (levels : List Level) :
    (∀ count next, Rounds count levels next → totalWeight next + count = totalWeight levels ∧
      next.flatMap tokens = levels.flatMap tokens ∧ ∃ more, Rounds more next (settle levels)) ∧
    (∀ next, ¬Silent (settle levels) next) ∧
    (settle levels).flatMap tokens = levels.flatMap tokens ∧
    ∀ ordinal span, (TokenSource.drain (⟨settle levels, ordinal, span⟩ : Input)).1 =
      levels.flatMap tokens := by
  refine ⟨fun count next h => ⟨h.weight_eq, h.tokens_eq, ?_⟩, fun next h => ?_,
    flatMap_tokens_settle levels, fun ordinal span => ?_⟩
  · rw [h.settle_eq]
    exact exists_rounds_settle next
  · exact settled_settle levels next (move_eq_silent_iff.2 h)
  · exact (Input.drain_tokens _).trans (flatMap_tokens_settle levels)

/-- A level that is read, in one that starts with an invisible group around an empty one, in a pair of
parentheses that is read but for `)`: six silent moves lead to that delimiter. -/
theorem rounds_settle_nested :
    let hidden (ts : List TokenTree) : TokenTree := .group .invisible ts .callSite
    let levels : List Level := [⟨.invisible .callSite, []⟩, ⟨.invisible .callSite, [hidden [hidden []]]⟩,
      ⟨.visible ')' .callSite, []⟩, ⟨.outermost, [.ident "a" .callSite]⟩]
    ∃ last, Rounds 6 levels last ∧ totalWeight last + 6 = totalWeight levels ∧
      last.flatMap tokens = [.delim ")" .callSite, .ident "a" .callSite] ∧
      (∃ more, Rounds more last (settle levels)) ∧ ∀ next, ¬Silent (settle levels) next := by
  intro hidden levels
  obtain ⟨hrounds, hsettled, -⟩ := rounds_settle levels
  have hlast : Rounds 6 levels (levels.drop 2) :=
    ⟨_, .drop rfl _, _, .enter .., _, .enter .., _, .drop rfl _, _, .drop rfl _, _, .drop rfl _, rfl⟩
  obtain ⟨hweight, htokens, hmore⟩ := hrounds 6 _ hlast
  exact ⟨_, hlast, hweight, htokens.trans (by decide +kernel), hmore, hsettled⟩

end Level

end TokenParsing
