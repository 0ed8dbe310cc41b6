import TokenParsing.Input

/-!
# Settling keeps the tokens

A move through the levels yields a token or nothing, and in both cases the tokens of the levels stay
the same (`tokens_move`). Hence settling changes nothing of what is left to be read
(`flatMap_tokens_settle`), and the next token is the first of the tokens (`flatMap_tokens_of_next?`).
Levels that are settled run out exactly when their tokens do (`Settled.eq_nil_iff`).
-/

namespace TokenParsing

/-- The tokens that come of a move and of the levels behind it. -/
def Move.tokens : Move → List Token
  | .finished => []
  | .token t levels => t :: levels.flatMap Level.tokens
  | .silent levels => levels.flatMap Level.tokens

namespace Level

variable {levels rest : List Level} {t : Token}

theorem tokens_move (levels : List Level) : (move levels).tokens = levels.flatMap tokens := by
  unfold move
  split
  · rfl
  · rename_i e outer
    cases h : e.owed? with
    | none => simp [Move.tokens, tokens, h]
    | some t => simp [Move.tokens, tokens, h]
  · rename_i e t rest outer
    cases t with
    | group d trees span =>
      cases h : d.marks? with
      | none => simp [Move.tokens, tokens, Enclosure.owed?, TokenTree.flatten, h]
      | some m => simp [Move.tokens, tokens, Enclosure.owed?, TokenTree.flatten, h]
    | _ => simp [Move.tokens, tokens, TokenTree.flatten]

theorem settle_of_silent (h : move levels = .silent rest) : settle levels = settle rest := by
  rw [settle]
  split
  · rename_i next hm
    rw [h] at hm
    cases hm
    rfl
  · rename_i hm
    exact absurd h (hm rest)

theorem flatMap_tokens_settle (levels : List Level) :
    (settle levels).flatMap tokens = levels.flatMap tokens := by
  fun_induction settle levels with
  | case1 levels next h ih => rw [ih, ← tokens_move levels, h]; rfl
  | case2 => rfl

/-- No move is left that yields no token. -/
def Settled (levels : List Level) : Prop := ∀ next, move levels ≠ .silent next

theorem settled_settle (levels : List Level) : Settled (settle levels) := by
  fun_induction settle levels with
  | case1 _ _ _ ih => exact ih
  | case2 levels h => exact h

theorem flatMap_tokens_of_next? (h : next? levels = some (t, rest)) :
    levels.flatMap tokens = t :: rest.flatMap tokens := by
  fun_induction next? levels with
  | case1 => cases h
  | case2 levels u outer hm =>
    obtain ⟨rfl, rfl⟩ := Prod.mk.inj (Option.some.inj h)
    rw [← tokens_move levels, hm]
    rfl
  | case3 levels next hm ih =>
    rw [← ih h, ← tokens_move levels, hm]
    rfl

theorem flatMap_tokens_of_next?_eq_none (h : next? levels = none) : levels.flatMap tokens = [] := by
  fun_induction next? levels with
  | case1 levels hm => rw [← tokens_move levels, hm]; rfl
  | case2 => cases h
  | case3 levels next hm ih =>
    rw [← tokens_move levels, hm]
    exact ih h

theorem eq_nil_of_move_eq_finished (h : move levels = .finished) : levels = [] := by
  unfold move at h
  split at h
  · rfl
  · split at h <;> cases h
  · split at h <;> try cases h
    split at h <;> cases h

/-- Settled levels run out exactly when their tokens do. -/
theorem Settled.eq_nil_iff (h : Settled levels) : levels = [] ↔ levels.flatMap tokens = [] := by
  refine ⟨fun hl => by rw [hl]; rfl, fun ht => ?_⟩
  have hm := tokens_move levels
  rw [ht] at hm
  cases hmove : move levels with
  | finished => exact eq_nil_of_move_eq_finished hmove
  | token t outer => rw [hmove] at hm; cases hm
  | silent next => exact absurd hmove (h next)

end Level

end TokenParsing
