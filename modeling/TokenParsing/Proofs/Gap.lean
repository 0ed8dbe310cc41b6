import TokenParsing.Lexeme.Splits

/-!
# Gaps are blanks and comments

What may stand between two lexemes is said here without the recognisers: blanks, block comments and
line comments, one after another (`Gap`). What the lexer skips is such a gap (`Lexeme.gap_spec`).
-/

namespace TokenParsing

/-- The rest of a line behind the mark of a line comment. The line goes on behind a line end that
follows a backslash. -/
inductive LineBody : List Char → Prop
  | nil : LineBody []
  | char {c : Char} {cs : List Char} (hc : c ≠ '\n') (h : LineBody cs) : LineBody (c :: cs)
  | continued {cs : List Char} (h : LineBody cs) : LineBody ('\\' :: '\n' :: cs)

/-- Blanks and comments, in front of the rest of a text. A block comment ends at its first closing
mark. A line comment ends at the end of the text, or at a line end that follows no backslash. -/
inductive Gap : List Char → List Char → Prop
  | nil {rest : List Char} : Gap [] rest
  | blank {c : Char} {g rest : List Char} (hc : c ∈ [' ', '\t', '\n', '\r']) (h : Gap g rest) :
    Gap (c :: g) rest
  | blockComment {body g rest : List Char} (hbody : ¬['*', '/'] <:+: body) (h : Gap g rest) :
    Gap ('/' :: '*' :: (body ++ '*' :: '/' :: g)) rest
  | lineComment {body g rest : List Char} (hbody : LineBody body)
    (hend : ∀ c ∈ (g ++ rest).head?, c = '\n' ∧ body.getLast? ≠ some '\\') (h : Gap g rest) :
    Gap ('/' :: '/' :: (body ++ g)) rest

namespace Lexeme

open Recogniser

variable {cs : List Char} {m : List Char × List Char}

theorem blockCommentTail?_spec (h : blockCommentTail? cs = some m) :
    ∃ body, m.1 = body ++ ['*', '/'] ∧ ¬['*', '/'] <:+: body := by
  fun_induction blockCommentTail? cs generalizing m with
  | case1 => cases h
  | case2 cs =>
    obtain rfl := Option.some.inj h
    exact ⟨[], rfl, by simp⟩
  | case3 c cs hclose ih =>
    obtain ⟨n, hn, rfl⟩ := Option.map_eq_some_iff.1 h
    obtain ⟨body, hbody, hnot⟩ := ih hn
    refine ⟨c :: body, by simp [hbody], fun hinfix => ?_⟩
    rcases List.infix_cons_iff.1 hinfix with ⟨back, hback⟩ | hinfix
    · -- A closing mark that takes in the character would have ended the comment.
      obtain ⟨rfl, rfl⟩ := List.cons.inj hback
      have happ := (blockCommentTail?_splits hn).1
      rw [hbody] at happ
      exact hclose _ rfl happ.symm
    · exact hnot hinfix

theorem lineBody_lineCommentTail (cs : List Char) : LineBody (lineCommentTail cs).1 := by
  fun_induction lineCommentTail cs with
  | case1 => exact .nil
  | case2 cs ih => exact .continued ih
  | case3 cs => exact .nil
  | case4 c cs _ hc ih => exact .char hc ih

theorem lineCommentTail_end (cs : List Char) :
    ∀ c ∈ (lineCommentTail cs).2.head?, c = '\n' ∧ (lineCommentTail cs).1.getLast? ≠ some '\\' := by
  fun_induction lineCommentTail cs with
  | case1 => simp
  | case2 cs ih =>
    intro c hc
    obtain ⟨rfl, hlast⟩ := ih c hc
    refine ⟨rfl, ?_⟩
    rw [extend_fst]
    cases hbody : (lineCommentTail cs).1 with
    | nil => simp
    | cons b body => simpa [hbody] using hlast
  | case3 cs => simp
  | case4 c cs hcontinued hc ih =>
    intro e he
    obtain ⟨rfl, hlast⟩ := ih e he
    refine ⟨rfl, ?_⟩
    rw [extend_fst]
    cases hbody : (lineCommentTail cs).1 with
    | nil =>
      -- A backslash here would have taken the line end with it.
      have happ := lineCommentTail_append cs
      obtain ⟨rest, hrest⟩ := List.head?_eq_some_iff.1 he
      rw [hbody, List.nil_append] at happ
      rw [extend_snd, happ] at hrest
      simpa using fun hslash => hcontinued rest hslash hrest
    | cons b body => simpa [hbody] using hlast

theorem gap_cons {g rest : List Char} (h : gapPiece? cs = some m) (hm : g ++ rest = m.2)
    (hg : Gap g rest) : Gap (m.1 ++ g) rest := by
  unfold gapPiece? at h
  split at h
  · obtain ⟨n, hn, rfl⟩ := Option.map_eq_some_iff.1 h
    obtain ⟨body, hbody, hnot⟩ := blockCommentTail?_spec hn
    simpa [hbody] using Gap.blockComment hnot hg
  · rename_i cs
    obtain rfl := Option.some.inj h
    exact .lineComment (lineBody_lineCommentTail cs) (hm ▸ lineCommentTail_end cs) hg
  · split at h
    · rename_i c cs _ _ hc
      obtain rfl := Option.some.inj h
      exact .blank (by simpa [isGapBlank, or_assoc] using hc) hg
    · cases h
  · cases h

/-- What is skipped in front of a lexeme is a gap. -/
theorem gap_spec (cs : List Char) : Gap (gap cs).1 (gap cs).2 := by
  fun_induction gap cs with
  | case1 => exact .nil
  | case2 cs m h ih => exact gap_cons h (gap_append m.2) ih

end Lexeme

end TokenParsing
