import TokenParsing.Proofs.Extent

/-!
# What stands at the start of a text

A lexeme is found again in front of another text if that text starts with a stop: a literal stays the
same literal (`literal?_keeps`), and an identifier is no part of a literal there
(`literal?_eq_none_of_ident?`). Delimiters and punctuation are told by themselves from everything else
(`IsSingle`), but for the quote, which starts a literal if the text behind it ends one
(`char?_eq_none_iff`).
-/

namespace TokenParsing

namespace Lexeme

open Recogniser Text

/-! ### Literals and identifiers in front of a stop -/

theorem rawString?_startsWith : StartsWith (· = 'r') rawString? := by
  intro cs m h
  unfold rawString? at h
  split at h
  · exact ⟨_, _, rfl, rfl⟩
  · cases h

theorem string?_startsWith : StartsWith (· = '"') string? := by
  intro cs m h
  unfold string? at h
  split at h
  · exact ⟨_, _, rfl, rfl⟩
  · cases h

theorem char?_startsWith : StartsWith (· = '\'') char? := by
  intro cs m h
  unfold char? at h
  split at h
  · exact ⟨_, _, rfl, rfl⟩
  · exact ⟨_, _, rfl, rfl⟩
  · cases h

theorem run?_startsWith (first rest : Char → Bool) :
    StartsWith (first · = true) (run? first rest) := by
  intro cs m h
  unfold run? at h
  split at h
  · cases h
  · split at h
    · exact ⟨_, _, rfl, by assumption⟩
    · cases h

theorem number?_startsWith : StartsWith (isDecimal · = true) number? := by
  intro cs m h
  obtain ⟨n, hn, -⟩ := Option.map_eq_some_iff.1 h
  rcases Option.or_eq_some_iff.1 hn with hn | ⟨-, hn⟩
  · unfold radixNumber? at hn
    split at hn
    · exact ⟨_, _, rfl, by decide⟩
    · cases hn
  · obtain ⟨k, hk, -⟩ := Option.map_eq_some_iff.1 hn
    exact run?_startsWith _ _ hk

theorem ident?_startsWith : StartsWith (isWordStart · = true) ident? := by
  intro cs m h
  rcases Option.or_eq_some_iff.1 h with h | ⟨-, h⟩
  · unfold rawIdent? at h
    split at h
    · exact ⟨_, _, rfl, by decide⟩
    · cases h
  · exact run?_startsWith _ _ h

/-- The characters that a literal may start with. -/
def StartsLiteral (c : Char) : Prop :=
  c = 'b' ∨ c = 'r' ∨ c = '"' ∨ c = '\'' ∨ isDecimal c = true

theorem literal?_startsWith : StartsWith StartsLiteral literal? := by
  refine .orElse (rawString?_startsWith.byteMarked.mono ?_) <|
    .orElse (string?_startsWith.byteMarked.mono ?_) <|
      .orElse (char?_startsWith.byteMarked.mono ?_) (number?_startsWith.mono ?_)
  all_goals grind [StartsLiteral]

theorem byteMarked_eq_none_of_number? {q : Char} {r : Recogniser} (hr : StartsWith (· = q) r)
    (hq : isDecimal q = false) {cs : List Char} {m : List Char × List Char}
    (h : number? cs = some m) : r.byteMarked cs = none := by
  refine hr.byteMarked.eq_none number?_startsWith (fun c hc => ?_) h
  rcases hc with rfl | rfl
  · decide
  · simp [hq]

/-- A literal is the same in front of any text that stops. -/
theorem literal?_keeps {cs u : List Char} {m : List Char × List Char} (h : literal? cs = some m)
    (hu : Stops u) : literal? (m.1 ++ u) = some (m.1, u) := by
  unfold literal? Recogniser.orElse at h ⊢
  rcases Option.or_eq_some_iff.1 h with h | ⟨-, h⟩
  · rw [rawString?_firm.byteMarked rawString?_splits h u, Option.some_or]
  rcases Option.or_eq_some_iff.1 h with h | ⟨-, h⟩
  · have hkeep := string?_firm.byteMarked string?_splits h u
    have hraw := rawString?_startsWith.byteMarked_eq_none string?_startsWith (by simp) hkeep
    rw [hraw, hkeep, Option.none_or, Option.some_or]
  rcases Option.or_eq_some_iff.1 h with h | ⟨-, h⟩
  · have hkeep := char?_firm.byteMarked char?_splits h u
    have hraw := rawString?_startsWith.byteMarked_eq_none char?_startsWith (by simp) hkeep
    have hstring := string?_startsWith.byteMarked_eq_none char?_startsWith (by simp) hkeep
    rw [hraw, hstring, hkeep, Option.none_or, Option.none_or, Option.some_or]
  · have hkeep := number?_clips.keeps number?_splits h hu
    have hraw := byteMarked_eq_none_of_number? rawString?_startsWith (by decide) hkeep
    have hstring := byteMarked_eq_none_of_number? string?_startsWith (by decide) hkeep
    have hchar := byteMarked_eq_none_of_number? char?_startsWith (by decide) hkeep
    rw [hraw, hstring, hchar, hkeep, Option.none_or, Option.none_or, Option.none_or]

theorem rawString?_eq_some {cs : List Char} {m : List Char × List Char}
    (h : rawString? cs = some m) :
    ∃ hashes body, cs = 'r' :: (hashes ++ '"' :: body) ∧ ∀ c ∈ hashes, c = '#' := by
  unfold rawString? at h
  split at h
  · rename_i cs
    dsimp only at h
    split at h
    · rename_i body hbody
      refine ⟨cs.takeWhile (· == '#'), body, ?_, fun c hc => ?_⟩
      · rw [← hbody, List.takeWhile_append_dropWhile]
      · simpa using List.mem_takeWhile_imp hc
    · cases h
  · cases h

theorem word?_append {c q : Char} {w cs : List Char} (hc : isWordStart c = true)
    (hw : ∀ d ∈ w, isWordChar d = true) (hq : isWordChar q = false) :
    word? (c :: (w ++ q :: cs)) = some (c :: w, q :: cs) := by
  rw [word?, run?, if_pos hc, List.takeWhile_append_of_pos hw, List.dropWhile_append_of_pos hw]
  simp [hq]

theorem not_stops_of_quote {c q : Char} {w cs : List Char} {m : List Char × List Char}
    (hc : isWordStart c = true) (hw : ∀ d ∈ w, isWordChar d = true) (hq : q ∈ ['"', '\'', '#'])
    (hraw : rawIdent? (c :: (w ++ q :: cs)) = none) (h : ident? (c :: (w ++ q :: cs)) = some m) :
    ¬Stops m.2 := by
  have hword : isWordChar q = false ∧ ¬IsStop q := by
    simp only [List.mem_cons, List.not_mem_nil, or_false] at hq
    rcases hq with rfl | rfl | rfl <;> exact ⟨by decide, by simp [IsStop]⟩
  rw [ident?, Recogniser.orElse, hraw, Option.none_or, word?_append hc hw hword.1] at h
  cases h
  exact fun hstops => hword.2 (stops_cons.1 hstops)

theorem rawString?_eq_none_of_ident? {cs : List Char} {m : List Char × List Char}
    (h : ident? cs = some m) (hm : Stops m.2) : rawString? cs = none := by
  cases hraw : rawString? cs with
  | none => rfl
  | some n =>
    obtain ⟨hashes, body, rfl, hhashes⟩ := rawString?_eq_some hraw
    refine absurd hm ?_
    cases hashes with
    | nil => exact not_stops_of_quote (w := []) (by decide) (by simp) (by simp) rfl h
    | cons d hashes =>
      obtain rfl := hhashes d (by simp)
      refine not_stops_of_quote (w := []) (q := '#') (by decide) (by simp) (by simp) ?_ h
      -- Behind the hash there stands another one or the quote, but no word.
      have hword : word? (hashes ++ '"' :: body) = none := by
        cases hashes with
        | nil => rfl
        | cons e hashes =>
          obtain rfl := hhashes e (by simp)
          rfl
      simp [rawIdent?, hword]

/-- What is an identifier in front of a stop is no literal. -/
theorem literal?_eq_none_of_ident? {cs : List Char} {m : List Char × List Char}
    (h : ident? cs = some m) (hm : Stops m.2) : literal? cs = none := by
  have hnumber : number? cs = none :=
    number?_startsWith.eq_none ident?_startsWith
      (fun _ hdecimal hstart => by simp [(isWordStart_iff.1 hstart).2] at hdecimal) h
  have hraw : rawString?.byteMarked cs = none := by
    unfold byteMarked
    split
    · rename_i cs
      cases hraw : rawString? cs with
      | none => rfl
      | some n =>
        obtain ⟨hashes, body, rfl, hhashes⟩ := rawString?_eq_some hraw
        have hr : ∀ d ∈ ['r'], isWordChar d = true := List.forall_mem_singleton.2 (by decide)
        refine absurd hm ?_
        cases hashes with
        | nil => exact not_stops_of_quote (w := ['r']) (by decide) hr (by simp) rfl h
        | cons d hashes =>
          obtain rfl := hhashes d (by simp)
          exact not_stops_of_quote (w := ['r']) (q := '#') (by decide) hr (by simp) rfl h
    · exact rawString?_eq_none_of_ident? h hm
  have hquoted : ∀ {q : Char} {r : Recogniser}, q ∈ ['"', '\''] → StartsWith (· = q) r →
      r.byteMarked cs = none := by
    intro q r hq hr
    unfold byteMarked
    split
    · rename_i cs
      cases hn : r cs with
      | none => rfl
      | some n =>
        obtain ⟨c, cs', rfl, rfl⟩ := hr hn
        exact absurd hm (not_stops_of_quote (w := []) (by decide) (by simp) (by grind) rfl h)
    · refine hr.eq_none ident?_startsWith ?_ h
      rintro c rfl
      simp only [List.mem_cons, List.not_mem_nil, or_false] at hq
      rcases hq with rfl | rfl <;> decide
  rw [literal?, Recogniser.orElse, hraw, Option.none_or, Recogniser.orElse,
    hquoted (by simp) string?_startsWith, Option.none_or, Recogniser.orElse,
    hquoted (by simp) char?_startsWith, Option.none_or, hnumber]

variable {cs text rest u : List Char} {kind : Kind} {c : Char}

/-! ### Gaps and lexemes -/

theorem gapPiece?_gap (cs : List Char) : gapPiece? (gap cs).2 = none := by
  fun_induction gap cs with
  | case1 cs h => exact h
  | case2 cs m h ih => exact ih

theorem gap_eq_self (h : gapPiece? cs = none) : gap cs = ([], cs) := by
  unfold gap
  split
  · rfl
  · rename_i m hm
    rw [h] at hm
    cases hm

theorem gap_eq_extend {m : List Char × List Char} (h : gapPiece? cs = some m) :
    gap cs = extend m.1 (gap m.2) := by
  conv => lhs; unfold gap
  split
  · rename_i hnone
    rw [h] at hnone
    cases hnone
  · rename_i n hn
    obtain rfl := Option.some.inj (h.symm.trans hn)
    rfl

theorem gap_space (cs : List Char) : (gap (' ' :: cs)).2 = (gap cs).2 := by
  have hpiece : gapPiece? (' ' :: cs) = some ([' '], cs) := rfl
  rw [gap_eq_extend hpiece]
  rfl

theorem gapPiece?_of_ne (hc : c ≠ '/') (cs : List Char) :
    gapPiece? (c :: cs) = none ↔ isGapBlank c = false := by
  unfold gapPiece?
  split
  · rename_i h
    exact absurd (List.cons.inj h).1 hc
  · rename_i h
    exact absurd (List.cons.inj h).1 hc
  · rename_i h
    cases h
    simp
  · rename_i h
    cases h

theorem gapPiece?_slash (hc : c ≠ '/') (hc' : c ≠ '*') (cs : List Char) :
    gapPiece? ('/' :: c :: cs) = none := by
  unfold gapPiece?
  split
  · rename_i h
    exact absurd (List.cons.inj (List.cons.inj h).2).1 hc'
  · rename_i h
    exact absurd (List.cons.inj (List.cons.inj h).2).1 hc
  · rename_i h
    cases h
    rfl
  · rfl

theorem blockCommentTail?_eq_none : blockCommentTail? cs = none ↔ ¬['*', '/'] <:+: cs := by
  fun_induction blockCommentTail? cs with
  | case1 => simp
  | case2 cs => simpa using List.infix_append [] ['*', '/'] cs
  | case3 c cs hclose ih =>
    rw [Option.map_eq_none_iff, ih, List.infix_cons_iff, not_or, iff_and_self]
    rintro - ⟨back, hback⟩
    obtain ⟨rfl, hcs⟩ := List.cons.inj hback
    exact hclose back rfl hcs.symm

theorem next?_of_literal? {m : List Char × List Char} (h : literal? cs = some m) :
    next? cs = some (.literal, m) := by
  unfold next?
  rw [h]

theorem next?_of_ident? {m : List Char × List Char} (hliteral : literal? cs = none)
    (h : ident? cs = some m) : next? cs = some (.ident, m) := by
  unfold next?
  rw [hliteral, h]

theorem next?_of_single? (hliteral : literal? (c :: cs) = none) (hident : ident? (c :: cs) = none) :
    next? (c :: cs) = (single? c).map (·, [c], cs) := by
  unfold next?
  rw [hliteral, hident]

theorem next?_cases (h : next? cs = some (kind, text, rest)) :
    (kind = .literal ∧ literal? cs = some (text, rest)) ∨
    (kind = .ident ∧ ident? cs = some (text, rest)) ∨
    ∃ c, text = [c] ∧ cs = c :: rest ∧ single? c = some kind ∧ literal? cs = none ∧
      ident? cs = none := by
  unfold next? at h
  split at h
  · rename_i hm
    cases h
    exact .inl ⟨rfl, hm⟩
  · rename_i hm
    cases h
    exact .inr (.inl ⟨rfl, hm⟩)
  · cases h
  · rename_i c cs hliteral hident
    obtain ⟨k, hk, heq⟩ := Option.map_eq_some_iff.1 h
    cases heq
    exact .inr (.inr ⟨c, rfl, rfl, hk, hliteral, hident⟩)

/-- No literal and no identifier starts with the character. -/
def IsSingle (c : Char) : Prop := ¬StartsLiteral c ∧ isWordStart c = false

theorem next?_of_isSingle (hc : IsSingle c) (cs : List Char) :
    next? (c :: cs) = (single? c).map (·, [c], cs) := by
  have hliteral := literal?_startsWith.eq_none_of_not hc.1 cs
  have hident := ident?_startsWith.eq_none_of_not (ne_true_of_eq_false hc.2) cs
  exact next?_of_single? hliteral hident

/-! ### Single characters -/

theorem literal?_quote (cs : List Char) : literal? ('\'' :: cs) = char? ('\'' :: cs) := by
  have hnumber := number?_startsWith.eq_none_of_not (c := '\'') (by decide) cs
  show Option.or none (Option.or none (Option.or (char? ('\'' :: cs)) (number? ('\'' :: cs)))) = _
  rw [hnumber]
  simp

theorem next?_quote (h : char? ('\'' :: cs) = none) :
    next? ('\'' :: cs) = some (.punct '\'', ['\''], cs) := by
  have hident := ident?_startsWith.eq_none_of_not (c := '\'') (by decide) cs
  rw [next?_of_single? ((literal?_quote cs).trans h) hident]
  rfl

/-- A quote starts a literal if there is another one behind the next character. -/
theorem char?_eq_none_iff (hslash : cs.head? ≠ some '\\') (hline : cs.head? ≠ some '\n') :
    char? ('\'' :: cs) = none ↔ ∀ d back, cs = d :: '\'' :: back → d = '\'' := by
  unfold char?
  split
  · rename_i h
    obtain rfl := (List.cons.inj h).2
    exact absurd rfl hslash
  · rename_i d back hd h
    obtain rfl := (List.cons.inj h).2
    have hd' : d ≠ '\n' := by simpa using hline
    simp [hd']
  · rename_i h
    refine iff_of_true rfl fun d back hcs => ?_
    exact absurd (congrArg _ hcs) (h d back)

instance : DecidablePred StartsLiteral := fun c =>
  inferInstanceAs (Decidable (c = 'b' ∨ c = 'r' ∨ c = '"' ∨ c = '\'' ∨ isDecimal c = true))

instance : DecidablePred IsSingle := fun c =>
  inferInstanceAs (Decidable (¬StartsLiteral c ∧ isWordStart c = false))

theorem of_isPunct {p : Char → Bool} (hp : punctChars.all p = true) (h : isPunct c = true) :
    p c = true := List.all_eq_true.1 hp c (by simpa [isPunct] using h)

theorem single?_eq_punct {d : Char} (h : single? c = some (.punct d)) : c = d ∧ isPunct c = true := by
  unfold single? at h
  split at h
  · cases h
  · cases h
  · split at h
    · cases h
      exact ⟨rfl, by assumption⟩
    · cases h

theorem single?_of_isPunct (h : isPunct c = true) : single? c = some (.punct c) := by
  have hopener : (Delimiter.ofOpener? c).isNone = true :=
    of_isPunct (p := fun c => (Delimiter.ofOpener? c).isNone) (by decide) h
  have hcloser : (Delimiter.ofCloser? c).isNone = true :=
    of_isPunct (p := fun c => (Delimiter.ofCloser? c).isNone) (by decide) h
  rw [single?, Option.isNone_iff_eq_none.1 hopener, Option.isNone_iff_eq_none.1 hcloser]
  exact if_pos h

theorem isSingle_of_isPunct (h : isPunct c = true) (hc : c ≠ '\'') : IsSingle c := by
  have hsingle := of_isPunct (p := fun c => c == '\'' || decide (IsSingle c)) (by decide) h
  simpa [hc] using hsingle

theorem not_isGapBlank_of_isPunct (h : isPunct c = true) : isGapBlank c = false := by
  have hblank := of_isPunct (p := fun c => !isGapBlank c) (by decide) h
  simpa using hblank

theorem single?_eq_opener {d : Delimiter} (h : single? c = some (.opener d)) :
    IsSingle c ∧ Delimiter.ofCloser? c = none := by
  have hc : Delimiter.ofOpener? c = some d := by
    unfold single? at h
    split at h
    · cases h
      assumption
    · cases h
    · split at h <;> cases h
  unfold Delimiter.ofOpener? at hc
  split at hc
  · exact ⟨by decide, rfl⟩
  · exact ⟨by decide, rfl⟩
  · exact ⟨by decide, rfl⟩
  · cases hc

theorem single?_eq_closer {d : Delimiter} (h : single? c = some (.closer d)) :
    IsSingle c ∧ Delimiter.ofOpener? c = none := by
  have hc : Delimiter.ofCloser? c = some d ∧ Delimiter.ofOpener? c = none := by
    unfold single? at h
    split at h
    · cases h
    · cases h
      exact ⟨by assumption, by assumption⟩
    · split at h <;> cases h
  refine ⟨?_, hc.2⟩
  obtain ⟨hc, -⟩ := hc
  unfold Delimiter.ofCloser? at hc
  split at hc
  · decide
  · decide
  · decide
  · cases hc

theorem isSingle_of_single? (h : single? c = some kind) (hc : c ≠ '\'') : IsSingle c := by
  cases kind with
  | opener => exact (single?_eq_opener h).1
  | closer => exact (single?_eq_closer h).1
  | punct => exact isSingle_of_isPunct (single?_eq_punct h).2 hc
  | literal | ident =>
    unfold single? at h
    split at h
    · cases h
    · cases h
    · split at h <;> cases h

end Lexeme

end TokenParsing
