import TokenParsing.Lexeme

/-!
# Reading neither drops nor invents characters

Every recogniser of a lexeme splits its text in two (`next?_splits`), and so does every recogniser
of a blank or comment (`gapPiece?_splits`). Hence the gap in front of a lexeme (`gap`) is found by
taking pieces until none is left.
-/

namespace TokenParsing

namespace Lexeme

open Recogniser

theorem run?_splits (first rest : Char → Bool) : Splits (run? first rest) := by
  intro cs m h
  unfold run? at h
  split at h
  · simp at h
  · split at h
    · obtain rfl := Option.some.inj h
      simp
    · simp at h

theorem stringTail?_splits : Splits stringTail? := by
  intro cs m h
  fun_induction stringTail? cs generalizing m with
  | case1 => simp at h
  | case2 cs => obtain rfl := Option.some.inj h; simp
  | case3 => simp at h
  | case4 c cs ih =>
    obtain ⟨n, hn, rfl⟩ := Option.map_eq_some_iff.1 h
    simp [(ih hn).1]
  | case5 c cs _ _ _ ih =>
    obtain ⟨n, hn, rfl⟩ := Option.map_eq_some_iff.1 h
    simp [(ih hn).1]

theorem string?_splits : Splits string? := by
  intro cs m h
  unfold string? at h
  split at h
  · exact stringTail?_splits.extend h
  · simp at h

theorem rawTail?_splits (hashes : List Char) : Splits (rawTail? hashes) := by
  intro cs m h
  induction cs generalizing m with
  | nil => simp [rawTail?] at h
  | cons c cs ih =>
    rw [rawTail?] at h
    split at h
    · rename_i hc
      obtain rfl := Option.some.inj h
      obtain ⟨t, rfl⟩ := List.isPrefixOf_iff_prefix.1 hc.2
      simp
    · obtain ⟨n, hn, rfl⟩ := Option.map_eq_some_iff.1 h
      simp [(ih hn).1]

theorem rawString?_splits : Splits rawString? := by
  intro cs m h
  unfold rawString? at h
  split at h
  · rename_i cs
    dsimp only at h
    split at h
    · rename_i body hbody
      obtain ⟨happ, hne⟩ := (rawTail?_splits _).extend h
      refine ⟨?_, hne⟩
      rw [happ]
      have := List.takeWhile_append_dropWhile (p := (· == '#')) (l := cs)
      rw [hbody] at this
      simpa using this
    · simp at h
  · simp at h

theorem hexEscape?_splits : Splits hexEscape? := by
  intro cs m h
  unfold hexEscape? at h
  split at h
  · split at h
    · obtain rfl := Option.some.inj h
      simp
    · simp at h
  · simp at h

theorem codePointEscape?_splits : Splits codePointEscape? := by
  intro cs m h
  unfold codePointEscape? at h
  split at h
  · rename_i cs
    dsimp only at h
    split at h
    · split at h
      · rename_i rest hrest
        obtain rfl := Option.some.inj h
        have := List.takeWhile_append_dropWhile (p := isHexDigit) (l := cs)
        rw [hrest] at this
        simpa using this
      · simp at h
    · simp at h
  · simp at h

theorem plainEscape?_splits : Splits plainEscape? := by
  intro cs m h
  unfold plainEscape? at h
  split at h
  · split at h
    · simp at h
    · obtain rfl := Option.some.inj h
      simp
  · simp at h

theorem char?_splits : Splits char? := by
  intro cs m h
  unfold char? at h
  split at h
  · exact (hexEscape?_splits.orElse
      (codePointEscape?_splits.orElse plainEscape?_splits)).extend h
  · split at h
    · simp at h
    · obtain rfl := Option.some.inj h
      simp
  · simp at h

theorem radixNumber?_splits : Splits radixNumber? := by
  intro cs m h
  unfold radixNumber? at h
  split at h
  · split at h
    · exact (run?_splits _ _).extend h
    · simp at h
  · simp at h

theorem digits?_splits : Splits digits? := run?_splits _ _

theorem fraction?_splits : Splits fraction? := by
  intro cs m h
  unfold fraction? at h
  split at h
  · exact digits?_splits.extend h
  · simp at h

theorem exponent?_splits : Splits exponent? := by
  intro cs m h
  unfold exponent? at h
  split at h
  · split at h
    · split at h
      · exact digits?_splits.extend h
      · exact digits?_splits.extend h
    · simp at h
  · simp at h

theorem decimalNumber?_splits : Splits decimalNumber? := by
  intro cs m h
  obtain ⟨n, hn, rfl⟩ := Option.map_eq_some_iff.1 h
  obtain ⟨happ, hne⟩ := digits?_splits hn
  obtain ⟨happ₁, hne₁⟩ := fraction?_splits.optionally hne
  obtain ⟨happ₂, hne₂⟩ := exponent?_splits.optionally hne₁
  exact ⟨by rw [happ₂, happ₁, happ], hne₂⟩

theorem word?_splits : Splits word? := run?_splits _ _

theorem number?_splits : Splits number? := by
  intro cs m h
  obtain ⟨n, hn, rfl⟩ := Option.map_eq_some_iff.1 h
  obtain ⟨happ, hne⟩ := (radixNumber?_splits.orElse decimalNumber?_splits) hn
  obtain ⟨happ₁, hne₁⟩ := word?_splits.optionally hne
  exact ⟨by rw [happ₁, happ], hne₁⟩

theorem literal?_splits : Splits literal? :=
  rawString?_splits.byteMarked.orElse <| string?_splits.byteMarked.orElse <|
    char?_splits.byteMarked.orElse number?_splits

theorem rawIdent?_splits : Splits rawIdent? := by
  intro cs m h
  unfold rawIdent? at h
  split at h
  · exact word?_splits.extend h
  · simp at h

theorem ident?_splits : Splits ident? := rawIdent?_splits.orElse word?_splits

theorem next?_splits {cs text rest : List Char} {kind : Kind}
    (h : next? cs = some (kind, text, rest)) : text ++ rest = cs ∧ text ≠ [] := by
  unfold next? at h
  split at h
  · rename_i hm
    obtain ⟨-, rfl⟩ := Prod.mk.inj (Option.some.inj h)
    exact literal?_splits hm
  · rename_i hm
    obtain ⟨-, rfl⟩ := Prod.mk.inj (Option.some.inj h)
    exact ident?_splits hm
  · simp at h
  · obtain ⟨k, -, hk⟩ := Option.map_eq_some_iff.1 h
    obtain ⟨-, rfl, rfl⟩ : k = kind ∧ _ = text ∧ _ = rest := by simpa using hk
    simp

theorem length_next?_lt {cs text rest : List Char} {kind : Kind}
    (h : next? cs = some (kind, text, rest)) : rest.length < cs.length := by
  obtain ⟨happ, hne⟩ := next?_splits h
  have := List.length_pos_iff.2 hne
  rw [← happ, List.length_append]
  omega

theorem blockCommentTail?_splits : Splits blockCommentTail? := by
  intro cs m h
  fun_induction blockCommentTail? cs generalizing m with
  | case1 => simp at h
  | case2 cs => obtain rfl := Option.some.inj h; simp
  | case3 c cs _ ih =>
    obtain ⟨n, hn, rfl⟩ := Option.map_eq_some_iff.1 h
    simp [(ih hn).1]

theorem lineCommentTail_append (cs : List Char) :
    (lineCommentTail cs).1 ++ (lineCommentTail cs).2 = cs := by
  fun_induction lineCommentTail cs <;> simp_all

theorem gapPiece?_splits : Splits gapPiece? := by
  intro cs m h
  unfold gapPiece? at h
  split at h
  · exact blockCommentTail?_splits.extend h
  · obtain rfl := Option.some.inj h
    simp [lineCommentTail_append]
  · split at h
    · obtain rfl := Option.some.inj h
      simp
    · simp at h
  · simp at h

/-- The blanks and comments that a text starts with, and the rest. -/
def gap (cs : List Char) : List Char × List Char :=
  match _h : gapPiece? cs with
  | none => ([], cs)
  | some m => extend m.1 (gap m.2)
termination_by cs.length
decreasing_by exact gapPiece?_splits.length_lt _h

theorem gap_append (cs : List Char) : (gap cs).1 ++ (gap cs).2 = cs := by
  fun_induction gap cs with
  | case1 => simp
  | case2 cs m h ih => simp [ih, (gapPiece?_splits h).1]

theorem length_gap_le (cs : List Char) : (gap cs).2.length ≤ cs.length := by
  conv => rhs; rw [← gap_append cs, List.length_append]
  omega

end Lexeme

end TokenParsing
