import TokenParsing.Proofs.Adjacency

/-!
# Where words end

Identifiers and numbers take in all characters of a word that follow, so that none stands right behind
them (`tokenize_word_end`). A recogniser that goes on as far as its class of characters does leaves
none of that class behind (`Recogniser.Exhausts`).

A number in another base than ten is the exception. Its digits end at the first character that is none
of that base. If this is a decimal digit all the same, no unit can start there, and so the number is
cut off in front of it (`Lexeme.CutsOff`).
-/

namespace TokenParsing

/-! ### Digits are characters of words -/

namespace Text

theorem CharTable.covers_of_within {t u : CharTable} {c : Char}
    (h : t.all (fun r => u.any fun s => s.1 ≤ r.1 && r.2 ≤ s.2) = true)
    (hc : t.covers c = true) : u.covers c = true := by
  obtain ⟨r, hr, hin⟩ := List.any_eq_true.1 hc
  obtain ⟨s, hs, hle⟩ := List.any_eq_true.1 (List.all_eq_true.1 h r hr)
  simp only [Bool.and_eq_true, decide_eq_true_eq] at hin hle
  refine List.any_eq_true.2 ⟨s, hs, ?_⟩
  simp only [Bool.and_eq_true, decide_eq_true_eq]
  omega

theorem isWordChar_of_isDecimal {c : Char} (h : isDecimal c = true) : isWordChar c = true := by
  have halpha : isAlphanumeric c = true := by
    unfold isDecimal at h
    unfold isAlphanumeric
    split at h
    · rename_i hascii
      rw [if_pos hascii, Char.isAlphanum, h, Bool.or_true]
    · rename_i hascii
      rw [if_neg hascii]
      exact CharTable.covers_of_within (by decide +kernel) h
  rw [isWordChar, halpha, Bool.or_true]

end Text

/-! ### Recognisers that go on as far as they can -/

namespace Recogniser

/-- No character of the class stands behind what is found. -/
def Exhausts (p : Char → Bool) (r : Recogniser) : Prop :=
  ∀ ⦃cs m⦄, r cs = some m → ∀ c ∈ m.2.head?, p c = false

namespace Exhausts

variable {p : Char → Bool} {r s : Recogniser}

theorem orElse (hr : Exhausts p r) (hs : Exhausts p s) : Exhausts p (r.orElse s) := by
  intro cs m h
  rcases Option.or_eq_some_iff.1 h with h | ⟨-, h⟩
  · exact hr h
  · exact hs h

theorem behind (hr : Exhausts p r) (q : Char → Bool) : Exhausts p (r.behind q) := by
  intro cs m h
  unfold Recogniser.behind at h
  split at h
  · cases h
  · split at h
    · obtain ⟨n, hn, rfl⟩ := Option.map_eq_some_iff.1 h
      exact fun c hc => hr hn c hc
    · cases h

theorem optionally (hs : Exhausts p s) {m : List Char × List Char}
    (hm : ∀ c ∈ m.2.head?, p c = false) : ∀ c ∈ (s.optionally m).2.head?, p c = false := by
  unfold Recogniser.optionally
  cases h : s m.2 with
  | none => exact hm
  | some n => exact fun c hc => hs h c hc

end Exhausts

end Recogniser

namespace Lexeme

open Recogniser Text

variable {cs text rest : List Char} {c : Char}

theorem run?_exhausts (first last : Char → Bool) : Exhausts last (run? first last) := by
  intro cs m h
  unfold run? at h
  split at h
  · cases h
  · split at h
    · rename_i c cs _
      cases h
      have hnot := List.head?_dropWhile_not last cs
      intro d hd
      rw [Option.mem_def.1 hd] at hnot
      simpa using hnot
    · cases h

theorem digits?_exhausts : Exhausts isDigitOrBar digits? := run?_exhausts _ _

theorem word?_exhausts : Exhausts isWordChar word? := run?_exhausts _ _

theorem ident?_exhausts : Exhausts isWordChar ident? := by
  refine .orElse ?_ word?_exhausts
  rw [rawIdent?_eq]
  exact (word?_exhausts.behind _).behind _

theorem decimalNumber?_exhausts : Exhausts isDigitOrBar decimalNumber? := by
  have hfraction : Exhausts isDigitOrBar fraction? := by
    rw [fraction?_eq]
    exact digits?_exhausts.behind _
  have hexponent : Exhausts isDigitOrBar exponent? := by
    rw [exponent?_eq]
    exact ((digits?_exhausts.behind _).orElse digits?_exhausts).behind _
  intro cs m h
  obtain ⟨n, hn, rfl⟩ := Option.map_eq_some_iff.1 h
  exact hexponent.optionally (hfraction.optionally (digits?_exhausts hn))

/-! ### Numbers -/

/-- The text is a number in another base than ten, without a unit, and the character is a decimal digit
but none of that base. -/
def CutsOff (text : List Char) (c : Char) : Prop :=
  ∃ base digit digits, radixDigit? base = some digit ∧ text = '0' :: base :: digits ∧ digits ≠ [] ∧
    (∀ d ∈ digits, digit d = true) ∧ isDecimal c = true ∧ digit c = false

/-- A number in another base than ten, and all digits of that base that follow. -/
theorem radixNumber?_cutsOff {m : List Char × List Char} (h : radixNumber? cs = some m)
    (hc : c ∈ m.2.head?) (hdecimal : isDecimal c = true) : CutsOff m.1 c := by
  unfold radixNumber? at h
  split at h
  · rename_i base cs
    split at h
    · rename_i digit hdigit
      obtain ⟨n, hn, rfl⟩ := Option.map_eq_some_iff.1 h
      have hend := run?_exhausts digit digit hn c hc
      have hne := (run?_splits digit digit hn).2
      refine ⟨base, digit, n.1, hdigit, rfl, hne, ?_, hdecimal, hend⟩
      unfold run? at hn
      split at hn
      · cases hn
      · split at hn
        · rename_i hfirst
          cases hn
          exact List.forall_mem_cons.2 ⟨hfirst, fun d hd => List.mem_takeWhile_imp hd⟩
        · cases hn
    · cases h
  · cases h

theorem isDecimal_of_word?_eq_none (h : word? cs = none) (hc : c ∈ cs.head?)
    (hword : isWordChar c = true) : isDecimal c = true := by
  obtain ⟨cs, rfl⟩ := List.head?_eq_some_iff.1 hc
  by_contra hdecimal
  have hstart := isWordStart_iff.2 ⟨hword, Bool.eq_false_iff.2 hdecimal⟩
  simp [word?, run?, hstart] at h

theorem number?_cutsOff {m : List Char × List Char} (h : number? cs = some m) (hc : c ∈ m.2.head?)
    (hword : isWordChar c = true) : CutsOff m.1 c := by
  obtain ⟨n, hn, rfl⟩ := Option.map_eq_some_iff.1 h
  unfold Recogniser.optionally at hc ⊢
  cases hunit : word? n.2 with
  | some k =>
    rw [hunit] at hc
    exact absurd hword (by simp [word?_exhausts hunit c hc])
  | none =>
    rw [hunit] at hc
    have hdecimal := isDecimal_of_word?_eq_none hunit hc hword
    rcases Option.or_eq_some_iff.1 hn with hn | ⟨-, hn⟩
    · exact radixNumber?_cutsOff hn hc hdecimal
    · have hend := decimalNumber?_exhausts hn c hc
      simp [isDigitOrBar, hdecimal] at hend

theorem number?_of_literal? {m : List Char × List Char} (h : literal? cs = some m)
    (hm : m.1.head?.any isDecimal = true) : number? cs = some m := by
  obtain ⟨happ, hne⟩ := literal?_splits h
  obtain ⟨d, text, htext⟩ := List.exists_cons_of_ne_nil hne
  rw [htext] at happ hm
  subst happ
  have hd : isDecimal d = true := hm
  have hnone {q : Char} {r : Recogniser} (hr : StartsWith (· = q) r) (hq : isDecimal q = false) :
      r.byteMarked (d :: text ++ m.2) = none := by
    refine hr.byteMarked.eq_none_of_not ?_ _
    rintro (rfl | rfl)
    · exact absurd hd (by decide)
    · exact absurd hd (by simp [hq])
  unfold literal? Recogniser.orElse at h
  rw [hnone rawString?_startsWith (by decide), Option.none_or,
    hnone string?_startsWith (by decide), Option.none_or,
    hnone char?_startsWith (by decide), Option.none_or] at h
  exact h

theorem single?_ne {kind : Kind} (h : single? c = some kind) : kind ≠ .literal ∧ kind ≠ .ident := by
  unfold single? at h
  split at h
  · cases h
    simp
  · cases h
    simp
  · split at h
    · cases h
      simp
    · cases h

/-- Behind an identifier or a number stands a character of a word exactly if it is a number that is cut
off. -/
theorem isWordChar_iff_cutsOff {kind : Kind} (h : next? cs = some (kind, text, rest))
    (hkind : kind = .ident ∨ kind = .literal ∧ text.head?.any isDecimal = true)
    (hc : c ∈ rest.head?) : isWordChar c = true ↔ CutsOff text c := by
  constructor
  · intro hword
    rcases next?_cases h with ⟨rfl, hm⟩ | ⟨rfl, hm⟩ | ⟨d, -, -, hsingle, -⟩
    · rcases hkind with hkind | ⟨-, hdigit⟩
      · cases hkind
      · exact number?_cutsOff (number?_of_literal? hm hdigit) hc hword
    · exact absurd hword (by simp [ident?_exhausts hm c hc])
    · obtain ⟨hliteral, hident⟩ := single?_ne hsingle
      rcases hkind with hkind | ⟨hkind, -⟩
      · exact absurd hkind hident
      · exact absurd hkind hliteral
  · rintro ⟨-, -, -, -, -, -, -, hdecimal, -⟩
    exact isWordChar_of_isDecimal hdecimal

end Lexeme

/-! ### The words of a text -/

/-- The token is an identifier or a number. -/
def Token.isWord : Token → Bool
  | .ident .. => true
  | .literal text _ => text.toList.head?.any Text.isDecimal
  | .punct .. | .delim .. => false

theorem Lexer.Assembled.exists_leaf? {file : String} {ls : List Lexeme} {trees : List TokenTree}
    (h : Assembled file ls trees) {t : Token} (ht : t ∈ TokenStream.flatten trees)
    (hleaf : t.toTree?.isSome = true) : ∃ l ∈ ls, l.leaf? file = some t := by
  induction h with
  | nil => simp at ht
  | @leaf l u tree ls trees hu htree _ ih =>
    rw [TokenStream.flatten_cons, Token.flatten_toTree? htree, List.singleton_append,
      List.mem_cons] at ht
    rcases ht with rfl | ht
    · exact ⟨l, List.mem_cons_self .., hu⟩
    · obtain ⟨m, hm, hmt⟩ := ih ht
      exact ⟨m, List.mem_cons_of_mem _ hm, hmt⟩
  | @group o closer inner ls children trees hopener hcloser _ _ ihinner ih =>
    rw [TokenStream.flatten_cons, Opened.close, TokenTree.flatten, List.mem_append] at ht
    rcases ht with ht | ht
    · have hmem : t ∈ TokenStream.flatten children := by
        split at ht
        · exact ht
        · -- The delimiters of the group are no leaves.
          rw [List.mem_cons, List.mem_append, List.mem_singleton] at ht
          rcases ht with rfl | ht | rfl
          · cases hleaf
          · exact ht
          · cases hleaf
      obtain ⟨m, hm, hmt⟩ := ihinner hmem
      exact ⟨m, by simp [hm], hmt⟩
    · obtain ⟨m, hm, hmt⟩ := ih ht
      exact ⟨m, by simp [hm], hmt⟩

/-- Right behind an identifier or a number stands no character of a word, unless it is a number in
another base than ten, without a unit, and the character a decimal digit that is none of its base. -/
theorem tokenize_word_end {file text : String} {trees : List TokenTree}
    (h : tokenize file text = .ok trees) {t : Token} (ht : t ∈ TokenStream.flatten trees)
    (hword : t.isWord = true) :
    ∃ n, t.span = .between file text.toList n (n + t.text.length) ∧
      ∀ c, text.toList[n + t.text.length]? = some c →
        (Text.isWordChar c = true ↔ Lexeme.CutsOff t.text.toList c) := by
  obtain ⟨hassembled, -⟩ := Lexer.assemble_spec (tokenize_eq_ok.1 h)
  have hleaf : t.toTree?.isSome = true := by
    cases t with
    | ident | literal => rfl
    | punct | delim => cases hword
  obtain ⟨l, hl, hlt⟩ := hassembled.exists_leaf? ht hleaf
  have hstands := Scan.standsIn text.toList l hl
  obtain ⟨front, back, hls⟩ := List.append_of_mem hl
  obtain ⟨hnext, -⟩ := Scan.lexemes_behind .start text.toList hls
  have htext := Lexeme.leaf?_text hstands hlt
  have hlength : t.text.length = l.text.length := by rw [← htext, String.length_toList]
  -- what stands behind the token is what stands behind its lexeme
  have hbehind : text.toList.drop (l.place.offset + t.text.length) = l.behind := by
    rw [Lexeme.behind, hstands.source_eq, List.drop_drop, hlength]
  refine ⟨l.place.offset, ?_, fun c hc => ?_⟩
  · rw [Lexeme.leaf?_span hlt, hstands.span_text, hlength]
  · rw [← List.head?_drop, hbehind] at hc
    rw [htext]
    refine Lexeme.isWordChar_iff_cutsOff hnext ?_ hc
    rcases Lexeme.leaf?_cases hlt with ⟨hkind, rfl⟩ | ⟨hkind, rfl⟩ | ⟨d, -, rfl⟩
    · refine .inr ⟨hkind, ?_⟩
      rw [← htext]
      exact hword
    · exact .inl hkind
    · cases hword

/-- A number with a unit in a group, a word with a numeral that is no digit, and a number in base sixteen
in front of a digit of another script. -/
theorem tokenize_word_end_unit :
    let text := "(0b1_u8) x² 0xf٣"
    let number : Token := .literal "0b1_u8" ⟨"f", 1, 2, 1, 8, "0b1_u8"⟩
    let trees : List TokenTree :=
      [.group .parenthesis [.literal "0b1_u8" ⟨"f", 1, 2, 1, 8, "0b1_u8"⟩]
          ⟨"f", 1, 1, 1, 9, "(0b1_u8)"⟩,
        .ident "x²" ⟨"f", 1, 10, 1, 12, "x²"⟩, .literal "0xf" ⟨"f", 1, 13, 1, 16, "0xf"⟩,
        .literal "٣" ⟨"f", 1, 16, 1, 17, "٣"⟩]
    tokenize "f" text = .ok trees ∧ number ∈ TokenStream.flatten trees ∧ number.isWord = true ∧
      ∃ n, number.span = .between "f" text.toList n (n + number.text.length) ∧
        ∀ c, text.toList[n + number.text.length]? = some c →
          (Text.isWordChar c = true ↔ Lexeme.CutsOff number.text.toList c) := by
  intro text number trees
  have h : tokenize "f" text = .ok trees := by
    dsimp only [text, trees]
    with_unfolding_all rfl
  have hmem : number ∈ TokenStream.flatten trees := by
    simp [trees, number, TokenTree.flatten, Delimiter.marks?]
  have hword : number.isWord = true := by decide +kernel
  exact ⟨h, hmem, hword, tokenize_word_end h hmem hword⟩

/-- The `2` is no digit in base two, and starts no unit. -/
theorem tokenize_word_end_cut :
    let number : Token := .literal "0b1" ⟨"f", 1, 1, 1, 4, "0b1"⟩
    let trees : List TokenTree :=
      [.literal "0b1" ⟨"f", 1, 1, 1, 4, "0b1"⟩, .literal "2" ⟨"f", 1, 4, 1, 5, "2"⟩]
    tokenize "f" "0b12" = .ok trees ∧ number ∈ TokenStream.flatten trees ∧ number.isWord = true ∧
      number.span = .between "f" "0b12".toList 0 (0 + number.text.length) ∧
      "0b12".toList[0 + number.text.length]? = some '2' ∧ Text.isWordChar '2' = true := by
  intro number trees
  refine ⟨?_, ?_, by decide +kernel, by decide +kernel, by decide +kernel, by decide⟩
  · dsimp only [trees]
    with_unfolding_all rfl
  · simp [trees, number, TokenTree.flatten]

end TokenParsing
