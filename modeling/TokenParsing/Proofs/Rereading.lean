import Mathlib.Data.List.Chain
import TokenParsing.Proofs.Spelling
import TokenParsing.Proofs.Start

/-!
# Reading a rendering

That a text is read as some tokens (`ReadsAs`) does not depend on their spans, so it can be asked of a
text and of its rendering alike. It is shown lexeme by lexeme that each token is read back at its
place in the rendering: no comment starts there (`ReadsAs.gapPiece?_spell`), the same lexeme is found
(`ReadsAs.next?_spell`), and punctuation is joint as before (`ReadsAs.makes_spell`). Where there is a
space or a closing delimiter behind the token, this is because nothing goes on over a stop. Where
there is neither, the token is joint punctuation or an opening delimiter, and joint punctuation has
the same character behind it as in the text, if no comment stood there (`ReadsAs.behind_joint`).

The one exception is a quote by itself in front of another one, with which it makes a literal
(`Token.Clashes`, `ReadsAs.clash`). So a rendering is read as its tokens exactly if no two of them
clash (`ReadsAs.spell_iff`).
-/

namespace TokenParsing

namespace Lexeme

open Recogniser Text

variable {text rest : List Char} {kind : Kind}

/-- The lexeme with the given text, in front of the rest, makes the token. -/
inductive Makes : Kind → List Char → List Char → Token → Prop
  | literal {text : String} {rest : List Char} {span : Span} :
    Makes .literal text.toList rest (.literal text span)
  | ident {text : String} {rest : List Char} {span : Span} :
    Makes .ident text.toList rest (.ident text span)
  | punct {c : Char} {rest : List Char} {spacing : Spacing} {span : Span}
    (h : spacing = Lexer.spacing (c :: rest)) :
    Makes (.punct c) [c] rest (.punct c spacing span)
  | opener {d : Delimiter} {c : Char} {rest : List Char} {span : Span}
    (h : single? c = some (.opener d)) : Makes (.opener d) [c] rest (.delim c.toString span)
  | closer {d : Delimiter} {c : Char} {rest : List Char} {span : Span}
    (h : single? c = some (.closer d)) : Makes (.closer d) [c] rest (.delim c.toString span)

variable {t : Token}

theorem Makes.text_eq (h : Makes kind text rest t) : t.text.toList = text := by
  cases h with
  | literal | ident => rfl
  | punct | opener | closer => exact String.toList_singleton _

end Lexeme

/-- The text is read as the tokens, and each lexeme and the text behind it are in the relation. -/
inductive ReadsAs (K : Lexeme.Kind → List Char → Prop) : List Char → List Token → Prop
  | nil {cs : List Char} (h : (Lexeme.gap cs).2 = []) : ReadsAs K cs []
  | cons {cs text rest : List Char} {kind : Lexeme.Kind} {t : Token} {ts : List Token}
    (hnext : Lexeme.next? (Lexeme.gap cs).2 = some (kind, text, rest)) (hK : K kind rest)
    (ht : Lexeme.Makes kind text rest t) (h : ReadsAs K rest ts) : ReadsAs K cs (t :: ts)

/-- No comment starts right behind the lexeme if it is punctuation. -/
def Lexeme.Kind.Bare : Lexeme.Kind → List Char → Prop
  | .punct _, rest => (Lexeme.gap rest).1.head? ≠ some '/'
  | _, _ => True

instance (kind : Lexeme.Kind) (rest : List Char) : Decidable (kind.Bare rest) :=
  match kind with
  | .punct _ => inferInstanceAs (Decidable ((Lexeme.gap rest).1.head? ≠ some '/'))
  | .literal | .ident | .opener _ | .closer _ => .isTrue trivial

namespace Lexeme

open Recogniser

variable {cs text rest : List Char} {kind : Kind} {c d : Char} {t : Token} {ts : List Token}

theorem gapPiece?_of_isPunct (hd : isPunct d = true) (hbare : (gap (d :: cs)).1.head? ≠ some '/') :
    gapPiece? (d :: cs) = none := by
  by_cases hslash : d = '/'
  · cases hpiece : gapPiece? (d :: cs) with
    | none => rfl
    | some m =>
      -- A comment would be at the start of the gap.
      obtain ⟨happ, hne⟩ := gapPiece?_splits hpiece
      obtain ⟨e, front, hm⟩ := List.exists_cons_of_ne_nil hne
      rw [hm] at happ
      obtain ⟨rfl, -⟩ := List.cons.inj happ
      rw [gap_eq_extend hpiece, extend_fst, hm] at hbare
      exact absurd (congrArg some hslash) hbare
  · exact (gapPiece?_of_ne hslash cs).2 (not_isGapBlank_of_isPunct hd)

theorem Makes.of_isJoint (h : Makes kind text rest t) (hjoint : t.isJoint = true) :
    ∃ c d rest' span, kind = .punct c ∧ text = [c] ∧ t = .punct c .joint span ∧ rest = d :: rest' ∧
      isPunct d = true := by
  cases h with
  | literal | ident | opener | closer => cases hjoint
  | @punct c rest spacing span h =>
    cases spacing with
    | alone => cases hjoint
    | joint =>
      cases rest with
      | nil => cases h
      | cons d rest =>
        refine ⟨c, d, rest, span, rfl, rfl, rfl, rfl, ?_⟩
        unfold Lexer.spacing at h
        split at h
        · assumption
        · cases h

theorem Makes.closes?_eq_none (h : Makes kind text rest t) (hd : text.head? = some d)
    (hpunct : isPunct d = true) : t.closes? = none := by
  cases h with
  | literal | ident | punct => rfl
  | opener h | closer h =>
    obtain rfl := Option.some.inj hd
    rw [single?_of_isPunct hpunct] at h
    cases h

theorem Makes.opens? (h : Makes kind text rest t) :
    t.opens? = none ∨ ∃ d c, kind = .opener d ∧ text = [c] ∧ single? c = some (.opener d) := by
  cases h with
  | literal | ident | punct => exact .inl rfl
  | @opener d c _ _ h => exact .inr ⟨d, c, rfl, rfl, h⟩
  | @closer d c rest span h =>
    refine .inl ?_
    rw [Token.opens?_delim, (single?_eq_closer h).2]

theorem Makes.closes? (h : Makes kind text rest t) :
    t.closes? = none ∨ t.opens? = none ∧ t.isJoint = false ∧ ∃ c, text = [c] := by
  cases h with
  | literal | ident | punct => exact .inl rfl
  | @opener d c rest span h =>
    refine .inl ?_
    rw [Token.closes?_delim, (single?_eq_opener h).2]
  | @closer d c rest span h =>
    refine .inr ⟨?_, rfl, c, rfl⟩
    rw [Token.opens?_delim, (single?_eq_closer h).2]

theorem spacing_of_stops (c : Char) (h : Stops rest) : Lexer.spacing (c :: rest) = .alone := by
  cases rest with
  | nil => rfl
  | cons d rest =>
    have hd : isPunct d = false := NoStop.not (by decide) (stops_cons.1 h)
    simp [Lexer.spacing, hd]

end Lexeme

theorem pair_infix_append {a b : Char} {x y : List Char} (h : [a, b] <:+: x ++ y) :
    [a, b] <:+: x ∨ [a, b] <:+: y ∨ x.getLast? = some a ∧ y.head? = some b := by
  induction x with
  | nil => exact .inr (.inl h)
  | cons c x ih =>
    rw [List.cons_append, List.infix_cons_iff] at h
    rcases h with ⟨back, hback⟩ | h
    · obtain ⟨rfl, hxy⟩ := List.cons.inj hback
      cases x with
      | nil => exact .inr (.inr ⟨rfl, by rw [List.nil_append] at hxy; rw [← hxy]; rfl⟩)
      | cons e x =>
        obtain ⟨rfl, -⟩ := List.cons.inj hxy
        exact .inl (List.prefix_append [a, b] x).isInfix
    · rcases ih h with h | h | ⟨hlast, hhead⟩
      · exact .inl (List.infix_cons h)
      · exact .inr (.inl h)
      · refine .inr (.inr ⟨?_, hhead⟩)
        rw [List.getLast?_cons, hlast]
        rfl

namespace Token

theorem gapTo_cases (t u : Token) : t.gapTo u = [] ∨ t.gapTo u = [' '] := by
  unfold gapTo Delimiter.inset
  grind

theorem spellBehind_cases (t : Token) (ts : List Token) :
    t.spellBehind ts = spell ts ∨ t.spellBehind ts = ' ' :: spell ts := by
  cases ts with
  | nil => exact .inl rfl
  | cons u us =>
    rw [spellBehind_cons]
    exact (t.gapTo_cases u).imp (fun h => by rw [h]; rfl) fun h => by rw [h]; rfl

theorem infix_of_spellBehind {t : Token} {ts : List Token}
    (h : ['*', '/'] <:+: t.spellBehind ts) : ['*', '/'] <:+: spell ts := by
  rcases t.spellBehind_cases ts with heq | heq
  · rwa [heq] at h
  · rw [heq, List.infix_cons_iff] at h
    exact h.resolve_left fun hprefix => by simp at hprefix

theorem stops_spellBehind {t : Token} (ts : List Token) (hopens : t.opens? = none)
    (hjoint : t.isJoint = false) : Stops (t.spellBehind ts) := by
  cases ts with
  | nil => exact stops_nil
  | cons u us =>
    unfold spellBehind
    cases hcloses : u.closes? with
    | none =>
      rw [gapTo_of_none hopens hcloses, hjoint]
      exact stops_cons.2 (.inl rfl)
    | some d =>
      rw [gapTo_of_closes? hcloses]
      cases u with
      | ident | literal | punct => cases hcloses
      | delim s span =>
        obtain ⟨c, hc, hd⟩ := Option.bind_eq_some_iff.1 hcloses
        obtain ⟨cs, hs⟩ := List.head?_eq_some_iff.1 hc
        show Stops (d.inset ++ (s.toList ++ _))
        rw [hs]
        unfold Delimiter.ofCloser? at hd
        split at hd <;> cases hd
        · exact stops_cons.2 (.inr (.inl rfl))
        · exact stops_cons.2 (.inl rfl)
        · exact stops_cons.2 (.inr (.inr rfl))

end Token

variable {cs text rest : List Char} {kind : Lexeme.Kind} {c : Char} {t : Token} {ts : List Token}

/-- Joint punctuation stands directly in front of the next token, which starts with punctuation. -/
theorem ReadsAs.behind_joint (h : ReadsAs Lexeme.Kind.Bare rest ts)
    (ht : Lexeme.Makes kind text rest t) (hbare : kind.Bare rest) (hjoint : t.isJoint = true) :
    ∃ d rest', rest = d :: rest' ∧ Lexeme.isPunct d = true ∧ Lexeme.gapPiece? rest = none ∧
      t.spellBehind ts = Token.spell ts ∧ (Token.spell ts).head? = some d := by
  obtain ⟨c, d, rest', span, rfl, rfl, rfl, rfl, hd⟩ := ht.of_isJoint hjoint
  have hpiece := Lexeme.gapPiece?_of_isPunct hd hbare
  refine ⟨d, rest', rfl, hd, hpiece, ?_⟩
  have hgap := Lexeme.gap_eq_self hpiece
  cases h with
  | nil hend =>
    rw [hgap] at hend
    cases hend
  | @cons _ text' rest'' kind' u us hnext _ hu _ =>
    rw [hgap] at hnext
    obtain ⟨happ, hne⟩ := Lexeme.next?_splits hnext
    obtain ⟨e, text', rfl⟩ := List.exists_cons_of_ne_nil hne
    obtain ⟨rfl, -⟩ := List.cons.inj happ
    have hcloses := hu.closes?_eq_none rfl hd
    refine ⟨?_, ?_⟩
    · rw [Token.spellBehind_cons, Token.gapTo_of_none rfl hcloses]
      rfl
    · rw [Token.spell, hu.text_eq]
      rfl

/-- The closing mark of a comment stands in a rendering only if it stands in the text. -/
theorem ReadsAs.infix_of_spell (h : ReadsAs Lexeme.Kind.Bare cs ts)
    (hmark : ['*', '/'] <:+: Token.spell ts) : ['*', '/'] <:+: cs := by
  induction h with
  | nil => simp [Token.spell] at hmark
  | @cons cs text rest kind t ts hnext hbare ht h ih =>
    have hgap := Lexeme.gap_append cs
    have hsplit := (Lexeme.next?_splits hnext).1
    suffices hin : ['*', '/'] <:+: text ++ rest by
      rw [← hgap, ← hsplit]
      exact hin.trans (List.suffix_append _ _).isInfix
    rw [Token.spell, ht.text_eq] at hmark
    rcases pair_infix_append hmark with hin | hin | ⟨hlast, hhead⟩
    · exact hin.trans (List.prefix_append _ _).isInfix
    · exact (ih (Token.infix_of_spellBehind hin)).trans (List.suffix_append _ _).isInfix
    · -- The mark is where two tokens meet, so the first of them is joint punctuation.
      cases hjoint : t.isJoint with
      | true =>
        obtain ⟨d, rest', rfl, -, -, hbehind, hd⟩ := h.behind_joint ht hbare hjoint
        obtain ⟨c, -, -, -, -, rfl, -, -, -⟩ := ht.of_isJoint hjoint
        rw [hbehind, hd] at hhead
        obtain rfl : c = '*' := by simpa using hlast
        obtain rfl : d = '/' := by simpa using hhead
        exact (List.prefix_append ['*', '/'] rest').isInfix
      | false =>
        rcases ht.opens? with hopens | ⟨d, c, rfl, rfl, hc⟩
        · have hslash := Token.stops_spellBehind ts hopens hjoint '/' hhead
          simp [IsStop] at hslash
        · obtain rfl : c = '*' := by simpa using hlast
          cases hc

theorem ReadsAs.punct_first {d : Char} {rest' : List Char}
    (h : ReadsAs Lexeme.Kind.Bare (d :: rest') ts) (hpiece : Lexeme.gapPiece? (d :: rest') = none)
    (hd : Lexeme.isPunct d = true) (hquote : d ≠ '\'') :
    ∃ spacing span us, ts = .punct d spacing span :: us ∧
      Lexeme.Makes (.punct d) [d] rest' (.punct d spacing span) ∧
      (Lexeme.Kind.punct d).Bare rest' ∧ ReadsAs Lexeme.Kind.Bare rest' us := by
  have hgap := Lexeme.gap_eq_self hpiece
  cases h with
  | nil hend =>
    rw [hgap] at hend
    cases hend
  | @cons _ text rest kind u us hnext hbare hu hus =>
    rw [hgap, Lexeme.next?_of_isSingle (Lexeme.isSingle_of_isPunct hd hquote),
      Lexeme.single?_of_isPunct hd] at hnext
    cases hnext
    cases hu with
    | punct h => exact ⟨_, _, us, rfl, .punct h, hbare, hus⟩

/-- No comment starts where a token stands in a rendering. -/
theorem ReadsAs.gapPiece?_spell (h : ReadsAs Lexeme.Kind.Bare rest ts)
    (hpiece : Lexeme.gapPiece? (text ++ rest) = none)
    (hnext : Lexeme.next? (text ++ rest) = some (kind, text, rest))
    (ht : Lexeme.Makes kind text rest t) (hbare : kind.Bare rest) :
    Lexeme.gapPiece? (text ++ t.spellBehind ts) = none := by
  obtain ⟨c, text, rfl⟩ := List.exists_cons_of_ne_nil (Lexeme.next?_splits hnext).2
  by_cases hslash : c = '/'
  · subst hslash
    rw [List.cons_append, Lexeme.next?_of_isSingle (by decide),
      Lexeme.single?_of_isPunct (by decide)] at hnext
    obtain ⟨rfl, rfl⟩ : Lexeme.Kind.punct '/' = kind ∧ text = [] := by simpa using hnext
    cases hjoint : t.isJoint with
    | false =>
      have hopens : t.opens? = none := by
        cases ht
        rfl
      have hstops := Token.stops_spellBehind ts hopens hjoint
      cases hbehind : t.spellBehind ts with
      | nil => rfl
      | cons d cs =>
        rw [hbehind] at hstops
        rcases stops_cons.1 hstops with rfl | rfl | rfl <;> rfl
    | true =>
      obtain ⟨d, rest', rfl, hd, hpiece', hbehind, hhead⟩ := h.behind_joint ht hbare hjoint
      obtain ⟨cs, hspell⟩ := List.head?_eq_some_iff.1 hhead
      rw [hbehind, hspell]
      have hne : d ≠ '/' := by
        rintro rfl
        cases hpiece
      by_cases hstar : d = '*'
      · -- The comment that would start here does not end, as it does not in the text.
        subst hstar
        obtain ⟨spacing, span, us, rfl, -, -, hus⟩ := h.punct_first hpiece' hd (by decide)
        have hcs : (Token.punct '*' spacing span).spellBehind us = cs := by
          simpa [Token.spell, Token.text] using hspell
        have hnot : ¬['*', '/'] <:+: rest' :=
          Lexeme.blockCommentTail?_eq_none.1 (Option.map_eq_none_iff.1 hpiece)
        refine Option.map_eq_none_iff.2 (Lexeme.blockCommentTail?_eq_none.2 fun hmark => hnot ?_)
        rw [← hcs] at hmark
        exact hus.infix_of_spell (Token.infix_of_spellBehind hmark)
      · exact Lexeme.gapPiece?_slash hne hstar cs
  · exact (Lexeme.gapPiece?_of_ne hslash _).2 ((Lexeme.gapPiece?_of_ne hslash _).1 hpiece)

/-- The tokens stand so that a quote by itself and the start of the next one would be read as a
literal, with the space between them. -/
def Token.Clashes (t u : Token) : Prop :=
  (∃ span, t = .punct '\'' .alone span) ∧ u.text.toList.head? = some '\''

/-- A quote by itself starts no literal in a rendering, unless the tokens clash. -/
theorem ReadsAs.char?_spell (h : ReadsAs Lexeme.Kind.Bare rest ts)
    (hliteral : Lexeme.literal? ('\'' :: rest) = none)
    (ht : Lexeme.Makes (.punct '\'') ['\''] rest t) (hbare : (Lexeme.Kind.punct '\'').Bare rest)
    (hclash : ∀ u ∈ ts.head?, ¬t.Clashes u) :
    Lexeme.char? ('\'' :: t.spellBehind ts) = none := by
  have hchar := (Lexeme.literal?_quote rest).symm.trans hliteral
  have hopens : t.opens? = none := by
    cases ht
    rfl
  cases hjoint : t.isJoint with
  | false =>
    have hstops := Token.stops_spellBehind ts hopens hjoint
    refine (Lexeme.char?_eq_none_iff hstops.head?_ne hstops.head?_ne).2 fun d back hback => ?_
    exfalso
    cases h with
    | nil => cases hback
    | @cons _ text' rest' kind' u us hnext _ hu hus =>
      obtain ⟨e, text', rfl⟩ := List.exists_cons_of_ne_nil (Lexeme.next?_splits hnext).2
      have he : e ≠ '\'' := by
        rintro rfl
        refine hclash u rfl ⟨?_, by rw [hu.text_eq]; rfl⟩
        cases ht with
        | @punct _ _ spacing span =>
          cases spacing
          · exact ⟨span, rfl⟩
          · cases hjoint
      rw [Token.spellBehind_cons, Token.spell, hu.text_eq] at hback
      rcases hu.closes? with hcloses | ⟨hopens', hjoint', c, hc⟩
      · rw [Token.gapTo_of_none hopens hcloses, hjoint] at hback
        exact he (List.cons.inj (List.cons.inj hback).2).1
      · -- Behind a closing delimiter there stands no quote but with a space in front.
        obtain ⟨rfl, rfl⟩ := List.cons.inj hc
        have hstops' := Token.stops_spellBehind us hopens' hjoint'
        have hgap : t.gapTo u = [] ∨ t.gapTo u = [' '] := t.gapTo_cases u
        rcases hgap with hgap | hgap <;> rw [hgap] at hback
        · have hquote : u.spellBehind us = '\'' :: back := (List.cons.inj hback).2
          rw [hquote] at hstops'
          exact absurd (stops_cons.1 hstops') (by simp [IsStop])
        · exact he (List.cons.inj (List.cons.inj hback).2).1
  | true =>
    obtain ⟨d, rest', rfl, hd, hpiece, hbehind, hhead⟩ := h.behind_joint ht hbare hjoint
    obtain ⟨cs, hspell⟩ := List.head?_eq_some_iff.1 hhead
    have hplain : d ≠ '\\' ∧ d ≠ '\n' := by
      constructor <;> rintro rfl <;> cases hd
    rw [Lexeme.char?_eq_none_iff (by simpa using hplain.1) (by simpa using hplain.2)] at hchar
    rw [hbehind, hspell, Lexeme.char?_eq_none_iff (by simpa using hplain.1) (by simpa using hplain.2)]
    rintro e back heq
    obtain ⟨rfl, rfl⟩ := List.cons.inj heq
    by_contra hquote
    -- The second character of the rendering is a quote only if the second one of the text is.
    obtain ⟨spacing, span, us, rfl, hu, hbare', hus⟩ := h.punct_first hpiece hd hquote
    have hback : (Token.punct d spacing span).spellBehind us = '\'' :: back := by
      simpa [Token.spell, Token.text] using hspell
    cases hjoint' : (Token.punct d spacing span).isJoint with
    | false =>
      have hstops := Token.stops_spellBehind us rfl hjoint'
      rw [hback] at hstops
      exact absurd (stops_cons.1 hstops) (by simp [IsStop])
    | true =>
      obtain ⟨d', rest'', rfl, -, -, hbehind', hhead'⟩ := hus.behind_joint hu hbare' hjoint'
      rw [← hbehind', hback] at hhead'
      obtain rfl : '\'' = d' := by simpa using hhead'
      exact hquote (hchar d rest'' rfl)

theorem ReadsAs.next?_spell (h : ReadsAs Lexeme.Kind.Bare rest ts)
    (hpiece : Lexeme.gapPiece? (text ++ rest) = none)
    (hnext : Lexeme.next? (text ++ rest) = some (kind, text, rest))
    (ht : Lexeme.Makes kind text rest t) (hbare : kind.Bare rest)
    (hclash : ∀ u ∈ ts.head?, ¬t.Clashes u) :
    Lexeme.next? (text ++ t.spellBehind ts) = some (kind, text, t.spellBehind ts) := by
  rcases Lexeme.next?_cases hnext with ⟨rfl, hm⟩ | ⟨rfl, hm⟩ | ⟨c, rfl, -, hc, hm, -⟩
  · have hstops : Stops (t.spellBehind ts) := by
      cases ht
      exact Token.stops_spellBehind ts rfl rfl
    exact Lexeme.next?_of_literal? (Lexeme.literal?_keeps hm hstops)
  · have hstops : Stops (t.spellBehind ts) := by
      cases ht
      exact Token.stops_spellBehind ts rfl rfl
    have hkeep := Lexeme.ident?_clips.keeps Lexeme.ident?_splits hm hstops
    exact Lexeme.next?_of_ident? (Lexeme.literal?_eq_none_of_ident? hkeep hstops) hkeep
  · by_cases hquote : c = '\''
    · subst hquote
      obtain rfl : Lexeme.Kind.punct '\'' = kind := Option.some.inj hc
      have hchar := h.char?_spell hm ht hbare hclash
      rw [List.singleton_append, Lexeme.next?_quote hchar]
    · rw [List.singleton_append, Lexeme.next?_of_isSingle (Lexeme.isSingle_of_single? hc hquote), hc]
      rfl

theorem ReadsAs.makes_spell (h : ReadsAs Lexeme.Kind.Bare rest ts)
    (ht : Lexeme.Makes kind text rest t) (hbare : kind.Bare rest) :
    Lexeme.Makes kind text (t.spellBehind ts) t := by
  cases hjoint : t.isJoint with
  | true =>
    obtain ⟨d, rest', rfl, hd, -, hbehind, hhead⟩ := h.behind_joint ht hbare hjoint
    obtain ⟨c, -, -, span, rfl, rfl, rfl, -, -⟩ := ht.of_isJoint hjoint
    refine .punct ?_
    simp [Lexer.spacing, hbehind, hhead, hd]
  | false =>
    cases ht with
    | literal => exact .literal
    | ident => exact .ident
    | opener h => exact .opener h
    | closer h => exact .closer h
    | @punct c rest spacing span h' =>
      have hstops := Token.stops_spellBehind ts (t := .punct c spacing span) rfl hjoint
      cases spacing with
      | joint => cases hjoint
      | alone => exact .punct (Lexeme.spacing_of_stops c hstops).symm

theorem ReadsAs.skip_space {K : Lexeme.Kind → List Char → Prop} :
    ReadsAs K (' ' :: cs) ts ↔ ReadsAs K cs ts := by
  have hgap := Lexeme.gap_space cs
  constructor <;> intro h
  · cases h with
    | nil h => exact .nil (hgap ▸ h)
    | cons hnext hK ht h => exact .cons (hgap ▸ hnext) hK ht h
  · cases h with
    | nil h => exact .nil (hgap ▸ h)
    | cons hnext hK ht h => exact .cons (hgap ▸ hnext) hK ht h

theorem ReadsAs.spellBehind_iff {K : Lexeme.Kind → List Char → Prop} :
    ReadsAs K (t.spellBehind ts) ts ↔ ReadsAs K (Token.spell ts) ts := by
  rcases t.spellBehind_cases ts with h | h
  · rw [h]
  · rw [h, skip_space]

theorem ReadsAs.clash {u : Token} (hclash : t.Clashes u)
    (h : ReadsAs (fun _ _ => True) (Token.spell (t :: u :: ts)) (t :: u :: ts)) : False := by
  obtain ⟨⟨span, rfl⟩, hu⟩ := hclash
  obtain ⟨cs, hcs⟩ := List.head?_eq_some_iff.1 hu
  have hcloses : u.closes? = none := by
    cases u with
    | delim => exact (congrArg (·.bind Delimiter.ofCloser?) hu).trans rfl
    | ident | literal | punct => rfl
  have hspell : Token.spell (.punct '\'' .alone span :: u :: ts) =
      '\'' :: ' ' :: '\'' :: (cs ++ u.spellBehind ts) := by
    rw [Token.spell, Token.spellBehind_cons, Token.gapTo_of_none rfl hcloses, Token.spell, hcs]
    simp [Token.text, Token.isJoint]
  have hliteral : Lexeme.literal? ('\'' :: ' ' :: '\'' :: (cs ++ u.spellBehind ts)) =
      some (['\'', ' ', '\''], cs ++ u.spellBehind ts) := Lexeme.literal?_quote _
  rw [hspell] at h
  cases h with
  | cons hnext _ ht _ =>
    rw [Lexeme.gap_eq_self rfl, Lexeme.next?_of_literal? hliteral] at hnext
    cases hnext
    exact absurd ht.text_eq (by simp [Token.text])

/-- A rendering is read as the tokens that it was made from, unless two of them clash. -/
theorem ReadsAs.spell_iff (h : ReadsAs Lexeme.Kind.Bare cs ts) :
    ReadsAs (fun _ _ => True) (Token.spell ts) ts ↔ ts.IsChain fun t u => ¬t.Clashes u := by
  induction h with
  | nil => exact iff_of_true (.nil (by rw [Token.spell, Lexeme.gap_eq_self rfl])) .nil
  | @cons cs text rest kind t ts hnext hbare ht h ih =>
    have hpiece := Lexeme.gapPiece?_gap cs
    rw [← (Lexeme.next?_splits hnext).1] at hpiece hnext
    have hgap := Lexeme.gap_eq_self (h.gapPiece?_spell hpiece hnext ht hbare)
    have hspell : Token.spell (t :: ts) = text ++ t.spellBehind ts := by
      rw [Token.spell, ht.text_eq]
    rw [List.isChain_cons, ← ih]
    -- If the first token clashes with the second one, both sides fail; else it is read, and what is
    -- left to compare is the rest.
    by_cases hclash : ∀ u ∈ ts.head?, ¬t.Clashes u
    · have hnext' := h.next?_spell hpiece hnext ht hbare hclash
      rw [hspell, ← spellBehind_iff, and_iff_right hclash]
      constructor
      · intro hreads
        cases hreads with
        | cons hnext'' _ ht' h' =>
          rw [hgap, hnext'] at hnext''
          cases hnext''
          exact h'
      · exact .cons (by rw [hgap, hnext']) trivial (h.makes_spell ht hbare)
    · refine iff_of_false (fun hreads => ?_) fun hchain => hclash hchain.1
      push Not at hclash
      obtain ⟨u, hu, hclash⟩ := hclash
      obtain ⟨us, rfl⟩ := List.head?_eq_some_iff.1 hu
      exact hreads.clash hclash

end TokenParsing
