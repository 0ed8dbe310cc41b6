import TokenParsing.Proofs.Scan
import TokenParsing.Proofs.Start

/-!
# Where lexing stops

A text without trees is stopped at by its first character, behind blanks and comments, that no tree
starts with (`Lexeme.StopsAt`): behind the longest piece that is made of trees, a group being a tree only
as a whole. The trees of a text are told here character by character (`Lexeme.Lexes`), where the lexer
goes through the lexemes with a stack of open groups. Behind each opener the two meet: either the group
is read as a whole and the lexer goes on behind it, or the outermost open group is blamed
(`Lexer.Builder.Outcome`).

The report then moves on over white space before it names a character. Since all the blanks that the
lexer knows are skipped before, this is an idle step, unless the character is white space that the lexer
does not know (`tokenize_error`). Then the report is on a later character, which may be quite in order,
or on the end of the text (`tokenize_error_blank`).
-/

namespace TokenParsing

namespace Lexeme

/-- The lexeme is a tree by itself. -/
def Kind.isLeaf : Kind → Bool
  | .opener _ | .closer _ => false
  | _ => true

/-- Some trees stand in front of the rest of a text, with blanks and comments before each lexeme. -/
inductive Lexes : List Char → List Char → Prop
  | nil {cs : List Char} : Lexes cs cs
  | leaf {cs text mid rest : List Char} {kind : Kind}
    (hnext : next? (gap cs).2 = some (kind, text, mid)) (hkind : kind.isLeaf = true)
    (h : Lexes mid rest) : Lexes cs rest
  | group {cs opener inner mid closer behind rest : List Char} {d : Delimiter}
    (hopener : next? (gap cs).2 = some (.opener d, opener, inner)) (hinner : Lexes inner mid)
    (hcloser : next? (gap mid).2 = some (.closer d, closer, behind)) (h : Lexes behind rest) :
    Lexes cs rest

variable {cs mid rest rest' text behind : List Char} {kind : Kind} {d : Delimiter}

theorem split_next? (h : next? (gap cs).2 = some (kind, text, rest)) :
    cs = (gap cs).1 ++ text ++ rest ∧ rest.length < cs.length := by
  have hlength := length_gap_le cs
  refine ⟨?_, Nat.lt_of_lt_of_le (length_next?_lt h) hlength⟩
  rw [List.append_assoc, (next?_splits h).1, gap_append]

theorem split_next?_append {front : List Char}
    (h : next? (gap cs).2 = some (kind, text, front ++ rest)) :
    cs = (gap cs).1 ++ text ++ front ++ rest ∧ rest.length < cs.length := by
  obtain ⟨hcs, hlt⟩ := split_next? h
  rw [List.length_append] at hlt
  refine ⟨?_, Nat.lt_of_le_of_lt (Nat.le_add_left ..) hlt⟩
  rw [List.append_assoc]
  exact hcs

namespace Lexes

theorem suffix (h : Lexes cs rest) : rest <:+ cs := by
  have hbehind {cs text rest : List Char} {kind : Kind}
      (hnext : next? (gap cs).2 = some (kind, text, rest)) : rest <:+ cs :=
    ⟨_, (split_next? hnext).1.symm⟩
  induction h with
  | nil => exact List.suffix_refl _
  | leaf hnext _ _ ih => exact ih.trans (hbehind hnext)
  | group hopener _ hcloser _ ihinner ih =>
    exact ih.trans ((hbehind hcloser).trans (ihinner.trans (hbehind hopener)))

/-! The first lexeme tells what trees there can be. -/

theorem of_none (hnext : next? (gap cs).2 = none) (h : Lexes cs rest) : rest = cs := by
  cases h with
  | nil => rfl
  | leaf hnext' | group hnext' =>
    rw [hnext] at hnext'
    cases hnext'

theorem of_closer (hnext : next? (gap cs).2 = some (.closer d, text, behind)) (h : Lexes cs rest) :
    rest = cs := by
  cases h with
  | nil => rfl
  | leaf hnext' hkind =>
    rw [hnext] at hnext'
    cases hnext'
    cases hkind
  | group hnext' =>
    rw [hnext] at hnext'
    cases hnext'

theorem of_leaf (hnext : next? (gap cs).2 = some (kind, text, behind)) (hkind : kind.isLeaf = true)
    (h : Lexes cs rest) : rest = cs ∨ Lexes behind rest := by
  cases h with
  | nil => exact .inl rfl
  | leaf hnext' _ h =>
    rw [hnext] at hnext'
    cases hnext'
    exact .inr h
  | group hnext' =>
    rw [hnext] at hnext'
    cases hnext'
    cases hkind

theorem of_opener {inner : List Char} (hnext : next? (gap cs).2 = some (.opener d, text, inner))
    (h : Lexes cs rest) : rest = cs ∨ ∃ mid closer behind, Lexes inner mid ∧
      next? (gap mid).2 = some (.closer d, closer, behind) ∧ Lexes behind rest := by
  cases h with
  | nil => exact .inl rfl
  | leaf hnext' hkind =>
    rw [hnext] at hnext'
    cases hnext'
    cases hkind
  | group hnext' hinner hcloser h =>
    rw [hnext] at hnext'
    cases hnext'
    exact .inr ⟨_, _, _, hinner, hcloser, h⟩

/-- There is one way to read trees: one can only go on or stop. -/
theorem linear (h : Lexes cs rest) (h' : Lexes cs rest') : Lexes rest rest' ∨ Lexes rest' rest := by
  induction h generalizing rest' with
  | nil => exact .inl h'
  | leaf hnext hkind h ih =>
    rcases h'.of_leaf hnext hkind with rfl | h'
    · exact .inr (.leaf hnext hkind h)
    · exact ih h'
  | @group cs opener inner mid closer behind rest d hopener hinner hcloser h ihinner ih =>
    rcases h'.of_opener hopener with rfl | ⟨mid', closer', behind', hinner', hcloser', h'⟩
    · exact .inr (.group hopener hinner hcloser h)
    · obtain rfl : mid' = mid :=
        (ihinner hinner').elim (of_closer hcloser) fun hmid => (hmid.of_closer hcloser').symm
      rw [hcloser] at hcloser'
      cases hcloser'
      exact ih h'

theorem unique_closer {mid' text' behind' : List Char} {d' : Delimiter} (h : Lexes cs mid)
    (hcloser : next? (gap mid).2 = some (.closer d, text, behind)) (h' : Lexes cs mid')
    (hcloser' : next? (gap mid').2 = some (.closer d', text', behind')) : mid' = mid :=
  (h.linear h').elim (of_closer hcloser) fun hmid => (hmid.of_closer hcloser').symm

end Lexes

theorem gap_gap (cs : List Char) : gap (gap cs).2 = ([], (gap cs).2) :=
  gap_eq_self (gapPiece?_gap cs)

theorem not_isGapBlank_of_gap {c : Char} (h : (gap cs).2 = c :: rest) : isGapBlank c = false := by
  by_cases hc : c = '/'
  · subst hc
    decide
  · have hpiece := gapPiece?_gap cs
    rw [h] at hpiece
    exact (gapPiece?_of_ne hc rest).1 hpiece

theorem Lexes.of_gap (h : Lexes (gap cs).2 rest) : rest = (gap cs).2 ∨ Lexes cs rest := by
  cases h with
  | nil => exact .inl rfl
  | leaf hnext hkind h =>
    rw [gap_gap] at hnext
    exact .inr (.leaf hnext hkind h)
  | group hnext hinner hcloser h =>
    rw [gap_gap] at hnext
    exact .inr (.group hnext hinner hcloser h)

/-- Trees are read in front of the offset, as far as they go, and blanks and comments behind them. No
tree starts with the character that stands there. -/
structure StopsAt (text : List Char) (o : Nat) (c : Char) : Prop where
  char_eq : text[o]? = some c
  not_blank : isGapBlank c = false
  longest : ∃ rest, Lexes text rest ∧ (gap rest).2 = text.drop o ∧
    ∀ rest', Lexes text rest' → rest <:+ rest'
  no_tree : ∀ rest, Lexes (text.drop o) rest → rest = text.drop o

end Lexeme

namespace Lexer

open Lexeme

namespace Builder

variable {file : String} {p : Place} {b : Builder} {cs front text rest behind : List Char}
  {kind : Kind} {d : Delimiter}

/-- The trees of the lexemes of a scan, where some are read already. -/
def run (file : String) (b : Builder) (scan : Scan) : Except Stop (List TokenTree) := do
  let b ← scan.lexemes.foldlM (Builder.add file) b
  b.finish scan

theorem run_of_none (h : next? (gap cs).2 = none) :
    b.run file (.ofText p cs) = b.finish ⟨[], p.advance (gap cs).1, (gap cs).2⟩ := by
  rw [Scan.ofText]
  split
  · rfl
  · rename_i hnext
    rw [h] at hnext
    cases hnext

theorem run_of_next? (h : next? (gap cs).2 = some (kind, text, rest)) :
    b.run file (.ofText p cs) =
      b.add file ⟨kind, text, (gap cs).2, p.advance (gap cs).1⟩ >>= fun b' =>
        b'.run file (.ofText (p.advance ((gap cs).1 ++ text)) rest) := by
  rw [Scan.ofText]
  split
  · rename_i hnext
    rw [h] at hnext
    cases hnext
  · rename_i hnext
    rw [h] at hnext
    cases hnext
    rw [Place.advance_append, run, List.foldlM_cons, bind_assoc]
    rfl

theorem add_of_isLeaf {l : Lexeme} (h : l.kind.isLeaf = true) :
    ∃ t, b.add file l = .ok (b.push t) := by
  unfold add
  split
  · exact ⟨_, rfl⟩
  · exact ⟨_, rfl⟩
  · exact ⟨_, rfl⟩
  · rename_i hkind
    rw [hkind] at h
    cases h
  · rename_i hkind
    rw [hkind] at h
    cases h

theorem run_of_leaf (h : next? (gap cs).2 = some (kind, text, rest)) (hleaf : kind.isLeaf = true) :
    ∃ t, b.run file (.ofText p cs) =
      (b.push t).run file (.ofText (p.advance ((gap cs).1 ++ text)) rest) := by
  have hadd : ∃ t, b.add file ⟨kind, text, (gap cs).2, p.advance (gap cs).1⟩ = .ok (b.push t) :=
    add_of_isLeaf hleaf
  obtain ⟨t, ht⟩ := hadd
  refine ⟨t, ?_⟩
  rw [run_of_next? h, ht]
  rfl

theorem add_opener {l : Lexeme} (h : l.kind = .opener d) :
    b.add file l = if maxDepth ≤ b.opened.length then .error .tooDeep
      else .ok ⟨⟨d, l, b.trees⟩ :: b.opened, []⟩ := by
  simp only [add, h]

theorem add_closer {l : Lexeme} {o : Opened} {outer : List Opened} {trees : List TokenTree}
    (h : l.kind = .closer d) :
    add file ⟨o :: outer, trees⟩ l =
      if o.delimiter = d then .ok ⟨outer, o.close file l trees.reverse :: o.before⟩
      else .error (.before (outer.getLastD o).opener.place (outer.getLastD o).opener.source) := by
  simp only [add, h]

/-- What becomes of a text behind the opener of a group: it is read up to the end of the group and goes
on behind it, or groups nest too deeply, or the outermost open group is blamed, because this one does
not end. -/
inductive Outcome (file : String) (p : Place) (cs : List Char) (o : Opened) (outer : List Opened)
    (result : Except Stop (List TokenTree)) : Prop
  | closed {mid closer front behind : List Char} {trees : List TokenTree} (hinner : Lexes cs mid)
    (hcloser : next? (gap mid).2 = some (.closer o.delimiter, closer, behind))
    (hcs : cs = front ++ behind)
    (hresult : result = run file ⟨outer, trees⟩ (.ofText (p.advance front) behind))
  | tooDeep (hresult : result = .error .tooDeep)
  | unclosed (hresult : result = .error
      (.before (outer.getLastD o).opener.place (outer.getLastD o).opener.source))
    (hnone : ∀ mid closer behind, Lexes cs mid →
      next? (gap mid).2 ≠ some (.closer o.delimiter, closer, behind))

namespace Outcome

variable {o : Opened} {outer : List Opened} {result : Except Stop (List TokenTree)}

/-- A text goes the way of what stands behind its first tree. -/
theorem of_behind (h : Outcome file (p.advance front) behind o outer result)
    (hcs : cs = front ++ behind) (hon : ∀ mid, Lexes behind mid → Lexes cs mid)
    (hback : ∀ mid closer rest, Lexes cs mid →
      next? (gap mid).2 = some (.closer o.delimiter, closer, rest) → Lexes behind mid) :
    Outcome file p cs o outer result := by
  cases h with
  | closed hinner hcloser hbehind hresult =>
    rw [← Place.advance_append] at hresult
    exact .closed (hon _ hinner) hcloser (by rw [hcs, hbehind, List.append_assoc]) hresult
  | tooDeep hresult => exact .tooDeep hresult
  | unclosed hresult hnone =>
    exact .unclosed hresult fun mid closer rest hmid hcloser =>
      hnone mid closer rest (hback mid closer rest hmid hcloser) hcloser

theorem of_leaf (hnext : next? (gap cs).2 = some (kind, text, rest)) (hleaf : kind.isLeaf = true)
    (h : Outcome file (p.advance ((gap cs).1 ++ text)) rest o outer result) :
    Outcome file p cs o outer result := by
  refine h.of_behind (split_next? hnext).1 (fun mid hmid => .leaf hnext hleaf hmid)
    fun mid closer behind hmid hcloser => (hmid.of_leaf hnext hleaf).resolve_left ?_
  rintro rfl
  rw [hnext] at hcloser
  cases hcloser
  cases hleaf

/-- A group within a group: if it is read as a whole, the other one goes on behind it. -/
theorem of_opener (hnext : next? (gap cs).2 = some (.opener d, text, rest)) {inner : Opened}
    (hinner : inner.delimiter = d)
    (h : Outcome file (p.advance ((gap cs).1 ++ text)) rest inner (o :: outer) result)
    (hgo : ∀ front behind trees, behind.length < cs.length →
      Outcome file (p.advance front) behind o outer
        (run file ⟨o :: outer, trees⟩ (.ofText (p.advance front) behind))) :
    Outcome file p cs o outer result := by
  subst hinner
  have hhead (closer behind : List Char) :
      next? (gap cs).2 ≠ some (.closer o.delimiter, closer, behind) := by
    rw [hnext]
    exact nofun
  cases h with
  | @closed mid closer front behind trees hinner hcloser hrest hresult =>
    -- the inner group is one tree of the outer one, which goes on behind it
    obtain ⟨hcs, hbehind⟩ := split_next?_append (hrest ▸ hnext)
    rw [hresult, ← Place.advance_append]
    refine (hgo _ behind trees hbehind).of_behind hcs
      (fun mid hmid => .group hnext hinner hcloser hmid) fun mid' closer' rest' hmid hcloser' => ?_
    rcases hmid.of_opener hnext with rfl | ⟨m, t, r, hm, ht, hmid⟩
    · exact absurd hcloser' (hhead _ _)
    · rw [hinner.unique_closer hcloser hm ht, hcloser] at ht
      cases ht
      exact hmid
  | tooDeep hresult => exact .tooDeep hresult
  | unclosed hresult hnone =>
    rw [List.getLastD_cons] at hresult
    refine .unclosed hresult fun mid closer behind hmid hcloser => ?_
    rcases hmid.of_opener hnext with rfl | ⟨m, t, r, hm, ht, -⟩
    · exact hhead _ _ hcloser
    · exact hnone m t r hm ht

end Outcome

theorem outcome (file : String) (p : Place) (cs : List Char) (o : Opened) (outer : List Opened)
    (trees : List TokenTree) :
    Outcome file p cs o outer (run file ⟨o :: outer, trees⟩ (.ofText p cs)) := by
  -- On the length of the text: an inner group is gone through first, then what stands behind it.
  induction hn : cs.length using Nat.strong_induction_on generalizing p cs o outer trees with
  | _ n ih =>
    subst hn
    match hnext : next? (gap cs).2 with
    | none =>
      refine .unclosed ?_ fun mid closer behind hmid hcloser => ?_
      · rw [run_of_none hnext, finish, List.getLast?_cons, List.getLastD_eq_getLast?]
      · rw [hmid.of_none hnext, hnext] at hcloser
        cases hcloser
    | some (kind, text, rest) =>
      have hlt := (split_next? hnext).2
      by_cases hleaf : kind.isLeaf = true
      · obtain ⟨t, ht⟩ := run_of_leaf (b := ⟨o :: outer, trees⟩) hnext hleaf
        rw [ht]
        exact .of_leaf hnext hleaf (ih _ hlt _ rest o outer (t :: trees) rfl)
      · rw [run_of_next? hnext]
        cases kind with
        | literal | ident | punct => simp [Kind.isLeaf] at hleaf
        | closer d =>
          rw [add_closer rfl]
          split
          · rename_i hd
            exact .closed .nil (hd ▸ hnext) (split_next? hnext).1 rfl
          · rename_i hd
            refine .unclosed rfl fun mid closer behind hmid hcloser => ?_
            rw [hmid.of_closer hnext, hnext] at hcloser
            cases hcloser
            exact hd rfl
        | opener d =>
          rw [add_opener rfl]
          split
          · exact .tooDeep rfl
          · exact .of_opener hnext rfl (ih _ hlt _ rest ⟨d, _, trees⟩ (o :: outer) [] rfl)
              fun front behind trees' hbehind => ih _ hbehind _ behind o outer trees' rfl

/-- The lexer stops in front of the text behind the trees that can be read, and behind the blanks and
comments there. -/
inductive Stopped (p : Place) (cs : List Char) : Stop → Prop
  | intro {front rest : List Char} (hcs : cs = front ++ rest) (h : Lexes cs rest)
    (hlast : ∀ rest', Lexes rest rest' → rest' = rest) (hne : (gap rest).2 ≠ []) :
    Stopped p cs (.before (p.advance (front ++ (gap rest).1)) (gap rest).2)

namespace Stopped

variable {stop : Stop}

theorem of_behind (h : Stopped (p.advance front) behind stop) (hcs : cs = front ++ behind)
    (hon : ∀ mid, Lexes behind mid → Lexes cs mid) : Stopped p cs stop := by
  cases h with
  | @intro front' rest hbehind h hlast hne =>
    rw [← Place.advance_append, ← List.append_assoc]
    exact .intro (by rw [hcs, hbehind, List.append_assoc]) (hon _ h) hlast hne

theorem here (hlast : ∀ rest, Lexes cs rest → rest = cs) (hne : (gap cs).2 ≠ []) :
    Stopped p cs (.before (p.advance (gap cs).1) (gap cs).2) := by
  rw [← List.nil_append (gap cs).1]
  exact .intro rfl .nil hlast hne

end Stopped

theorem stopped {trees : List TokenTree} {stop : Stop}
    (h : run file ⟨[], trees⟩ (.ofText p cs) = .error stop) (hstop : stop ≠ .tooDeep) :
    Stopped p cs stop := by
  -- No group is open in front of a tree, so that `outcome` tells of each group as a whole.
  induction hn : cs.length using Nat.strong_induction_on generalizing p cs trees with
  | _ n ih =>
    subst hn
    match hnext : next? (gap cs).2 with
    | none =>
      rw [run_of_none hnext] at h
      simp only [finish, List.getLast?_nil] at h
      split at h
      · cases h
      · rename_i hne
        cases h
        exact .here (fun rest hrest => hrest.of_none hnext) (by simpa using hne)
    | some (kind, text, rest) =>
      obtain ⟨hcs, hlt⟩ := split_next? hnext
      have hne : (gap cs).2 ≠ [] := by
        intro hnil
        have hlength := length_next?_lt hnext
        rw [hnil] at hlength
        exact Nat.not_lt_zero _ hlength
      by_cases hleaf : kind.isLeaf = true
      · obtain ⟨t, ht⟩ := run_of_leaf (b := ⟨[], trees⟩) hnext hleaf
        rw [ht] at h
        exact (ih _ hlt h rfl).of_behind hcs fun mid hmid => .leaf hnext hleaf hmid
      · rw [run_of_next? hnext] at h
        cases kind with
        | literal | ident | punct => simp [Kind.isLeaf] at hleaf
        | closer d =>
          cases h
          exact .here (fun rest hrest => hrest.of_closer hnext) hne
        | opener d =>
          have hdepth : ¬maxDepth ≤ (⟨[], trees⟩ : Builder).opened.length := by simp [maxDepth]
          rw [add_opener rfl, if_neg hdepth] at h
          let l : Lexeme := ⟨.opener d, text, (gap cs).2, p.advance (gap cs).1⟩
          change run file ⟨[⟨d, l, trees⟩], []⟩ (.ofText (p.advance ((gap cs).1 ++ text)) rest) = _ at h
          cases outcome file (p.advance ((gap cs).1 ++ text)) rest ⟨d, l, trees⟩ [] [] with
          | @closed mid closer front behind trees' hinner hcloser hrest hresult =>
            obtain ⟨hcs, hbehind⟩ := split_next?_append (hrest ▸ hnext)
            rw [hresult, ← Place.advance_append] at h
            exact (ih _ hbehind h rfl).of_behind hcs fun mid' hmid => .group hnext hinner hcloser hmid
          | tooDeep hresult =>
            rw [hresult] at h
            cases h
            exact absurd rfl hstop
          | unclosed hresult hnone =>
            rw [hresult] at h
            cases h
            refine .here (fun mid hmid => (hmid.of_opener hnext).resolve_right ?_) hne
            rintro ⟨m, t, r, hm, ht, -⟩
            exact hnone m t r hm ht

end Builder

end Lexer

/-- What is said of a character that no tree starts with. -/
def LexError.blame (c : Char) : String :=
  let sign := "`" ++ c.toString ++ "`"
  if c ∈ [')', ']', '\x7d'] then "unmatched close delimiter " ++ sign
  else if c ∈ ['(', '[', '\x7b'] then "unclosed delimiter " ++ sign
  else if c ∈ ['"', '\''] then "unterminated literal starting with " ++ sign
  else "unknown character " ++ sign

theorem LexError.message_eq {e : LexError} {c : Char} (h : e.cause = .stopped (some c)) :
    e.message = blame c := by
  have hcloser : isUnmatched (some c) = true ↔ c ∈ [')', ']', '\x7d'] := by
    unfold isUnmatched Delimiter.ofCloser?
    dsimp only
    split <;> simp_all
  have hopener : ((some c).bind Delimiter.ofOpener?).isSome = true ↔ c ∈ ['(', '[', '\x7b'] := by
    unfold Option.bind Delimiter.ofOpener?
    dsimp only
    split <;> simp_all
  have hquote : (some c = some '"' ∨ some c = some '\'') ↔ c ∈ ['"', '\''] := by simp
  simp only [message, h, blame, hcloser, hopener, hquote]
  rfl

namespace Lexer

/-- The report is on the first character, at the offset or behind it, that is no white space. -/
theorem firstSpan_ofOffset (file : String) {text : List Char} {o : Nat} (ho : o ≤ text.length) :
    let place := o + ((text.drop o).takeWhile Text.isBlank).length
    firstSpan file (.ofOffset text o) (text.drop o) =
        .between file text place (min (place + 1) text.length) ∧
      ((text.drop o).dropWhile Text.isBlank).head? = text[place]? := by
  have happ := List.takeWhile_append_dropWhile (p := Text.isBlank) (l := text.drop o)
  simp only [firstSpan]
  generalize (text.drop o).takeWhile Text.isBlank = blanks at happ ⊢
  generalize (text.drop o).dropWhile Text.isBlank = rest at happ ⊢
  have hlength := congrArg List.length happ
  rw [List.length_append, List.length_drop] at hlength
  have hplace : o + blanks.length ≤ text.length := by omega
  have hrest : rest = text.drop (o + blanks.length) := by
    rw [← List.drop_drop, ← happ, List.drop_left]
  have hblanks : text.take (o + blanks.length) = text.take o ++ blanks := by
    rw [List.take_add, ← happ, List.take_left]
  have hadvance : (Place.ofOffset text o).advance blanks = .ofOffset text (o + blanks.length) := by
    rw [← Place.start_advance_take ho, ← Place.advance_append, ← hblanks,
      Place.start_advance_take hplace]
  -- at the end of the text there is no character left, and the span is empty
  have hfirst : rest.take 1 =
      slice text (o + blanks.length) (min (o + blanks.length + 1) text.length) := by
    rw [hrest, slice]
    rcases Nat.lt_or_ge (o + blanks.length) text.length with hlt | hge
    · rw [show min (o + blanks.length + 1) text.length - (o + blanks.length) = 1 by omega]
    · rw [List.drop_eq_nil_of_le hge, List.take_nil, List.take_nil]
  refine ⟨?_, by rw [hrest, List.head?_drop]⟩
  rw [hadvance, hfirst]
  exact Place.span_ofOffset file (by omega) (Nat.min_le_right ..)

end Lexer

theorem Lexer.Builder.Stopped.exists_stopsAt {text : List Char} {stop : Stop}
    (h : Stopped .start text stop) : ∃ o c, Lexeme.StopsAt text o c ∧
      stop = .before (.ofOffset text o) (text.drop o) := by
  cases h with
  | @intro front rest hcs h hlast hne =>
    obtain ⟨c, source, hsource⟩ := List.exists_cons_of_ne_nil hne
    have htext : text = (front ++ (Lexeme.gap rest).1) ++ (Lexeme.gap rest).2 := by
      rw [List.append_assoc, Lexeme.gap_append, hcs]
    let o := (front ++ (Lexeme.gap rest).1).length
    have hdrop : text.drop o = (Lexeme.gap rest).2 := by rw [htext, List.drop_left]
    have hle : o ≤ text.length := by
      rw [htext, List.length_append]
      exact Nat.le_add_right ..
    have hplace : Place.start.advance (front ++ (Lexeme.gap rest).1) = .ofOffset text o := by
      rw [← Place.start_advance_take hle, htext, List.take_left]
    refine ⟨o, c, ⟨?_, Lexeme.not_isGapBlank_of_gap hsource, ⟨rest, h, hdrop.symm, ?_⟩, ?_⟩, ?_⟩
    · rw [← List.head?_drop, hdrop, hsource, List.head?_cons]
    · intro rest' h'
      rcases h.linear h' with h' | h'
      · obtain rfl := hlast rest' h'
        exact List.suffix_refl _
      · exact h'.suffix
    · intro rest' h'
      rw [hdrop] at h' ⊢
      rcases h'.of_gap with heq | hback
      · exact heq
      · -- Nothing was read, so that there is no gap either.
        obtain rfl := hlast rest' hback
        exact h'.suffix.eq_of_length_le (Lexeme.length_gap_le _)
    · rw [hplace, hdrop]

/-- Where a text has no trees, and not for the depth of its groups, lexing stops at a character that no
tree starts with. Unless it is white space the report is on this character and tells its kind. It is on
the next character that is none, or on the end of the text, if it is white space, and none of the blanks
that may stand between lexemes. -/
theorem tokenize_error {file text : String} {e : LexError} (h : tokenize file text = .error e)
    (hdepth : e.cause ≠ .tooDeep) :
    ∃ o c, Lexeme.StopsAt text.toList o c ∧
      (Text.isBlank c = false →
        e.span = .between file text.toList o (o + 1) ∧ e.message = LexError.blame c) ∧
      (Text.isBlank c = true →
        let place := o + ((text.toList.drop o).takeWhile Text.isBlank).length
        o < place ∧ e.cause = .stopped text.toList[place]? ∧
          e.span = .between file text.toList place (min (place + 1) text.toList.length)) := by
  unfold tokenize at h
  cases hassemble : Lexer.assemble file (Scan.ofText .start text.toList) with
  | ok trees =>
    rw [hassemble] at h
    cases h
  | error stop =>
    rw [hassemble] at h
    cases h
    have hstop : stop ≠ .tooDeep := by
      rintro rfl
      exact hdepth rfl
    obtain ⟨o, c, hstops, rfl⟩ := (Lexer.Builder.stopped hassemble hstop).exists_stopsAt
    have hlt : o < text.toList.length := (List.getElem?_eq_some_iff.1 hstops.char_eq).1
    -- the lexer stops in front of a character, but white space there is not what the report is on
    obtain ⟨hspan, hhead⟩ := Lexer.firstSpan_ofOffset file (Nat.le_of_lt hlt)
    obtain ⟨rest, hrest⟩ : ∃ rest, text.toList.drop o = c :: rest := by
      have hc := hstops.char_eq
      rw [← List.head?_drop] at hc
      exact List.head?_eq_some_iff.1 hc
    refine ⟨o, c, hstops, fun hblank => ?_, fun hblank => ?_⟩
    · have hnone : (text.toList.drop o).takeWhile Text.isBlank = [] := by simp [hrest, hblank]
      rw [hnone, List.length_nil, Nat.add_zero] at hspan hhead
      refine ⟨hspan.trans ?_, LexError.message_eq ?_⟩
      · rw [Nat.min_eq_left hlt]
      · show LexError.Cause.stopped _ = _
        rw [hhead, hstops.char_eq]
    · have hpos : 0 < ((text.toList.drop o).takeWhile Text.isBlank).length := by simp [hrest, hblank]
      exact ⟨by omega, congrArg _ hhead, hspan⟩

/-- The group behind the comment is not closed by the bracket, and is blamed as a whole. -/
theorem tokenize_error_unclosed :
    let text := "a /* ) */ ( b ]"
    ∃ e, tokenize "f" text = .error e ∧ e.message = "unclosed delimiter `(`" ∧
      ∃ o c, Lexeme.StopsAt text.toList o c ∧ e.span = .between "f" text.toList o (o + 1) ∧
        e.message = LexError.blame c := by
  intro text
  let e : LexError := ⟨.stopped (some '('), ⟨"f", 1, 11, 1, 12, "("⟩⟩
  have h : tokenize "f" text = .error e := by
    dsimp only [text, e]
    with_unfolding_all rfl
  obtain ⟨o, c, hstops, hreport, -⟩ := tokenize_error h (by decide)
  have hblanks : text.toList.all (fun c => !Text.isBlank c || Lexeme.isGapBlank c) = true := by
    decide +kernel
  have hc : Text.isBlank c = false := by
    have hblank := List.all_eq_true.1 hblanks c (List.mem_of_getElem? hstops.char_eq)
    simpa [hstops.not_blank] using hblank
  exact ⟨e, h, by decide +kernel, o, c, hstops, hreport hc⟩

/-- Behind `a` stands a no-break space, with which no tree starts. The report is on the `b` behind it,
which is a tree. On a form feed alone the report is on the end of the text. -/
theorem tokenize_error_blank :
    (∃ e, tokenize "f" "a\u00a0b" = .error e ∧ e.message = "unknown character `b`" ∧
      e.span = .between "f" "a\u00a0b".toList 2 3 ∧
      Lexeme.Lexes ("a\u00a0b".toList.drop 2) []) ∧
    ∃ e, tokenize "f" "\x0c" = .error e ∧ e.message = "unmatched close delimiter ``" ∧
      e.span = .between "f" "\x0c".toList 1 1 := by
  have herror {text : String} {e : LexError} (h : (match tokenize "f" text with
      | .error e' => decide (e' = e)
      | .ok _ => false) = true) : tokenize "f" text = .error e := by
    split at h
    · rename_i heq
      rw [heq, of_decide_eq_true h]
    · cases h
  constructor
  · have hnext : Lexeme.next? (Lexeme.gap ("a\u00a0b".toList.drop 2)).2 =
        some (.ident, ['b'], []) := by decide +kernel
    exact ⟨⟨.stopped (some 'b'), ⟨"f", 1, 3, 1, 4, "b"⟩⟩, herror (by decide +kernel),
      by decide +kernel, by decide +kernel, .leaf hnext rfl .nil⟩
  · exact ⟨⟨.stopped none, ⟨"f", 1, 2, 1, 2, ""⟩⟩, herror (by decide +kernel), by decide +kernel,
      by decide +kernel⟩

end TokenParsing
