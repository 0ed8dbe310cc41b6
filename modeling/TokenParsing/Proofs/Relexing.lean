import Mathlib.Data.List.Forall2
import TokenParsing.Proofs.Rereading

/-!
# Lexing a rendering

A text is accepted with certain trees if its scan is read as their tokens, and the other way round, up
to the spans (`Scan.readsAs_iff`, `Lexer.assemble_alike`). So the rendering of the trees of a text is
accepted, with the same trees, if it is read as their tokens, which is to say, if none of them clash
(`tokenize_render`).
-/

namespace TokenParsing

open List (Forall₂)

/-- The text behind a lexeme. -/
def Lexeme.behind (l : Lexeme) : List Char := l.source.drop l.text.length

/-- No comment starts right behind punctuation. -/
def Scan.Bare (scan : Scan) : Prop := ∀ l ∈ scan.lexemes, l.kind.Bare l.behind

instance (scan : Scan) : Decidable scan.Bare :=
  inferInstanceAs (Decidable (∀ l ∈ scan.lexemes, l.kind.Bare l.behind))

/-! ### Scans -/

/-- A text is read as the tokens that the lexemes of its scan make. -/
theorem Scan.readsAs_iff {K : Lexeme.Kind → List Char → Prop} (p : Place) (cs : List Char) :
    ∀ ts, ReadsAs K cs ts ↔ (ofText p cs).rest = [] ∧
      Forall₂ (fun l t => K l.kind l.behind ∧ Lexeme.Makes l.kind l.text l.behind t)
        (ofText p cs).lexemes ts := by
  fun_induction ofText p cs with
  | case1 p cs gap place hnext =>
    intro ts
    constructor
    · intro h
      cases h with
      | nil h => exact ⟨h, .nil⟩
      | cons hnext' => cases hnext.symm.trans hnext'
    · rintro ⟨hrest, hts⟩
      cases hts
      exact .nil hrest
  | case2 p cs gap place kind text rest hnext scan ih =>
    have hbehind : gap.2.drop text.length = rest := by
      rw [← (Lexeme.next?_splits hnext).1, List.drop_left]
    intro ts
    constructor
    · intro h
      cases h with
      | nil h =>
        rw [show gap.2 = [] from h] at hnext
        cases hnext
      | cons hnext' hK ht h =>
        cases hnext.symm.trans hnext'
        obtain ⟨hrest, hts⟩ := (ih _).1 h
        refine ⟨hrest, .cons ?_ hts⟩
        rw [Lexeme.behind, hbehind]
        exact ⟨hK, ht⟩
    · rintro ⟨hrest, hts⟩
      cases hts with
      | cons hl hts =>
        rw [Lexeme.behind, hbehind] at hl
        exact .cons hnext hl.1 hl.2 ((ih _).2 ⟨hrest, hts⟩)

namespace Lexeme

variable {file : String} {text : List Char} {l m : Lexeme} {t : Token}

theorem StandsIn.append_behind (h : l.StandsIn text) : l.text ++ l.behind = l.source := by
  obtain ⟨rest, hrest⟩ := h.text_prefix
  rw [behind, ← hrest, List.drop_left]

theorem StandsIn.makes_leaf (h : l.StandsIn text) (ht : l.leaf? file = some t) :
    Makes l.kind l.text l.behind t := by
  have hfits := h.fits
  have hsource := h.append_behind
  unfold leaf? at ht
  dsimp only at ht
  split at ht
  · rename_i hkind
    cases ht
    rw [hkind]
    conv => arg 2; rw [← String.toList_ofList (l := l.text)]
    exact .literal
  · rename_i hkind
    cases ht
    rw [hkind]
    conv => arg 2; rw [← String.toList_ofList (l := l.text)]
    exact .ident
  · rename_i c hkind
    cases ht
    rw [hkind] at hfits ⊢
    have htext : l.text = [c] := hfits
    rw [htext] at hsource ⊢
    refine .punct ?_
    rw [← hsource, List.singleton_append]
  · cases ht

theorem StandsIn.makes_delim (h : l.StandsIn text) {d : Delimiter} {opener closer : Char}
    (hd : d.marks? = some (opener, closer)) (span : Span) :
    (l.kind = .opener d → Makes l.kind l.text l.behind (.delim opener.toString span)) ∧
    (l.kind = .closer d → Makes l.kind l.text l.behind (.delim closer.toString span)) := by
  have hfits := h.fits
  have hsingle : single? opener = some (.opener d) ∧ single? closer = some (.closer d) := by
    cases d <;> cases hd <;> exact ⟨rfl, rfl⟩
  constructor
  all_goals
    intro hkind
    rw [hkind] at hfits ⊢
    obtain ⟨_, _, hmarks, htext⟩ := hfits
    cases hd.symm.trans hmarks
    rw [htext]
  · exact .opener hsingle.1
  · exact .closer hsingle.2

/-- Two lexemes of which the same leaf or delimiter is made, but for its span. -/
structure Alike (l m : Lexeme) : Prop where
  kind_eq : m.kind = l.kind
  text_eq : m.text = l.text
  spacing_eq : ∀ c, l.kind = .punct c → Lexer.spacing m.source = Lexer.spacing l.source

variable {kind kind' : Kind} {word word' rest rest' : List Char}

theorem Makes.single? {mark : String} {span : Span}
    (h : Makes kind word rest (.delim mark span)) :
    ∃ c, word = [c] ∧ Lexeme.single? c = some kind := by
  cases h with
  | opener h | closer h => exact ⟨_, rfl, h⟩

theorem Makes.unique (h : Makes kind word rest t) (h' : Makes kind' word' rest' t) :
    kind' = kind ∧ word' = word ∧
      ∀ c, kind = .punct c → Lexer.spacing (word' ++ rest') = Lexer.spacing (word ++ rest) := by
  have hword : word' = word := h'.text_eq.symm.trans h.text_eq
  cases t with
  | delim =>
    obtain ⟨c, rfl, hc⟩ := h.single?
    obtain ⟨c', rfl, hc'⟩ := h'.single?
    obtain rfl : c' = c := List.singleton_inj.1 hword
    obtain rfl : kind' = kind := Option.some.inj (hc'.symm.trans hc)
    refine ⟨rfl, rfl, ?_⟩
    rintro d rfl
    cases h
  | ident | literal =>
    cases h
    cases h'
    exact ⟨rfl, rfl, fun c hc => nomatch hc⟩
  | punct c spacing span =>
    cases h with
    | punct h =>
      cases h' with
      | punct h' => exact ⟨rfl, rfl, fun _ _ => h'.symm.trans h⟩

theorem Alike.of_makes {text' : List Char} (hl : l.StandsIn text) (hm : m.StandsIn text')
    (h : Makes l.kind l.text l.behind t) (h' : Makes m.kind m.text m.behind t) : l.Alike m := by
  obtain ⟨hkind, htext, hspacing⟩ := h.unique h'
  rw [hl.append_behind, hm.append_behind] at hspacing
  exact ⟨hkind, htext, hspacing⟩

end Lexeme

namespace Lexer

variable {file : String} {text : List Char} {ls : List Lexeme} {trees : List TokenTree}

theorem Assembled.makes (h : Assembled file ls trees) (hls : ∀ l ∈ ls, l.StandsIn text) :
    Forall₂ (fun l t => Lexeme.Makes l.kind l.text l.behind t) ls (TokenStream.flatten trees) := by
  induction h with
  | nil => simp
  | @leaf l t tree ls trees ht htree _ ih =>
    have hrest := ih fun l hl => hls l (by simp [hl])
    rw [TokenStream.flatten_cons, Token.flatten_toTree? htree]
    exact .cons ((hls l (by simp)).makes_leaf ht) hrest
  | @group o closer inner ls children trees hopener hcloser _ _ ihinner ih =>
    have hinner := ihinner fun l hl => hls l (by simp [hl])
    have hrest := ih fun l hl => hls l (by simp [hl])
    obtain ⟨first, last, hmarks, -⟩ := hopener ▸ (hls o.opener (by simp)).fits
    obtain ⟨span, hclose⟩ : ∃ span, o.close file closer children =
      .group o.delimiter children span := ⟨_, rfl⟩
    rw [TokenStream.flatten_cons, hclose, TokenTree.flatten_group hmarks, List.cons_append,
      List.append_assoc, List.singleton_append]
    refine .cons (((hls o.opener (by simp)).makes_delim hmarks span).1 hopener) ?_
    exact List.rel_append hinner
      (.cons (((hls closer (by simp)).makes_delim hmarks span).2 hcloser) hrest)

end Lexer

theorem TokenStream.same_iff {ts us : List TokenTree} :
    same ts us = true ↔ Forall₂ (fun t u => t.same u = true) ts us := by
  induction ts generalizing us with
  | nil => cases us <;> simp [same]
  | cons t ts ih => cases us <;> simp [same, ih]

namespace Lexer

variable {file : String} {b b' c : Builder} {l m : Lexeme} {ls ms : List Lexeme}

/-- Builders with the same groups open and the same trees. -/
structure Builder.Alike (b c : Builder) : Prop where
  opened : Forall₂ (fun o o' : Opened => o'.delimiter = o.delimiter ∧
    Forall₂ (fun t u => t.same u = true) o.before o'.before) b.opened c.opened
  trees : Forall₂ (fun t u => t.same u = true) b.trees c.trees

namespace Builder.Alike

theorem push (h : b.Alike c) {t u : TokenTree} (ht : t.same u = true) :
    (b.push t).Alike (c.push u) := ⟨h.opened, .cons ht h.trees⟩

/-- If a lexeme is taken in, so is one like it. -/
theorem add (h : b.Alike c) (hl : l.Alike m) (hadd : b.add file l = .ok b') (file' : String) :
    ∃ c', c.add file' m = .ok c' ∧ b'.Alike c' := by
  unfold Builder.add at hadd ⊢
  dsimp only at hadd ⊢
  rw [hl.kind_eq, hl.text_eq]
  cases hkind : l.kind with
  | literal | ident =>
    rw [hkind] at hadd
    cases hadd
    exact ⟨_, rfl, h.push (by simp [TokenTree.same])⟩
  | punct c =>
    rw [hkind] at hadd
    cases hadd
    exact ⟨_, rfl, h.push (by simp [TokenTree.same, hl.spacing_eq c hkind])⟩
  | opener d =>
    rw [hkind] at hadd
    dsimp only at hadd ⊢
    rw [← h.opened.length_eq]
    split at hadd
    · cases hadd
    · rename_i hdepth
      cases hadd
      rw [if_neg hdepth]
      exact ⟨_, rfl, .cons ⟨rfl, h.trees⟩ h.opened, .nil⟩
  | closer d =>
    rw [hkind] at hadd
    dsimp only at hadd ⊢
    -- the open groups are alike one by one, so the lexeme closes both innermost ones or none
    obtain ⟨hopened, htrees⟩ := h
    split at hadd
    · cases hadd
    · rename_i o outer ho
      rw [ho] at hopened
      split at hadd
      · rename_i hd
        cases hadd
        cases hc : c.opened with
        | nil =>
          rw [hc] at hopened
          cases hopened
        | cons o' outer' =>
          rw [hc] at hopened
          obtain ⟨⟨hdelim, hbefore⟩, houter⟩ := List.forall₂_cons.1 hopened
          dsimp only
          rw [if_pos (hdelim.trans hd)]
          have hsame := TokenStream.same_iff.2 (List.rel_reverse htrees)
          refine ⟨_, rfl, houter, .cons ?_ hbefore⟩
          simp [Opened.close, TokenTree.same, hdelim, hsame]
      · cases hadd

theorem foldlM (h : b.Alike c) (hls : Forall₂ Lexeme.Alike ls ms)
    (hfold : ls.foldlM (Builder.add file) b = .ok b') (file' : String) :
    ∃ c', ms.foldlM (Builder.add file') c = .ok c' ∧ b'.Alike c' := by
  induction hls generalizing b c with
  | nil =>
    cases hfold
    exact ⟨c, rfl, h⟩
  | @cons l m ls ms hl _ ih =>
    rw [List.foldlM_cons] at hfold ⊢
    cases hadd : b.add file l with
    | error e =>
      rw [hadd] at hfold
      cases hfold
    | ok b₁ =>
      rw [hadd] at hfold
      obtain ⟨c₁, hc₁, h₁⟩ := h.add hl hadd file'
      rw [hc₁]
      exact ih h₁ hfold

theorem finish {scan scan' : Scan} {trees : List TokenTree} (h : b.Alike c)
    (hfinish : b.finish scan = .ok trees) (hrest : scan'.rest = []) :
    ∃ trees', c.finish scan' = .ok trees' ∧ TokenStream.same trees trees' = true := by
  have hlength := h.opened.length_eq
  unfold Builder.finish at hfinish
  split at hfinish
  · cases hfinish
  · rename_i hopened
    rw [List.getLast?_eq_none_iff] at hopened
    rw [hopened] at hlength
    have hnone : c.opened = [] := List.length_eq_zero_iff.1 hlength.symm
    split at hfinish
    · cases hfinish
      refine ⟨c.trees.reverse, ?_, TokenStream.same_iff.2 (List.rel_reverse h.trees)⟩
      simp [Builder.finish, hnone, hrest]
    · cases hfinish

end Builder.Alike

theorem assemble_alike {scan scan' : Scan} {trees : List TokenTree}
    (h : assemble file scan = .ok trees) (hls : Forall₂ Lexeme.Alike scan.lexemes scan'.lexemes)
    (hrest : scan'.rest = []) (file' : String) :
    ∃ trees', assemble file' scan' = .ok trees' ∧ TokenStream.same trees trees' = true := by
  unfold assemble at h ⊢
  cases hfold : scan.lexemes.foldlM (Builder.add file) ⟨[], []⟩ with
  | error e =>
    rw [hfold] at h
    cases h
  | ok b =>
    rw [hfold] at h
    have hstart : Builder.Alike ⟨[], []⟩ ⟨[], []⟩ := ⟨.nil, .nil⟩
    obtain ⟨c, hc, halike⟩ := hstart.foldlM hls hfold file'
    rw [hc]
    exact halike.finish h hrest

end Lexer

/-! ### Renderings -/

/-- The tokens differ in nothing but their spans. -/
inductive Token.Respanned : Token → Token → Prop
  | delim {text : String} {a b : Span} : Respanned (.delim text a) (.delim text b)
  | punct {c : Char} {spacing : Spacing} {a b : Span} :
    Respanned (.punct c spacing a) (.punct c spacing b)
  | ident {text : String} {a b : Span} : Respanned (.ident text a) (.ident text b)
  | literal {text : String} {a b : Span} : Respanned (.literal text a) (.literal text b)

theorem Lexeme.Makes.respanned {kind : Kind} {word rest : List Char} {t u : Token}
    (h : Makes kind word rest u) (ht : t.Respanned u) : Makes kind word rest t := by
  cases ht with
  | literal => cases h; exact .literal
  | ident => cases h; exact .ident
  | punct =>
    cases h with
    | punct h => exact .punct h
  | delim =>
    cases h with
    | opener h => exact .opener h
    | closer h => exact .closer h

mutual

theorem TokenTree.respanned_flatten : ∀ {t u : TokenTree}, t.same u = true →
    Forall₂ Token.Respanned t.flatten u.flatten
  | .ident .., .ident .., h => by
    simp only [TokenTree.same, beq_iff_eq] at h
    simpa [TokenTree.flatten, h] using .ident
  | .literal .., .literal .., h => by
    simp only [TokenTree.same, beq_iff_eq] at h
    simpa [TokenTree.flatten, h] using .literal
  | .punct .., .punct .., h => by
    simp only [TokenTree.same, Bool.and_eq_true, beq_iff_eq] at h
    simpa [TokenTree.flatten, h] using .punct
  | .group d ts _, .group e us _, h => by
    simp only [TokenTree.same, Bool.and_eq_true, beq_iff_eq] at h
    obtain ⟨rfl, h⟩ := h
    have hts := TokenStream.respanned_flatten h
    unfold TokenTree.flatten
    split
    · exact hts
    · exact .cons .delim (List.rel_append hts (.cons .delim .nil))

theorem TokenStream.respanned_flatten : ∀ {ts us : List TokenTree}, TokenStream.same ts us = true →
    Forall₂ Token.Respanned (TokenStream.flatten ts) (TokenStream.flatten us)
  | [], [], _ => by simp
  | t :: ts, u :: us, h => by
    simp only [TokenStream.same, Bool.and_eq_true] at h
    rw [TokenStream.flatten_cons, TokenStream.flatten_cons]
    exact List.rel_append (TokenTree.respanned_flatten h.1) (TokenStream.respanned_flatten h.2)

end

theorem forall₂_comp {α β γ : Type} {R : α → β → Prop} {S : β → γ → Prop} {T : α → γ → Prop}
    (hT : ∀ a b c, R a b → S b c → T a c) {as : List α} {bs : List β} {cs : List γ}
    (h : Forall₂ R as bs) (h' : Forall₂ S bs cs) : Forall₂ T as cs := by
  induction h generalizing cs with
  | nil =>
    cases h'
    exact .nil
  | cons hab _ ih =>
    cases h' with
    | cons hbc h' => exact .cons (hT _ _ _ hab hbc) (ih h')

theorem tokenize_eq_ok {file text : String} {trees : List TokenTree} :
    tokenize file text = .ok trees ↔
      Lexer.assemble file (Scan.ofText .start text.toList) = .ok trees := by
  unfold tokenize
  cases Lexer.assemble file (Scan.ofText .start text.toList) <;> simp [Except.mapError]

theorem Scan.text_ne_nil (p : Place) (cs : List Char) : ∀ l ∈ (ofText p cs).lexemes, l.text ≠ [] := by
  fun_induction ofText p cs with
  | case1 => simp
  | case2 p cs gap place kind text rest hnext scan ih =>
    intro l hl
    rcases List.mem_cons.1 hl with rfl | hl
    · exact (Lexeme.next?_splits hnext).2
    · exact ih l hl

/-- Lexing undoes rendering exactly if no quote by itself stands directly in front of a token that
starts with a quote. This is said of texts without a comment directly behind punctuation, which would
be joint whatever stands behind the comment. -/
theorem tokenize_render {file text : String} {trees : List TokenTree}
    (h : tokenize file text = .ok trees) (hbare : (Scan.ofText .start text.toList).Bare)
    (file' : String) :
    (∃ trees', tokenize file' (TokenStream.render trees) = .ok trees' ∧
        TokenStream.same trees trees' = true) ↔
      (TokenStream.flatten trees).IsChain fun t u => ¬t.Clashes u := by
  rw [tokenize_eq_ok] at h
  obtain ⟨hassembled, hrest⟩ := Lexer.assemble_spec h
  have hstands := Scan.standsIn text.toList
  have hmakes := hassembled.makes hstands
  have hrender := hassembled.render_eq hstands (Scan.text_ne_nil _ _)
  have hreads : ReadsAs Lexeme.Kind.Bare text.toList (TokenStream.flatten trees) :=
    (Scan.readsAs_iff .start _ _).2 ⟨hrest, (List.forall₂_and_left _ _).2 ⟨hbare, hmakes⟩⟩
  have hstands' := Scan.standsIn (TokenStream.render trees).toList
  rw [← hreads.spell_iff, ← hrender, Scan.readsAs_iff .start]
  simp only [tokenize_eq_ok, true_and]
  constructor
  · rintro ⟨trees', h', hsame⟩
    obtain ⟨hassembled', hrest'⟩ := Lexer.assemble_spec h'
    -- The rendering is read as the tokens of its own trees, which are ours but for their spans.
    have hspans := TokenStream.respanned_flatten hsame
    refine ⟨hrest', forall₂_comp ?_ (hassembled'.makes hstands') hspans.flip⟩
    exact fun l u t hu ht => hu.respanned ht
  · rintro ⟨hrest', hmakes'⟩
    -- The same tokens are made of the lexemes of the rendering, so the same trees are put together.
    have hleft := (List.forall₂_and_left _ _).2 ⟨hstands, hmakes⟩
    have hright := (List.forall₂_and_left _ _).2 ⟨hstands', hmakes'⟩
    refine Lexer.assemble_alike h (forall₂_comp ?_ hleft hright.flip) hrest' file'
    exact fun l t m hl hm => .of_makes hl.1 hm.1 hl.2 hm.2

/-- A quote in front of a closing delimiter, joint punctuation, and a character in quotes. -/
theorem tokenize_render_group :
    let text := "f(/* c */ ') += 'a'"
    let trees : List TokenTree := [.ident "f" ⟨"f", 1, 1, 1, 2, "f"⟩,
      .group .parenthesis [.punct '\'' .alone ⟨"f", 1, 11, 1, 12, "'"⟩]
        ⟨"f", 1, 2, 1, 13, "(/* c */ ')"⟩,
      .punct '+' .joint ⟨"f", 1, 14, 1, 15, "+"⟩, .punct '=' .alone ⟨"f", 1, 15, 1, 16, "="⟩,
      .literal "'a'" ⟨"f", 1, 17, 1, 20, "'a'"⟩]
    tokenize "f" text = .ok trees ∧ (Scan.ofText .start text.toList).Bare ∧
      ∃ trees', tokenize "g" (TokenStream.render trees) = .ok trees' ∧
        TokenStream.same trees trees' = true := by
  intro text trees
  have h : tokenize "f" text = .ok trees := by
    dsimp only [text, trees]
    with_unfolding_all rfl
  have hbare : (Scan.ofText .start text.toList).Bare := by decide +kernel
  refine ⟨h, hbare, (tokenize_render h hbare "g").2 ?_⟩
  simp [trees, TokenTree.flatten, Delimiter.marks?, Token.Clashes, Token.text]

/-- A quote on each of two lines is rendered with a space between the quotes, and that is read as a
character in quotes. -/
theorem tokenize_render_quotes :
    let trees : List TokenTree := [.punct '\'' .alone ⟨"f", 1, 1, 1, 2, "'"⟩,
      .punct '\'' .alone ⟨"f", 2, 1, 2, 2, "'"⟩]
    tokenize "f" "'\n'" = .ok trees ∧
      ¬∃ trees', tokenize "f" (TokenStream.render trees) = .ok trees' ∧
        TokenStream.same trees trees' = true := by
  intro trees
  have hrender : TokenStream.render trees = "' '" := by decide +kernel
  have hliteral : tokenize "f" "' '" = .ok [.literal "' '" ⟨"f", 1, 1, 1, 4, "' '"⟩] := by
    with_unfolding_all rfl
  refine ⟨by dsimp only [trees]; with_unfolding_all rfl, ?_⟩
  rintro ⟨trees', h, hsame⟩
  rw [hrender, hliteral] at h
  cases h
  simp [trees, TokenStream.same, TokenTree.same] at hsame

end TokenParsing
