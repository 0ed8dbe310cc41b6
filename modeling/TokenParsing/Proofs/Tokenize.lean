import TokenParsing.Proofs.Assembly
import TokenParsing.Proofs.Scan

/-!
# What the trees of a text tell of it

The tokens of the trees of a text, with blanks and comments between them, make up the text, and the
spans are those of the offsets at which the tokens stand (`tokenize_exact`).
-/

namespace TokenParsing

/-- The trees have the right spans if their tokens stand at the given offsets of the text: a leaf
from its offset to the end of its text, a group from its opener to just behind its closer. -/
inductive Spanned (file : String) (text : List Char) : List TokenTree → List Nat → Prop
  | nil : Spanned file text [] []
  | leaf {t : Token} {tree : TokenTree} {o : Nat} {trees : List TokenTree} {offsets : List Nat}
    (htree : t.toTree? = some tree) (hspan : t.span = .between file text o (o + t.text.length))
    (htext : t.span.text = t.text) (h : Spanned file text trees offsets) :
    Spanned file text (tree :: trees) (o :: offsets)
  | group {d : Delimiter} {opener closer : Nat} {children trees : List TokenTree}
    {inner offsets : List Nat} (hd : d ≠ .invisible) (hinner : Spanned file text children inner)
    (h : Spanned file text trees offsets) :
    Spanned file text (.group d children (.between file text opener (closer + 1)) :: trees)
      (opener :: (inner ++ closer :: offsets))

theorem TokenTree.flatten_group {d : Delimiter} {opener closer : Char} {trees : List TokenTree}
    {span : Span} (h : d.marks? = some (opener, closer)) :
    (group d trees span).flatten = .delim opener.toString span ::
      (TokenStream.flatten trees ++ [.delim closer.toString span]) := by
  simp [flatten, h]

theorem Token.flatten_toTree? {t : Token} {tree : TokenTree} (h : t.toTree? = some tree) :
    tree.flatten = [t] := by
  cases t <;> cases h <;> simp [TokenTree.flatten]

namespace Lexeme

variable {l : Lexeme} {file : String} {text : List Char} {t : Token}

theorem leaf?_text (h : l.StandsIn text) (ht : l.leaf? file = some t) : t.text.toList = l.text := by
  have hfits := h.fits
  unfold leaf? at ht
  dsimp only at ht
  split at ht
  · cases ht
    exact String.toList_ofList
  · cases ht
    exact String.toList_ofList
  · rename_i c hkind
    cases ht
    rw [hkind] at hfits
    rw [show l.text = [c] from hfits]
    exact String.toList_singleton c
  · cases ht

theorem leaf?_span (ht : l.leaf? file = some t) : t.span = l.place.span file l.text := by
  unfold leaf? at ht
  dsimp only at ht
  split at ht <;> cases ht <;> rfl

end Lexeme

theorem Lexer.Opened.close_eq (o : Opened) {file : String} {text : List Char} {closer : Lexeme}
    {children : List TokenTree} (ho : o.opener.StandsIn text) (hc : closer.StandsIn text)
    (hkind : closer.kind = .closer o.delimiter)
    (hle : o.opener.place.offset ≤ closer.place.offset) :
    o.delimiter ≠ .invisible ∧ o.close file closer children =
      .group o.delimiter children
        (.between file text o.opener.place.offset (closer.place.offset + 1)) := by
  have hfits := hc.fits
  rw [hkind] at hfits
  obtain ⟨_, _, hmarks, htext⟩ := hfits
  have hend := hc.end_le
  rw [htext] at hend
  refine ⟨fun hd => ?_, ?_⟩
  · rw [hd] at hmarks
    cases hmarks
  · rw [Opened.close, Place.offset_advance, htext, ho.source_eq]
    exact congrArg _ (ho.span_slice file (Nat.le_succ_of_le hle) hend)

namespace Lexer.Assembled

variable {file : String} {text : List Char} {ls : List Lexeme} {trees : List TokenTree}

/-- The tokens of the trees have the texts of the lexemes. -/
theorem texts_flatten (h : Assembled file ls trees) (hls : ∀ l ∈ ls, l.StandsIn text) :
    (TokenStream.flatten trees).map (·.text.toList) = ls.map Lexeme.text := by
  induction h with
  | nil => simp
  | leaf ht htree _ ih =>
    rw [TokenStream.flatten_cons, Token.flatten_toTree? htree, List.singleton_append,
      List.map_cons, List.map_cons, Lexeme.leaf?_text (hls _ (by simp)) ht,
      ih fun l hl => hls l (by simp [hl])]
  | @group o closer inner ls children trees hopener hcloser _ _ ihinner ih =>
    have hfits := (hls o.opener (by simp)).fits
    have hfits' := (hls closer (by simp)).fits
    rw [hopener] at hfits
    rw [hcloser] at hfits'
    obtain ⟨c, c', hmarks, hc⟩ := hfits
    obtain ⟨_, _, hmarks', hc'⟩ := hfits'
    obtain ⟨rfl, rfl⟩ : c = _ ∧ c' = _ := by simpa [hmarks] using hmarks'
    have hinner := ihinner fun l hl => hls l (by simp [hl])
    have hrest := ih fun l hl => hls l (by simp [hl])
    rw [TokenStream.flatten_cons, Lexer.Opened.close, TokenTree.flatten_group hmarks]
    simp only [List.cons_append, List.append_assoc, List.nil_append, List.map_cons,
      List.map_append, hinner, hrest, hc, hc']
    show c.toString.toList :: (_ ++ c'.toString.toList :: _) = _
    rw [show c.toString.toList = [c] from String.toList_singleton c,
      show c'.toString.toList = [c'] from String.toList_singleton c']

theorem spanned (h : Assembled file ls trees) (hls : ∀ l ∈ ls, l.StandsIn text)
    (hpairwise : (ls.map (·.place.offset)).Pairwise (· < ·)) :
    Spanned file text trees (ls.map (·.place.offset)) := by
  induction h with
  | nil => exact .nil
  | @leaf l t tree ls trees ht htree _ ih =>
    have hl := hls l (by simp)
    have htext : t.text = String.ofList l.text := by
      rw [← Lexeme.leaf?_text hl ht, String.ofList_toList]
    have hlength : t.text.length = l.text.length := by rw [htext, String.length_ofList]
    have hspan := Lexeme.leaf?_span ht
    rw [List.map_cons] at hpairwise ⊢
    refine .leaf htree ?_ ?_ (ih (fun l hl => hls l (by simp [hl])) (List.pairwise_cons.1 hpairwise).2)
    · rw [hspan, hlength, hl.span_text]
    · rw [hspan, htext]
      rfl
  | @group o closer inner ls children trees hopener hcloser _ _ ihinner ih =>
    rw [List.map_cons, List.map_append, List.map_cons] at hpairwise ⊢
    obtain ⟨hbefore, hbehind⟩ := List.pairwise_cons.1 hpairwise
    obtain ⟨hpinner, hpouter, -⟩ := List.pairwise_append.1 hbehind
    obtain ⟨hvisible, hclose⟩ := o.close_eq (hls o.opener (by simp)) (hls closer (by simp)) hcloser
      (Nat.le_of_lt (hbefore _ (by simp)))
    rw [hclose]
    exact .group hvisible (ihinner (fun l hl => hls l (by simp [hl])) hpinner)
      (ih (fun l hl => hls l (by simp [hl])) (List.pairwise_cons.1 hpouter).2)

end Lexer.Assembled

/-- The trees of a text leave nothing of it out and add nothing to it: their tokens stand at
ascending offsets with nothing but blanks and comments between them, and all spans are exact. -/
theorem tokenize_exact {file text : String} {trees : List TokenTree}
    (h : tokenize file text = .ok trees) :
    ∃ offsets : List Nat, offsets.Pairwise (· < ·) ∧
      Spells 0 text.toList ((TokenStream.flatten trees).map (·.text.toList)) offsets ∧
      Spanned file text.toList trees offsets := by
  unfold tokenize at h
  cases hassemble : Lexer.assemble file (Scan.ofText .start text.toList) with
  | error e =>
    rw [hassemble] at h
    cases h
  | ok ts =>
    rw [hassemble] at h
    cases h
    obtain ⟨hassembled, hrest⟩ := Lexer.assemble_spec hassemble
    have hstands := Scan.standsIn text.toList
    have hspells := Scan.spells .start text.toList hrest
    refine ⟨_, hspells.pairwise, ?_, hassembled.spanned hstands hspells.pairwise⟩
    rw [hassembled.texts_flatten hstands]
    exact hspells

/-- A comment with a delimiter in it, a string over two lines, and a comment that does not end. -/
theorem tokenize_exact_group :
    let text := "a /*(*/ (\n\"b\n\") /* // c"
    let trees : List TokenTree := [.ident "a" ⟨"f", 1, 1, 1, 2, "a"⟩,
      .group .parenthesis [.literal "\"b\n\"" ⟨"f", 2, 1, 3, 2, "\"b\n\""⟩]
        ⟨"f", 1, 9, 3, 3, "(\n\"b\n\")"⟩,
      .punct '/' .joint ⟨"f", 3, 4, 3, 5, "/"⟩, .punct '*' .alone ⟨"f", 3, 5, 3, 6, "*"⟩]
    tokenize "f" text = .ok trees ∧ ∃ offsets : List Nat, offsets.Pairwise (· < ·) ∧
      Spells 0 text.toList ((TokenStream.flatten trees).map (·.text.toList)) offsets ∧
      Spanned "f" text.toList trees offsets := by
  intro text trees
  have h : tokenize "f" text = .ok trees := by
    dsimp only [text, trees]
    with_unfolding_all rfl
  exact ⟨h, tokenize_exact h⟩

end TokenParsing
