import TokenParsing.Proofs.Tokenize

/-!
# Renderings, token by token

What stands between two neighbours in a rendering depends on nothing but the two tokens, whatever the
groups they belong to (`Token.gapTo`). So the rendering of the trees of a text is told from their
tokens (`Lexer.Assembled.render_eq`).
-/

namespace TokenParsing

/-- What stands inside of a group, in front of its trees and behind them. -/
def Delimiter.inset (d : Delimiter) : List Char := if d = .brace then [' '] else []

namespace Token

/-- The kind of group that the token opens. -/
def opens? : Token → Option Delimiter
  | .delim text _ => text.toList.head?.bind Delimiter.ofOpener?
  | _ => none

def closes? : Token → Option Delimiter
  | .delim text _ => text.toList.head?.bind Delimiter.ofCloser?
  | _ => none

/-- Does the next token follow without a space? -/
def isJoint : Token → Bool
  | .punct _ .joint _ => true
  | _ => false

/-- What stands between a token and the next one in a rendering. -/
def gapTo (t u : Token) : List Char :=
  match u.closes?, t.opens? with
  | some d, _ => d.inset
  | none, some d => d.inset
  | none, none => if t.isJoint then [] else [' ']

/-- The rendering of some tokens behind another one. -/
def spellBehind : Token → List Token → List Char
  | _, [] => []
  | t, u :: us => t.gapTo u ++ (u.text.toList ++ spellBehind u us)

/-- The rendering of some tokens. -/
def spell : List Token → List Char
  | [] => []
  | t :: ts => t.text.toList ++ t.spellBehind ts

variable {t u : Token} {d : Delimiter}

theorem opens?_delim (c : Char) (span : Span) :
    (Token.delim c.toString span).opens? = Delimiter.ofOpener? c := by
  simp [opens?]

theorem closes?_delim (c : Char) (span : Span) :
    (Token.delim c.toString span).closes? = Delimiter.ofCloser? c := by
  simp [closes?]

theorem gapTo_of_closes? (h : u.closes? = some d) : t.gapTo u = d.inset := by
  simp [gapTo, h]

theorem gapTo_of_opens? (h : t.opens? = some d) (hu : u.closes? = none) : t.gapTo u = d.inset := by
  simp [gapTo, h, hu]

theorem gapTo_of_none (ht : t.opens? = none) (hu : u.closes? = none) :
    t.gapTo u = if t.isJoint then [] else [' '] := by
  simp [gapTo, ht, hu]

theorem spellBehind_cons (t u : Token) (us : List Token) :
    t.spellBehind (u :: us) = t.gapTo u ++ spell (u :: us) := rfl

theorem spellBehind_append (t : Token) (us : List Token) {c : Token} (hc : c.closes? = some d)
    (vs : List Token) : t.spellBehind (us ++ c :: vs) =
      t.spellBehind us ++ (d.inset ++ (c.text.toList ++ c.spellBehind vs)) := by
  induction us generalizing t with
  | nil => simp [spellBehind, gapTo_of_closes? hc]
  | cons u us ih => simp [spellBehind, ih]

end Token

theorem Delimiter.toList_wrap {d : Delimiter} {opener closer : Char}
    (h : d.marks? = some (opener, closer)) (inner : String) :
    (d.wrap inner).toList =
      opener :: ((if inner = "" then [] else d.inset ++ inner.toList) ++ (d.inset ++ [closer])) := by
  by_cases hbrace : d = .brace
  · subst hbrace
    cases h
    by_cases hinner : inner = ""
    · simp [wrap, marks?, hinner, inset]
    · simp [wrap, marks?, hinner, inset]
  · by_cases hinner : inner = ""
    · simp [wrap, h, hbrace, hinner, inset]
    · simp [wrap, h, hbrace, hinner, inset]

theorem Delimiter.opens?_of_marks? {d : Delimiter} {opener closer : Char}
    (h : d.marks? = some (opener, closer)) (span span' : Span) :
    (Token.delim opener.toString span).opens? = some d ∧
      (Token.delim opener.toString span).closes? = none ∧
      (Token.delim closer.toString span').closes? = some d ∧
      (Token.delim closer.toString span').opens? = none := by
  cases d <;> cases h <;> exact ⟨rfl, rfl, rfl, rfl⟩

theorem TokenTree.toList_gap (t : TokenTree) :
    t.gap.toList = if t.isJoint then [] else [' '] := by
  unfold gap
  split <;> rfl

theorem TokenStream.toList_render_cons (t : TokenTree) (ts : List TokenTree) :
    (render (t :: ts)).toList = t.render.toList ++
      if ts = [] then [] else (if t.isJoint then [] else [' ']) ++ (render ts).toList := by
  cases ts with
  | nil => simp [render]
  | cons u us => simp [render, TokenTree.toList_gap]

theorem Token.toTree?_render {t : Token} {tree : TokenTree} (h : t.toTree? = some tree) :
    tree.render = t.text ∧ tree.isJoint = t.isJoint ∧ t.opens? = none ∧ t.closes? = none := by
  cases t with
  | delim => cases h
  | ident | literal => cases h; exact ⟨by rw [TokenTree.render]; rfl, rfl, rfl, rfl⟩
  | punct c spacing => cases h; cases spacing <;> exact ⟨by rw [TokenTree.render]; rfl, rfl, rfl, rfl⟩

namespace Lexer.Assembled

open Token

variable {file : String} {text : List Char} {ls : List Lexeme} {trees : List TokenTree}

theorem closes?_head (h : Assembled file ls trees) (hls : ∀ l ∈ ls, l.StandsIn text) :
    ∀ u ∈ (TokenStream.flatten trees).head?, u.closes? = none := by
  cases h with
  | nil => simp
  | leaf ht htree _ =>
    intro u hu
    rw [TokenStream.flatten_cons, flatten_toTree? htree] at hu
    cases hu
    exact (toTree?_render htree).2.2.2
  | group hopener hcloser _ _ =>
    obtain ⟨_, _, hmarks, -⟩ := hopener ▸ (hls _ (by simp)).fits
    intro u hu
    rw [TokenStream.flatten_cons, Opened.close, TokenTree.flatten_group hmarks] at hu
    cases hu
    exact (Delimiter.opens?_of_marks? hmarks _ .callSite).2.1

theorem flatten_eq_nil (h : Assembled file ls trees) (hls : ∀ l ∈ ls, l.StandsIn text) :
    TokenStream.flatten trees = [] ↔ trees = [] := by
  cases h with
  | nil => simp
  | leaf ht htree _ => simp [flatten_toTree? htree]
  | group hopener hcloser _ _ =>
    obtain ⟨_, _, hmarks, -⟩ := hopener ▸ (hls _ (by simp)).fits
    simp [Opened.close, TokenTree.flatten_group hmarks]

theorem spellBehind_eq (h : Assembled file ls trees) (hls : ∀ l ∈ ls, l.StandsIn text)
    {t : Token} {gap : List Char}
    (hgap : ∀ u, u.closes? = none → t.gapTo u = gap) :
    t.spellBehind (TokenStream.flatten trees) =
      if trees = [] then [] else gap ++ spell (TokenStream.flatten trees) := by
  have hhead := h.closes?_head hls
  have hnil := h.flatten_eq_nil hls
  cases hflat : TokenStream.flatten trees with
  | nil => simp [hnil.1 hflat, spellBehind]
  | cons u us =>
    have htrees : trees ≠ [] := fun heq => by simp [heq] at hflat
    rw [spellBehind_cons, hgap u (hhead u (by simp [hflat])), if_neg htrees]

theorem render_eq_empty (h : Assembled file ls trees)
    (hrender : (TokenStream.render trees).toList = spell (TokenStream.flatten trees))
    (hls : ∀ l ∈ ls, l.StandsIn text) (hne : ∀ l ∈ ls, l.text ≠ []) :
    TokenStream.render trees = "" ↔ trees = [] := by
  refine ⟨fun hempty => ?_, fun hnil => by simp [hnil, TokenStream.render]⟩
  rw [hempty] at hrender
  cases hflat : TokenStream.flatten trees with
  | nil => exact (h.flatten_eq_nil hls).1 hflat
  | cons u us =>
    have htexts := h.texts_flatten hls
    have hu : u.text.toList ∈ ls.map Lexeme.text := by
      rw [← htexts, hflat]
      simp
    obtain ⟨l, hl, htext⟩ := List.mem_map.1 hu
    rw [hflat, spell, ← htext] at hrender
    exact absurd (List.append_eq_nil_iff.1 hrender.symm).1 (hne l hl)

/-- The rendering of the trees of a text is that of their tokens. -/
theorem render_eq (h : Assembled file ls trees) (hls : ∀ l ∈ ls, l.StandsIn text)
    (hne : ∀ l ∈ ls, l.text ≠ []) :
    (TokenStream.render trees).toList = spell (TokenStream.flatten trees) := by
  induction h with
  | nil => simp [TokenStream.render, spell]
  | @leaf l t tree ls trees ht htree htrees ih =>
    have hrest := ih (fun l hl => hls l (by simp [hl])) fun l hl => hne l (by simp [hl])
    obtain ⟨hrender, hjoint, hopens, -⟩ := toTree?_render htree
    rw [TokenStream.toList_render_cons, hrender, hrest, TokenStream.flatten_cons,
      flatten_toTree? htree]
    show _ = t.text.toList ++ t.spellBehind (TokenStream.flatten trees)
    rw [htrees.spellBehind_eq (fun l hl => hls l (by simp [hl])) fun u hu => gapTo_of_none hopens hu,
      hjoint]
  | @group o closer inner ls children trees hopener hcloser hinner htrees ihinner ih =>
    have hrest := ih (fun l hl => hls l (by simp [hl])) fun l hl => hne l (by simp [hl])
    have hchildren := ihinner (fun l hl => hls l (by simp [hl])) fun l hl => hne l (by simp [hl])
    have hempty := hinner.render_eq_empty hchildren (fun l hl => hls l (by simp [hl]))
      fun l hl => hne l (by simp [hl])
    obtain ⟨first, last, hmarks, -⟩ := hopener ▸ (hls o.opener (by simp)).fits
    obtain ⟨span, hclose⟩ : ∃ span, o.close file closer children =
      .group o.delimiter children span := ⟨_, rfl⟩
    obtain ⟨hopens, -, hcloses, hopens'⟩ :=
      Delimiter.opens?_of_marks? hmarks span span
    have hinside := hinner.spellBehind_eq (fun l hl => hls l (by simp [hl]))
      fun u hu => gapTo_of_opens? hopens hu
    have hbehind := htrees.spellBehind_eq (fun l hl => hls l (by simp [hl]))
      fun u hu => gapTo_of_none hopens' hu
    have hflat : TokenStream.flatten (o.close file closer children :: trees) =
        .delim first.toString span :: (TokenStream.flatten children ++
          .delim last.toString span :: TokenStream.flatten trees) := by
      rw [hclose, TokenStream.flatten_cons, TokenTree.flatten_group hmarks]
      simp
    -- The rendering inside stands between insets, and the group itself is followed by a space.
    rw [hflat, spell, spellBehind_append _ _ hcloses, hinside, hbehind, hclose,
      TokenStream.toList_render_cons, TokenTree.render, Delimiter.toList_wrap hmarks, hchildren,
      hrest]
    simp [hempty, Token.text, TokenTree.isJoint, Token.isJoint]

end Lexer.Assembled

end TokenParsing
