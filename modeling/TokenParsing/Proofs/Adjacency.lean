import TokenParsing.Proofs.Relexing

/-!
# Joint punctuation

Punctuation is joint if the character behind it is one of punctuation, and that is decided before
anything is known of what starts there: more punctuation, but also a literal in single quotes, or a
comment (`Lexeme.spacing_eq_joint_iff`). So punctuation right in front of more punctuation is joint, and
apart from that it is joint in front of such a literal and in front of a comment
(`tokenize_joint_iff`).

The next tree of a stream is made of the next lexeme of the text, if it is not a closing delimiter
(`Lexer.Assembled.neighbours`), and the span of a tree tells the offset at which it stands
(`lineAt_colAt_inj`).
-/

namespace TokenParsing

mutual

/-- The trees within a tree, at every depth, each with the next tree of its stream. -/
def TokenTree.neighbours : TokenTree → List (TokenTree × Option TokenTree)
  | .group _ trees _ => TokenStream.neighbours trees
  | _ => []

/-- The trees of a stream and of the groups in it, at every depth, each with the next tree of its own
stream. -/
def TokenStream.neighbours : List TokenTree → List (TokenTree × Option TokenTree)
  | [] => []
  | t :: ts => (t, ts.head?) :: (t.neighbours ++ TokenStream.neighbours ts)

end

/-- A comment starts the text: a line comment, or a block comment that ends. -/
def StartsComment : List Char → Prop
  | '/' :: '/' :: _ => True
  | '/' :: '*' :: cs => ['*', '/'] <:+: cs
  | _ => False

/-! ### What stands behind punctuation -/

namespace Lexeme

variable {c : Char} {cs rest : List Char}

theorem gapPiece?_eq_none_iff :
    gapPiece? cs = none ↔ ¬StartsComment cs ∧ ∀ c ∈ cs.head?, isGapBlank c = false := by
  have hslash : isGapBlank '/' = false := by decide
  unfold gapPiece?
  split
  · rename_i cs
    simp [StartsComment, blockCommentTail?_eq_none, hslash]
  · simp [StartsComment]
  · rename_i c cs hblock hline
    have hnot : ¬StartsComment (c :: cs) := by
      unfold StartsComment
      split
      · rename_i heq
        cases heq
        exact fun _ => hline _ rfl rfl
      · rename_i heq
        cases heq
        exact fun _ => hblock _ rfl rfl
      · exact id
    simp [hnot]
  · simp [StartsComment]

theorem gap_fst_eq_nil_iff : (gap cs).1 = [] ↔ gapPiece? cs = none := by
  constructor
  · intro h
    have happ := gap_append cs
    rw [h, List.nil_append] at happ
    rw [← happ]
    exact gapPiece?_gap cs
  · exact fun h => by rw [gap_eq_self h]

/-- The lexeme starts with a character of punctuation: it is punctuation, or a literal in single
quotes. -/
def Kind.LooksPunct (text : List Char) (kind : Kind) : Prop :=
  (∃ c, kind = .punct c) ∨ kind = .literal ∧ text.head? = some '\''

theorem Kind.LooksPunct.head?_any {text : List Char} {kind : Kind}
    (hnext : next? cs = some (kind, text, rest)) (h : kind.LooksPunct text) :
    cs.head?.any isPunct = true := by
  obtain ⟨happ, hne⟩ := next?_splits hnext
  obtain ⟨d, text, rfl⟩ := List.exists_cons_of_ne_nil hne
  rw [← happ]
  rcases h with ⟨c, rfl⟩ | ⟨-, hquote⟩
  · obtain ⟨hkind, -⟩ | ⟨hkind, -⟩ | ⟨_, htext, -, hsingle, -⟩ := next?_cases hnext
    · cases hkind
    · cases hkind
    · cases htext
      exact (single?_eq_punct hsingle).2
  · obtain rfl : d = '\'' := by simpa using hquote
    exact (by decide : isPunct '\'' = true)

theorem exists_looksPunct (h : cs.head?.any isPunct = true) :
    ∃ kind text rest, next? cs = some (kind, text, rest) ∧ kind.LooksPunct text := by
  cases cs with
  | nil => cases h
  | cons d cs =>
    have hd : isPunct d = true := h
    by_cases hquote : d = '\''
    · subst hquote
      cases hchar : char? ('\'' :: cs) with
      | none => exact ⟨_, _, _, next?_quote hchar, .inl ⟨_, rfl⟩⟩
      | some m =>
        have hnext := next?_of_literal? ((literal?_quote cs).trans hchar)
        obtain ⟨happ, hne⟩ := char?_splits hchar
        obtain ⟨e, text, hm⟩ := List.exists_cons_of_ne_nil hne
        rw [hm, List.cons_append] at happ
        refine ⟨_, _, _, hnext, .inr ⟨rfl, ?_⟩⟩
        rw [hm, List.head?_cons, (List.cons.inj happ).1]
    · have hnext := next?_of_isSingle (isSingle_of_isPunct hd hquote) cs
      rw [single?_of_isPunct hd] at hnext
      exact ⟨_, _, _, hnext, .inl ⟨_, rfl⟩⟩

/-- Punctuation is joint in front of a comment, and where a lexeme that looks like punctuation stands
right behind it. -/
theorem spacing_eq_joint_iff :
    Lexer.spacing (c :: rest) = .joint ↔ StartsComment rest ∨ (gap rest).1 = [] ∧
      ∃ kind text back, next? (gap rest).2 = some (kind, text, back) ∧ kind.LooksPunct text := by
  have hspacing : Lexer.spacing (c :: rest) = .joint ↔ rest.head?.any isPunct = true := by
    unfold Lexer.spacing
    split <;> simp_all
  rw [hspacing]
  constructor
  · intro h
    by_cases hcomment : StartsComment rest
    · exact .inl hcomment
    · have hpiece : gapPiece? rest = none := by
        refine gapPiece?_eq_none_iff.2 ⟨hcomment, fun d hd => not_isGapBlank_of_isPunct ?_⟩
        rw [Option.mem_def.1 hd] at h
        exact h
      rw [gap_eq_self hpiece]
      exact .inr ⟨rfl, exists_looksPunct h⟩
  · rintro (hcomment | ⟨hgap, kind, text, back, hnext, hlooks⟩)
    · unfold StartsComment at hcomment
      split at hcomment
      · exact (by decide : isPunct '/' = true)
      · exact (by decide : isPunct '/' = true)
      · exact hcomment.elim
    · rw [gap_eq_self (gap_fst_eq_nil_iff.1 hgap)] at hnext
      exact hlooks.head?_any hnext

end Lexeme

/-! ### The next lexeme and the next tree -/

namespace Scan

theorem lexemes_behind (p : Place) (cs : List Char) {front back : List Lexeme} {l : Lexeme}
    (h : (ofText p cs).lexemes = front ++ l :: back) :
    Lexeme.next? l.source = some (l.kind, l.text, l.behind) ∧
      back = (ofText (l.place.advance l.text) l.behind).lexemes := by
  fun_induction ofText p cs generalizing front with
  | case1 => simp at h
  | case2 p cs gap place kind text rest hnext scan =>
    rename_i ih
    cases front with
    | nil =>
      obtain ⟨rfl, rfl⟩ := List.cons.inj h
      have hbehind : gap.2.drop text.length = rest := by
        rw [← (Lexeme.next?_splits hnext).1, List.drop_left]
      dsimp only [Lexeme.behind]
      rw [hbehind]
      exact ⟨hnext, rfl⟩
    | cons l' front => exact ih (List.cons.inj h).2

theorem head?_lexemes (p : Place) (cs : List Char) :
    (ofText p cs).lexemes.head? = (Lexeme.next? (Lexeme.gap cs).2).map fun m =>
      ⟨m.1, m.2.1, (Lexeme.gap cs).2, p.advance (Lexeme.gap cs).1⟩ := by
  unfold ofText
  dsimp only
  split <;> simp_all

end Scan

/-- The tree is made of the lexeme, or the lexeme opens it. -/
def Lexeme.Begins (file : String) (l : Lexeme) : TokenTree → Prop
  | .group d _ _ => l.kind = .opener d
  | tree => ∃ t, l.leaf? file = some t ∧ t.toTree? = some tree

/-- The next lexeme begins the next tree of a stream; if there is no next tree, it closes a group. -/
def Lexeme.Leads (file : String) (l? : Option Lexeme) : Option TokenTree → Prop
  | some tree => ∃ l ∈ l?, l.Begins file tree
  | none => ∀ l ∈ l?, ∃ d, l.kind = .closer d

namespace Lexer.Assembled

open Lexeme

variable {file : String} {ls : List Lexeme} {trees : List TokenTree}

theorem begins_leaf {l : Lexeme} {t : Token} {tree : TokenTree} (ht : l.leaf? file = some t)
    (htree : t.toTree? = some tree) : l.Begins file tree := by
  cases t with
  | delim => cases htree
  | ident | literal | punct =>
    cases htree
    exact ⟨_, ht, rfl⟩

theorem leads_head? (h : Assembled file ls trees) {tail : List Lexeme}
    (htail : ∀ l ∈ tail.head?, ∃ d, l.kind = .closer d) :
    Leads file (ls ++ tail).head? trees.head? := by
  cases h with
  | nil => exact htail
  | leaf ht htree _ => exact ⟨_, rfl, begins_leaf ht htree⟩
  | group hopener _ _ _ => exact ⟨_, rfl, hopener⟩

/-- A leaf is made of a lexeme, and the next tree of its stream is begun by the next lexeme. -/
theorem neighbours (h : Assembled file ls trees) (tail : List Lexeme)
    (htail : ∀ l ∈ tail.head?, ∃ d, l.kind = .closer d) {tree : TokenTree} {next : Option TokenTree}
    (hmem : (tree, next) ∈ TokenStream.neighbours trees) (hleaf : ∃ t : Token, t.toTree? = some tree) :
    ∃ front l back, ls ++ tail = front ++ l :: back ∧ l.Begins file tree ∧
      Leads file back.head? next := by
  induction h generalizing tail with
  | nil => simp [TokenStream.neighbours] at hmem
  | @leaf l t tree' ls trees ht htree h ih =>
    have hnone : tree'.neighbours = [] := by
      cases t <;> cases htree <;> simp [TokenTree.neighbours]
    rw [TokenStream.neighbours, hnone, List.nil_append, List.mem_cons] at hmem
    rcases hmem with heq | hmem
    · cases heq
      exact ⟨[], l, ls ++ tail, rfl, begins_leaf ht htree, h.leads_head? htail⟩
    · obtain ⟨front, m, back, heq, hm⟩ := ih tail htail hmem
      exact ⟨l :: front, m, back, congrArg (l :: ·) heq, hm⟩
  | @group o closer inner ls children trees hopener hcloser hinner _ ihinner ih =>
    rw [TokenStream.neighbours, Opened.close, TokenTree.neighbours, List.mem_cons,
      List.mem_append] at hmem
    rcases hmem with heq | hmem | hmem
    · cases heq
      obtain ⟨t, ht⟩ := hleaf
      cases t <;> cases ht
    · -- The lexeme behind the trees of a group is the closer of the group.
      obtain ⟨front, m, back, heq, hm⟩ := ihinner (closer :: ls ++ tail)
        (fun l hl => ⟨_, (Option.some.inj hl) ▸ hcloser⟩) hmem
      exact ⟨o.opener :: front, m, back, by simpa using heq, hm⟩
    · obtain ⟨front, m, back, heq, hm⟩ := ih tail htail hmem
      exact ⟨o.opener :: (inner ++ closer :: front), m, back, by simp [heq], hm⟩

end Lexer.Assembled

/-! ### Offsets -/

theorem lineAt_colAt_inj {text : List Char} {a b : Nat} (ha : a ≤ text.length)
    (hb : b ≤ text.length) (hline : lineAt text a = lineAt text b)
    (hcol : colAt text a = colAt text b) : a = b := by
  wlog hab : a ≤ b generalizing a b
  · exact (this hb ha hline.symm hcol.symm (Nat.le_of_not_le hab)).symm
  have htake : text.take b = text.take a ++ slice text a b := by
    rw [slice, ← List.take_add, Nat.add_sub_cancel' hab]
  have hlength : (slice text a b).length = b - a := by
    rw [slice, List.length_take, List.length_drop]
    omega
  -- There is no line end in between, so every character in between counts for the column.
  have hnone : (slice text a b).count '\n' = 0 := by
    simp only [lineAt, htake, List.count_append] at hline
    omega
  have hall : ∀ c ∈ (slice text a b).reverse, (c != '\n') = true := by
    intro c hc
    have hne : '\n' ∉ slice text a b := List.count_eq_zero.1 hnone
    simp only [bne_iff_ne, ne_eq]
    rintro rfl
    exact hne (List.mem_reverse.1 hc)
  simp only [colAt, htake, List.reverse_append, List.takeWhile_append_of_pos hall,
    List.length_append, List.length_reverse, hlength] at hcol
  omega

/-- The tree is punctuation, at the offset of the text. -/
def TokenTree.PunctAt (file : String) (text : List Char) (n : Nat) (tree : TokenTree) : Prop :=
  ∃ c spacing, tree = .punct c spacing (.between file text n (n + 1))

/-- The tree is a literal in single quotes, at the offset of the text. -/
def TokenTree.QuotedAt (file : String) (text : List Char) (n : Nat) (tree : TokenTree) : Prop :=
  ∃ s : String, s.toList.head? = some '\'' ∧
    tree = .literal s (.between file text n (n + s.length))

namespace Lexeme

variable {file : String} {text : List Char} {l : Lexeme} {t : Token} {tree : TokenTree} {n : Nat}

theorem leaf?_cases (ht : l.leaf? file = some t) :
    (l.kind = .literal ∧ t = .literal (String.ofList l.text) (l.place.span file l.text)) ∨
    (l.kind = .ident ∧ t = .ident (String.ofList l.text) (l.place.span file l.text)) ∨
    ∃ c, l.kind = .punct c ∧ t = .punct c (Lexer.spacing l.source) (l.place.span file l.text) := by
  unfold leaf? at ht
  dsimp only at ht
  split at ht
  · exact .inl ⟨by assumption, (Option.some.inj ht).symm⟩
  · exact .inr (.inl ⟨by assumption, (Option.some.inj ht).symm⟩)
  · exact .inr (.inr ⟨_, by assumption, (Option.some.inj ht).symm⟩)
  · cases ht

theorem StandsIn.offset_eq (h : l.StandsIn text) (hn : n ≤ text.length) {last : Nat}
    (hspan : l.place.span file l.text = .between file text n last) : l.place.offset = n := by
  rw [h.span_text file] at hspan
  obtain ⟨-, hline, hcol, -⟩ := Span.mk.inj hspan
  exact lineAt_colAt_inj h.offset_le hn (by exact_mod_cast hline) (by exact_mod_cast hcol)

theorem StandsIn.text_of_punct (h : l.StandsIn text) {c : Char} (hkind : l.kind = .punct c) :
    l.text = [c] := by
  have hfits := h.fits
  rw [hkind] at hfits
  exact hfits

theorem StandsIn.looksPunct_iff (h : l.StandsIn text) (hbegins : l.Begins file tree)
    (hn : n ≤ text.length) : l.place.offset = n ∧ l.kind.LooksPunct l.text ↔
      tree.PunctAt file text n ∨ tree.QuotedAt file text n := by
  have hspan := h.span_text file
  -- the tree tells the kind of its lexeme, and where the kinds differ both sides are false
  cases tree with
  | group d ts span =>
    have hkind : l.kind = .opener d := hbegins
    simp [hkind, Kind.LooksPunct, TokenTree.PunctAt, TokenTree.QuotedAt]
  | ident s span =>
    obtain ⟨t, ht, htree⟩ := hbegins
    rcases leaf?_cases ht with ⟨-, rfl⟩ | ⟨hkind, rfl⟩ | ⟨c, -, rfl⟩ <;> cases htree
    simp [hkind, Kind.LooksPunct, TokenTree.PunctAt, TokenTree.QuotedAt]
  | literal s span =>
    obtain ⟨t, ht, htree⟩ := hbegins
    rcases leaf?_cases ht with ⟨hkind, rfl⟩ | ⟨-, rfl⟩ | ⟨c, -, rfl⟩ <;> cases htree
    constructor
    · rintro ⟨rfl, ⟨c, hc⟩ | ⟨-, hquote⟩⟩
      · cases hkind.symm.trans hc
      · exact .inr ⟨_, by rwa [String.toList_ofList], by rw [hspan, String.length_ofList]⟩
    · rintro (⟨c, spacing, heq⟩ | ⟨s, hquote, heq⟩)
      · cases heq
      · obtain ⟨rfl, hat⟩ := TokenTree.literal.inj heq
        rw [String.toList_ofList] at hquote
        exact ⟨h.offset_eq hn hat, .inr ⟨hkind, hquote⟩⟩
  | punct c spacing span =>
    obtain ⟨t, ht, htree⟩ := hbegins
    rcases leaf?_cases ht with ⟨-, rfl⟩ | ⟨-, rfl⟩ | ⟨c, hkind, rfl⟩ <;> cases htree
    constructor
    · rintro ⟨rfl, -⟩
      exact .inl ⟨c, _, by rw [hspan, h.text_of_punct hkind]; rfl⟩
    · rintro (⟨d, spacing, heq⟩ | ⟨s, -, heq⟩)
      · obtain ⟨-, -, hat⟩ := TokenTree.punct.inj heq
        exact ⟨h.offset_eq hn hat, .inl ⟨c, hkind⟩⟩
      · cases heq

theorem Leads.looksPunct_iff {l? : Option Lexeme} {next : Option TokenTree} (h : Leads file l? next)
    (hstands : ∀ l ∈ l?, l.StandsIn text) (hn : n ≤ text.length) :
    (∃ l ∈ l?, l.place.offset = n ∧ l.kind.LooksPunct l.text) ↔
      ∃ tree ∈ next, tree.PunctAt file text n ∨ tree.QuotedAt file text n := by
  constructor
  · rintro ⟨l, hl, hlooks⟩
    cases next with
    | none =>
      obtain ⟨d, hd⟩ := h l hl
      rcases hlooks.2 with ⟨c, hc⟩ | ⟨hliteral, -⟩
      · cases hd.symm.trans hc
      · cases hd.symm.trans hliteral
    | some tree =>
      obtain ⟨l', hl', hbegins⟩ := h
      obtain rfl : l = l' := Option.some.inj (hl.symm.trans hl')
      exact ⟨tree, rfl, ((hstands l hl).looksPunct_iff hbegins hn).1 hlooks⟩
  · rintro ⟨tree, rfl, hat⟩
    obtain ⟨l, hl, hbegins⟩ := h
    exact ⟨l, hl, ((hstands l hl).looksPunct_iff hbegins hn).2 hat⟩

end Lexeme

/-- Punctuation is joint in front of a comment, and where the next lexeme stands right behind it and
looks like punctuation. In front of a comment no lexeme stands right behind it. -/
theorem Scan.spacing_eq_joint_iff {text : List Char} {front back : List Lexeme} {l : Lexeme} {c : Char}
    (h : (ofText .start text).lexemes = front ++ l :: back) (hkind : l.kind = .punct c) :
    (Lexer.spacing l.source = .joint ↔ StartsComment (text.drop (l.place.offset + 1)) ∨
      ∃ m ∈ back.head?, m.place.offset = l.place.offset + 1 ∧ m.kind.LooksPunct m.text) ∧
    (StartsComment (text.drop (l.place.offset + 1)) →
      ∀ m ∈ back.head?, m.place.offset ≠ l.place.offset + 1) := by
  have hl : l.StandsIn text := standsIn text l (by simp [h])
  have htext := hl.text_of_punct hkind
  have hsource : l.source = c :: l.behind := by
    rw [← hl.append_behind, htext, List.singleton_append]
  have hdrop : text.drop (l.place.offset + 1) = l.behind := by
    rw [← List.drop_drop, ← hl.source_eq, hsource, List.drop_one, List.tail_cons]
  have hhead := head?_lexemes (l.place.advance l.text) l.behind
  rw [← (lexemes_behind .start text h).2] at hhead
  -- the next lexeme stands behind the gap, so right behind the character only if the gap is empty
  have hoffset : ((l.place.advance l.text).advance (Lexeme.gap l.behind).1).offset =
      l.place.offset + 1 + (Lexeme.gap l.behind).1.length := by
    rw [Place.offset_advance, Place.offset_advance, htext, List.length_singleton]
  rw [hdrop, hhead, hsource, Lexeme.spacing_eq_joint_iff]
  constructor
  · refine or_congr_right ⟨?_, ?_⟩
    · rintro ⟨hgap, kind, word, rest, hnext, hlooks⟩
      refine ⟨_, by rw [hnext]; rfl, ?_, hlooks⟩
      rw [hoffset, hgap, List.length_nil, Nat.add_zero]
    · rintro ⟨m, hm, hat, hlooks⟩
      obtain ⟨⟨kind, word, rest⟩, hnext, rfl⟩ := Option.map_eq_some_iff.1 hm
      refine ⟨?_, kind, word, rest, hnext, hlooks⟩
      rw [hoffset] at hat
      exact List.length_eq_zero_iff.1 (by omega)
  · rintro hcomment m hm hat
    obtain ⟨⟨kind, word, rest⟩, -, rfl⟩ := Option.map_eq_some_iff.1 hm
    rw [hoffset] at hat
    have hgap : (Lexeme.gap l.behind).1 = [] := List.length_eq_zero_iff.1 (by omega)
    exact (Lexeme.gapPiece?_eq_none_iff.1 (Lexeme.gap_fst_eq_nil_iff.1 hgap)).1 hcomment

/-- Punctuation is joint if punctuation stands directly behind it in its stream. Besides, it is joint
exactly in front of a literal in single quotes that is the next tree, and in front of a comment. -/
theorem tokenize_joint_iff {file text : String} {trees : List TokenTree}
    (h : tokenize file text = .ok trees) {c : Char} {spacing : Spacing} {span : Span}
    {next : Option TokenTree} (hmem : (.punct c spacing span, next) ∈ TokenStream.neighbours trees) :
    ∃ n, span = .between file text.toList n (n + 1) ∧ text.toList[n]? = some c ∧
      ((∃ tree ∈ next, tree.PunctAt file text.toList (n + 1)) → spacing = .joint) ∧
      (spacing = .joint ∧ (¬∃ tree ∈ next, tree.PunctAt file text.toList (n + 1)) ↔
        (∃ tree ∈ next, tree.QuotedAt file text.toList (n + 1)) ∨
          StartsComment (text.toList.drop (n + 1))) := by
  obtain ⟨hassembled, -⟩ := Lexer.assemble_spec (tokenize_eq_ok.1 h)
  obtain ⟨front, l, back, hls, ⟨t, ht, htree⟩, hleads⟩ :=
    hassembled.neighbours [] (by simp) hmem ⟨.punct c spacing span, rfl⟩
  rw [List.append_nil] at hls
  have hstands := Scan.standsIn text.toList
  have hl : l.StandsIn text.toList := hstands l (by simp [hls])
  rcases Lexeme.leaf?_cases ht with ⟨-, rfl⟩ | ⟨-, rfl⟩ | ⟨c, hkind, rfl⟩ <;> cases htree
  obtain ⟨hjoint, hcomment⟩ := Scan.spacing_eq_joint_iff hls hkind
  have htext := hl.text_of_punct hkind
  have hend := hl.end_le
  rw [htext, List.length_singleton] at hend
  have hnext := hleads.looksPunct_iff
    (fun m hm => hstands m (by simp [hls, List.mem_of_mem_head? hm])) hend
  refine ⟨l.place.offset, ?_, ?_, ?_, ?_⟩
  · rw [hl.span_text, htext, List.length_singleton]
  · rw [← List.head?_drop, ← hl.source_eq, ← hl.append_behind, htext]
    rfl
  · rintro ⟨tree, htree, hpunct⟩
    exact hjoint.2 (.inr (hnext.2 ⟨tree, htree, .inl hpunct⟩))
  · constructor
    · rintro ⟨hspacing, hnot⟩
      rcases hjoint.1 hspacing with hstart | hlooks
      · exact .inr hstart
      · obtain ⟨tree, htree, hpunct | hquoted⟩ := hnext.1 hlooks
        · exact absurd ⟨tree, htree, hpunct⟩ hnot
        · exact .inl ⟨tree, htree, hquoted⟩
    · rintro (⟨tree, htree, hquoted⟩ | hstart)
      · refine ⟨hjoint.2 (.inr (hnext.2 ⟨tree, htree, .inr hquoted⟩)), ?_⟩
        rintro ⟨tree', htree', c', spacing', rfl⟩
        obtain ⟨s, -, rfl⟩ := hquoted
        cases htree.symm.trans htree'
      · refine ⟨hjoint.2 (.inl hstart), ?_⟩
        rintro ⟨tree, htree, hpunct⟩
        -- no lexeme stands right behind the character here, so no punctuation does
        obtain ⟨m, hm, hat, -⟩ := hnext.2 ⟨tree, htree, .inl hpunct⟩
        exact hcomment hstart m hm hat

/-- Two characters of punctuation in a group, and one in front of a comment. -/
theorem tokenize_joint_iff_group :
    let text := "(+=) >/**/="
    let plus : Span := ⟨"f", 1, 2, 1, 3, "+"⟩
    let equals : TokenTree := .punct '=' .alone ⟨"f", 1, 3, 1, 4, "="⟩
    let trees : List TokenTree :=
      [.group .parenthesis [.punct '+' .joint plus, equals] ⟨"f", 1, 1, 1, 5, "(+=)"⟩,
        .punct '>' .joint ⟨"f", 1, 6, 1, 7, ">"⟩, .punct '=' .alone ⟨"f", 1, 11, 1, 12, "="⟩]
    tokenize "f" text = .ok trees ∧
      (.punct '+' .joint plus, some equals) ∈ TokenStream.neighbours trees ∧
      ∃ n, plus = .between "f" text.toList n (n + 1) ∧ text.toList[n]? = some '+' ∧
        ((∃ tree ∈ some equals, tree.PunctAt "f" text.toList (n + 1)) → Spacing.joint = .joint) ∧
        (Spacing.joint = .joint ∧ (¬∃ tree ∈ some equals, tree.PunctAt "f" text.toList (n + 1)) ↔
          (∃ tree ∈ some equals, tree.QuotedAt "f" text.toList (n + 1)) ∨
            StartsComment (text.toList.drop (n + 1))) := by
  intro text plus equals trees
  have h : tokenize "f" text = .ok trees := by
    dsimp only [text, trees, plus, equals]
    with_unfolding_all rfl
  have hmem : (.punct '+' .joint plus, some equals) ∈ TokenStream.neighbours trees := by
    simp [trees, TokenStream.neighbours, TokenTree.neighbours]
  exact ⟨h, hmem, tokenize_joint_iff h hmem⟩

/-- The `+` is joint though the next tree is a literal, and the `-` is though there is no next tree. -/
theorem tokenize_joint_quoted :
    let text := "+'a' -/**/"
    let literal : TokenTree := .literal "'a'" ⟨"f", 1, 2, 1, 5, "'a'"⟩
    let trees : List TokenTree := [.punct '+' .joint ⟨"f", 1, 1, 1, 2, "+"⟩, literal,
      .punct '-' .joint ⟨"f", 1, 6, 1, 7, "-"⟩]
    tokenize "f" text = .ok trees ∧
      (.punct '+' .joint ⟨"f", 1, 1, 1, 2, "+"⟩, some literal) ∈ TokenStream.neighbours trees ∧
      (∀ n, ¬literal.PunctAt "f" text.toList n) ∧
      (.punct '-' .joint ⟨"f", 1, 6, 1, 7, "-"⟩, none) ∈ TokenStream.neighbours trees := by
  intro text literal trees
  refine ⟨by dsimp only [text, trees, literal]; with_unfolding_all rfl, ?_, ?_, ?_⟩
  · simp [trees, TokenStream.neighbours]
  · rintro n ⟨c, spacing, heq⟩
    dsimp only [literal] at heq
    cases heq
  · simp [trees, literal, TokenStream.neighbours, TokenTree.neighbours]

end TokenParsing
