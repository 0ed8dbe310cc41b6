import TokenParsing.Lexer
import TokenParsing.Token

/-!
# Trees put together from lexemes

Which trees a list of lexemes makes is said without the builder (`Lexer.Assembled`): a leaf is one
lexeme, and a group is an opener, the lexemes of its trees, and a closer of the same kind. A builder
holds the trees of what it has read so far, cut at the openers of the groups that are still open
(`Lexer.Builder.Reads`). Each lexeme keeps this, so the trees that come out are those of all lexemes
(`Lexer.assemble_spec`).
-/

namespace TokenParsing

/-- The token of a lexeme that is a tree by itself. -/
def Lexeme.leaf? (file : String) (l : Lexeme) : Option Token :=
  let span := l.place.span file l.text
  match l.kind with
  | .literal => some (.literal (String.ofList l.text) span)
  | .ident => some (.ident (String.ofList l.text) span)
  | .punct c => some (.punct c (Lexer.spacing l.source) span)
  | _ => none

namespace Lexer

/-- The lexemes make the trees. -/
inductive Assembled (file : String) : List Lexeme → List TokenTree → Prop
  | nil : Assembled file [] []
  | leaf {l : Lexeme} {t : Token} {tree : TokenTree} {ls : List Lexeme} {trees : List TokenTree}
    (ht : l.leaf? file = some t) (htree : t.toTree? = some tree) (h : Assembled file ls trees) :
    Assembled file (l :: ls) (tree :: trees)
  | group {o : Opened} {closer : Lexeme} {inner ls : List Lexeme} {children trees : List TokenTree}
    (hopener : o.opener.kind = .opener o.delimiter) (hcloser : closer.kind = .closer o.delimiter)
    (hinner : Assembled file inner children) (h : Assembled file ls trees) :
    Assembled file (o.opener :: (inner ++ closer :: ls)) (o.close file closer children :: trees)

theorem Assembled.append {file : String} {ls ms : List Lexeme} {ts us : List TokenTree}
    (h : Assembled file ls ts) (h' : Assembled file ms us) :
    Assembled file (ls ++ ms) (ts ++ us) := by
  induction h with
  | nil => exact h'
  | leaf ht htree _ ih => exact .leaf ht htree ih
  | group hopener hcloser hinner _ _ ih =>
    rw [List.cons_append, List.append_assoc, List.cons_append]
    exact .group hopener hcloser hinner ih

namespace Builder

/-- The builder has read the lexemes: each open group began with its opener, in front of which stood
what makes the trees that were set aside. -/
inductive Reads (file : String) : List Lexeme → Builder → Prop
  | outermost {ls : List Lexeme} {trees : List TokenTree} (h : Assembled file ls trees.reverse) :
    Reads file ls ⟨[], trees⟩
  | inside {ls inner : List Lexeme} {o : Opened} {outer : List Opened} {trees : List TokenTree}
    (houter : Reads file ls ⟨outer, o.before⟩) (hopener : o.opener.kind = .opener o.delimiter)
    (h : Assembled file inner trees.reverse) :
    Reads file (ls ++ o.opener :: inner) ⟨o :: outer, trees⟩

variable {file : String} {b b' : Builder} {l : Lexeme} {ls ms : List Lexeme} {t : TokenTree}

theorem add_cases (h : b.add file l = .ok b') :
    (∃ t tree, l.leaf? file = some t ∧ t.toTree? = some tree ∧ b' = b.push tree) ∨
    (∃ d, l.kind = .opener d ∧ b.opened.length < maxDepth ∧
      b' = ⟨⟨d, l, b.trees⟩ :: b.opened, []⟩) ∨
    ∃ o outer, b.opened = o :: outer ∧ l.kind = .closer o.delimiter ∧
      b' = ⟨outer, o.close file l b.trees.reverse :: o.before⟩ := by
  unfold add at h
  dsimp only at h
  split at h
  · rename_i hkind
    cases h
    refine .inl ⟨.literal (String.ofList l.text) (l.place.span file l.text), _, ?_, rfl, rfl⟩
    rw [Lexeme.leaf?, hkind]
  · rename_i hkind
    cases h
    refine .inl ⟨.ident (String.ofList l.text) (l.place.span file l.text), _, ?_, rfl, rfl⟩
    rw [Lexeme.leaf?, hkind]
  · rename_i hkind
    cases h
    refine .inl ⟨.punct _ (spacing l.source) (l.place.span file l.text), _, ?_, rfl, rfl⟩
    rw [Lexeme.leaf?, hkind]
  · rename_i d hkind
    split at h
    · cases h
    · rename_i hdepth
      cases h
      exact .inr (.inl ⟨d, hkind, Nat.not_le.1 hdepth, rfl⟩)
  · rename_i d hkind
    split at h
    · cases h
    · rename_i o outer hopened
      split at h
      · rename_i hd
        cases h
        exact .inr (.inr ⟨o, outer, hopened, hd ▸ hkind, rfl⟩)
      · cases h

namespace Reads

theorem push (hr : Reads file ls b) (h : Assembled file ms [t]) :
    Reads file (ls ++ ms) (b.push t) := by
  cases hr with
  | @outermost _ trees hls =>
    refine .outermost ?_
    rw [List.reverse_cons]
    exact hls.append h
  | @inside ls inner o outer trees houter hopener hinner =>
    rw [List.append_assoc, List.cons_append]
    refine .inside houter hopener ?_
    rw [List.reverse_cons]
    exact hinner.append h

theorem add (hr : Reads file ls b) (h : b.add file l = .ok b') : Reads file (ls ++ [l]) b' := by
  rcases add_cases h with ⟨t, tree, ht, htree, rfl⟩ | ⟨d, hkind, -, rfl⟩ |
    ⟨o, outer, hopened, hkind, rfl⟩
  · exact hr.push (.leaf ht htree .nil)
  · exact @inside file ls [] ⟨d, l, b.trees⟩ b.opened [] hr hkind .nil
  · cases hr with
    | outermost => cases hopened
    | @inside ls inner o' outer' trees houter hopener hinner =>
      cases hopened
      rw [List.append_assoc, List.cons_append]
      exact houter.push (.group hopener hkind hinner .nil)

theorem foldlM (hr : Reads file ls b) (h : ms.foldlM (Builder.add file) b = .ok b') :
    Reads file (ls ++ ms) b' := by
  induction ms generalizing ls b with
  | nil =>
    cases h
    rwa [List.append_nil]
  | cons l ms ih =>
    rw [List.foldlM_cons] at h
    cases hadd : b.add file l with
    | error e =>
      rw [hadd] at h
      cases h
    | ok b₁ =>
      rw [hadd] at h
      simpa using ih (hr.add hadd) h

end Reads

end Builder

/-- The trees of a scan are made of all its lexemes, and the scan reached the end of the text. -/
theorem assemble_spec {file : String} {scan : Scan} {trees : List TokenTree}
    (h : assemble file scan = .ok trees) : Assembled file scan.lexemes trees ∧ scan.rest = [] := by
  unfold assemble at h
  cases hfold : scan.lexemes.foldlM (Builder.add file) ⟨[], []⟩ with
  | error e =>
    rw [hfold] at h
    cases h
  | ok b =>
    rw [hfold] at h
    have hr : Builder.Reads file ([] ++ scan.lexemes) b := .foldlM (.outermost .nil) hfold
    change b.finish scan = .ok trees at h
    rw [List.nil_append] at hr
    generalize scan.lexemes = ls at hr ⊢
    cases hr with
    | outermost hls =>
      simp only [Builder.finish, List.getLast?_nil] at h
      split at h
      · rename_i hrest
        cases h
        exact ⟨hls, List.isEmpty_iff.1 hrest⟩
      · cases h
    | inside =>
      rw [Builder.finish, List.getLast?_cons] at h
      cases h

end Lexer

end TokenParsing
