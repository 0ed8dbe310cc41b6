import TokenParsing.Proofs.Settling

/-!
# Rebuilding before anything is read

Opening trees enters and leaves the invisible groups in front of the first token, and those that hold
no token are gone then. Rebuilding gives all the rest back (`Input.intoTrees_ofTrees`). The lost
groups have no text of their own, but the rendering has a space between such a group and the next
tree of its stream. So the rebuilt trees render as before without these spaces, and exactly as before
where there are none (`Input.render_intoTrees_ofTrees`).
-/

namespace TokenParsing

mutual

/-- The tree without the groups in front of its first token that hold none. A tree without tokens is
dropped itself. -/
def TokenTree.trimmed? : TokenTree → Option TokenTree
  | .group .invisible trees span =>
    match TokenStream.trimmed trees with
    | [] => none
    | t :: ts => some (.group .invisible (t :: ts) span)
  | t => some t

/-- The trees without the groups in front of the first token that hold none. -/
def TokenStream.trimmed : List TokenTree → List TokenTree
  | [] => []
  | t :: rest =>
    match t.trimmed? with
    | some u => u :: rest
    | none => TokenStream.trimmed rest

end

mutual

/-- The number of trees within a tree that stand in front of its first token, hold no token, and have
another tree behind them. -/
def TokenTree.blanks : TokenTree → Nat
  | .group .invisible trees _ => TokenStream.blanks trees
  | _ => 0

/-- The number of trees that stand in front of the first token, hold no token, and have another tree
behind them. -/
def TokenStream.blanks : List TokenTree → Nat
  | [] => 0
  | t :: rest =>
    if t.flatten = [] ∧ rest ≠ [] then t.blanks + 1 + TokenStream.blanks rest else t.blanks

end

mutual

theorem TokenTree.trimmed?_eq_none_iff : ∀ t : TokenTree, t.trimmed? = none ↔ t.flatten = []
  | .ident .. | .literal .. | .punct .. => by simp [TokenTree.trimmed?, TokenTree.flatten]
  | .group .parenthesis .. | .group .brace .. | .group .bracket .. => by
    simp [TokenTree.trimmed?, TokenTree.flatten, Delimiter.marks?]
  | .group .invisible trees span => by
    have ih := TokenStream.trimmed_eq_nil_iff trees
    rw [TokenTree.trimmed?, TokenTree.flatten, Delimiter.marks?, ← ih]
    cases TokenStream.trimmed trees <;> simp

theorem TokenStream.trimmed_eq_nil_iff :
    ∀ ts : List TokenTree, TokenStream.trimmed ts = [] ↔ TokenStream.flatten ts = []
  | [] => by simp [TokenStream.trimmed]
  | t :: rest => by
    have htree := t.trimmed?_eq_none_iff
    have ih := TokenStream.trimmed_eq_nil_iff rest
    rw [TokenStream.trimmed, TokenStream.flatten_cons, List.append_eq_nil_iff, ← htree, ← ih]
    cases t.trimmed? <;> simp

end

mutual

theorem TokenTree.rebuild_settle (e : Enclosure) (rest : List TokenTree) (outer : List Level) :
    ∀ t : TokenTree, Level.rebuild [] (Level.settle (⟨e, t :: rest⟩ :: outer)) =
      match t.trimmed? with
      | some u => Level.rebuild [] (⟨e, u :: rest⟩ :: outer)
      | none => Level.rebuild [] (Level.settle (⟨e, rest⟩ :: outer))
  | .ident .. | .literal .. | .punct .. => by
    rw [Level.settle]
    simp [Level.move, TokenTree.trimmed?]
  | .group .parenthesis .. | .group .brace .. | .group .bracket .. => by
    rw [Level.settle]
    simp [Level.move, Delimiter.marks?, TokenTree.trimmed?]
  | .group .invisible trees span => by
    have ih := TokenStream.rebuild_settle (.invisible span) rfl (⟨e, rest⟩ :: outer) trees
    rw [Level.settle_of_silent rfl, ih, TokenTree.trimmed?]
    cases TokenStream.trimmed trees with
    | nil => rfl
    | cons u us => simp [Level.rebuild, Enclosure.rebuild]

/-- Settling drops what is trimmed, and the whole level if all of it is. -/
theorem TokenStream.rebuild_settle (e : Enclosure) (he : e.owed? = none) (outer : List Level) :
    ∀ ts : List TokenTree, Level.rebuild [] (Level.settle (⟨e, ts⟩ :: outer)) =
      match TokenStream.trimmed ts with
      | [] => Level.rebuild [] (Level.settle outer)
      | u :: us => Level.rebuild [] (⟨e, u :: us⟩ :: outer)
  | [] => by
    have hmove : Level.move (⟨e, []⟩ :: outer) = .silent outer := by simp [Level.move, he]
    rw [Level.settle_of_silent hmove, TokenStream.trimmed]
  | t :: rest => by
    have htree := t.rebuild_settle e rest outer
    have ih := TokenStream.rebuild_settle e he outer rest
    rw [htree, TokenStream.trimmed]
    cases t.trimmed? with
    | none => exact ih
    | some u => rfl

end

/-- That many spaces. -/
def spaces (n : Nat) : String := String.ofList (List.replicate n ' ')

theorem spaces_add (m n : Nat) : spaces (m + n) = spaces m ++ spaces n := by
  rw [spaces, ← List.replicate_append_replicate, String.ofList_append]
  rfl

theorem TokenTree.gap_of_trimmed? {t u : TokenTree} (h : t.trimmed? = some u) : u.gap = t.gap := by
  unfold TokenTree.trimmed? at h
  split at h
  · split at h <;> cases h
    rfl
  · cases h
    rfl

theorem TokenTree.gap_of_trimmed?_eq_none {t : TokenTree} (h : t.trimmed? = none) :
    t.gap = spaces 1 := by
  unfold TokenTree.trimmed? at h
  split at h
  · rfl
  · cases h

theorem TokenTree.render_group_invisible (ts : List TokenTree) (span : Span) :
    (group .invisible ts span).render = TokenStream.render ts := by
  simp [render, Delimiter.wrap, Delimiter.marks?]

mutual

theorem TokenTree.render_trimmed? : ∀ t : TokenTree,
    t.render = spaces t.blanks ++ (t.trimmed?.map TokenTree.render).getD ""
  | .ident .. | .literal .. | .punct .. => by simp [TokenTree.trimmed?, TokenTree.blanks, spaces]
  | .group .parenthesis .. | .group .brace .. | .group .bracket .. => by
    simp [TokenTree.trimmed?, TokenTree.blanks, spaces]
  | .group .invisible trees span => by
    have ih := TokenStream.render_trimmed trees
    rw [TokenTree.render_group_invisible, ih, TokenTree.blanks, TokenTree.trimmed?]
    cases TokenStream.trimmed trees with
    | nil => simp [TokenStream.render]
    | cons u us => simp [TokenTree.render_group_invisible]

theorem TokenStream.render_trimmed : ∀ ts : List TokenTree, TokenStream.render ts =
    spaces (TokenStream.blanks ts) ++ TokenStream.render (TokenStream.trimmed ts)
  | [] => by simp [TokenStream.render, TokenStream.trimmed, TokenStream.blanks, spaces]
  | [t] => by
    have htree := t.render_trimmed?
    rw [TokenStream.render, htree, TokenStream.blanks, TokenStream.trimmed, if_neg (by simp)]
    cases t.trimmed? <;> simp [TokenStream.render, TokenStream.trimmed]
  | t :: u :: rest => by
    have htree := t.render_trimmed?
    have ih := TokenStream.render_trimmed (u :: rest)
    rw [TokenStream.render, htree, TokenStream.trimmed, TokenStream.blanks]
    cases ht : t.trimmed? with
    | none =>
      rw [if_pos ⟨t.trimmed?_eq_none_iff.1 ht, by simp⟩, TokenTree.gap_of_trimmed?_eq_none ht, ih]
      simp [spaces_add, String.append_assoc]
    | some v =>
      have hne : t.flatten ≠ [] := fun h => by
        rw [t.trimmed?_eq_none_iff.2 h] at ht
        cases ht
      rw [if_neg fun h => hne h.1, ← TokenTree.gap_of_trimmed? ht]
      simp [TokenStream.render, String.append_assoc]

end

namespace Input

/-- Rebuilding an input before anything is read gives back all but what settling dropped. -/
theorem intoTrees_ofTrees (trees : List TokenTree) :
    (ofTrees trees).intoTrees = TokenStream.trimmed trees := by
  have h := TokenStream.rebuild_settle .outermost rfl [] trees
  rw [intoTrees, ofTrees, h]
  cases TokenStream.trimmed trees with
  | nil => rw [Level.settle]; rfl
  | cons u us => rfl

/-- Rebuilt before anything is read, trees render as they did, but for a space for each tree without
tokens in front of another one ahead of the first token. So they render alike exactly if there is no
such tree. -/
theorem render_intoTrees_ofTrees (trees : List TokenTree) :
    TokenStream.render trees =
        spaces (TokenStream.blanks trees) ++ TokenStream.render (ofTrees trees).intoTrees ∧
      (TokenStream.render (ofTrees trees).intoTrees = TokenStream.render trees ↔
        TokenStream.blanks trees = 0) := by
  have h := TokenStream.render_trimmed trees
  rw [← intoTrees_ofTrees] at h
  refine ⟨h, fun heq => ?_, fun hzero => ?_⟩
  · have hlength := congrArg String.length h
    rw [heq, String.length_append, spaces, String.length_ofList, List.length_replicate] at hlength
    omega
  · rw [h, hzero]
    exact String.empty_append.symm

/-- The space behind an empty invisible group is gone. -/
theorem render_intoTrees_ofTrees_ne :
    let trees : List TokenTree := [.group .invisible [] .callSite, .ident "a" .callSite]
    TokenStream.render (ofTrees trees).intoTrees ≠ TokenStream.render trees := by
  intro trees
  decide +kernel

end Input

end TokenParsing
