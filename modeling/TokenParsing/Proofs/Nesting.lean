import TokenParsing.Proofs.AtHand

/-!
# Levels are the groups around the next token

What is around a token can be told from the trees alone (`TokenStream.nested`): a group is around all of
its tokens, the closing delimiter among them, and the opening delimiter stands in front of it. The levels
of an input tell the same of the tokens that are left, each of which has its own level and those further
out around it (`Level.nested`). No move changes that (`Level.nested_move`), whether it enters a group or
drops a level, so it is true of all that is left whenever an input is read.

An input is settled, so that its innermost level is the one of the next token. Hence its levels are the
groups around this token and the outermost level, and it has no level at the end (`Input.depth_eq`).
-/

namespace TokenParsing

mutual

/-- The tokens of a tree, each with what is around it, innermost first; `around` is what is around the
tree. -/
def TokenTree.nested (around : List Enclosure) : TokenTree → List (Token × List Enclosure)
  | .ident text span => [(.ident text span, around)]
  | .literal text span => [(.literal text span, around)]
  | .punct c spacing span => [(.punct c spacing span, around)]
  | .group d trees span =>
    match d.marks? with
    | none => TokenStream.nested (.invisible span :: around) trees
    | some (opener, closer) =>
      let inside := .visible closer span :: around
      (.delim opener.toString span, around) ::
        (TokenStream.nested inside trees ++ [(.delim closer.toString span, inside)])

def TokenStream.nested (around : List Enclosure) : List TokenTree → List (Token × List Enclosure)
  | [] => []
  | t :: rest => t.nested around ++ TokenStream.nested around rest

end

mutual

theorem TokenTree.map_fst_nested (around : List Enclosure) :
    ∀ t : TokenTree, (t.nested around).map (·.1) = t.flatten
  | .ident .. | .literal .. | .punct .. => by simp [TokenTree.nested, TokenTree.flatten]
  | .group d trees span => by
    cases h : d.marks? with
    | none =>
      simp only [TokenTree.nested, TokenTree.flatten, h]
      exact TokenStream.map_fst_nested _ trees
    | some m =>
      have ih := TokenStream.map_fst_nested (.visible m.2 span :: around) trees
      simp [TokenTree.nested, TokenTree.flatten, h, ih]

theorem TokenStream.map_fst_nested (around : List Enclosure) :
    ∀ ts : List TokenTree, (TokenStream.nested around ts).map (·.1) = TokenStream.flatten ts
  | [] => by simp [TokenStream.nested]
  | t :: ts => by
    rw [TokenStream.nested, List.map_append, TokenTree.map_fst_nested, TokenStream.map_fst_nested,
      TokenStream.flatten_cons]

end

mutual

theorem TokenTree.nested_append (inner outer : List Enclosure) :
    ∀ t : TokenTree, t.nested (inner ++ outer) = (t.nested inner).map fun e => (e.1, e.2 ++ outer)
  | .ident .. | .literal .. | .punct .. => by simp [TokenTree.nested]
  | .group d trees span => by
    cases h : d.marks? with
    | none =>
      simp only [TokenTree.nested, h]
      exact TokenStream.nested_append (.invisible span :: inner) outer trees
    | some m =>
      have ih := TokenStream.nested_append (.visible m.2 span :: inner) outer trees
      simp only [List.cons_append] at ih
      simp [TokenTree.nested, h, ih]

theorem TokenStream.nested_append (inner outer : List Enclosure) :
    ∀ ts : List TokenTree, TokenStream.nested (inner ++ outer) ts =
      (TokenStream.nested inner ts).map fun e => (e.1, e.2 ++ outer)
  | [] => by simp [TokenStream.nested]
  | t :: ts => by
    rw [TokenStream.nested, TokenTree.nested_append, TokenStream.nested_append, TokenStream.nested,
      List.map_append]

end

namespace Level

/-- The tokens of the levels, each with what is around it, which is its level and the levels outside. -/
def nested : List Level → List (Token × List Enclosure)
  | [] => []
  | l :: outer =>
    let around := (l :: outer).map (·.enclosure)
    TokenStream.nested around l.rest ++ (l.enclosure.owed?.toList.map (·, around) ++ nested outer)

variable {levels : List Level}

/-- A token that comes of a move has the levels around it, and around the others is what was there. -/
theorem nested_move (levels : List Level) :
    nested levels = match move levels with
      | .finished => []
      | .token t next => (t, levels.map (·.enclosure)) :: nested next
      | .silent next => nested next := by
  match levels with
  | [] => rfl
  | ⟨e, []⟩ :: outer =>
    cases he : e.owed? with
    | none => simp [move, nested, TokenStream.nested, he]
    | some t => simp [move, nested, TokenStream.nested, he]
  | ⟨e, t :: rest⟩ :: outer =>
    cases t with
    | group d trees span =>
      cases hd : d.marks? with
      | none => simp [move, nested, TokenStream.nested, TokenTree.nested, Enclosure.owed?, hd]
      | some m => simp [move, nested, TokenStream.nested, TokenTree.nested, Enclosure.owed?, hd]
    | ident | literal | punct => simp [move, nested, TokenStream.nested, TokenTree.nested]

theorem nested_settle (levels : List Level) : nested (settle levels) = nested levels := by
  fun_induction settle levels with
  | case1 levels next h ih => rw [ih, nested_move levels, h]
  | case2 => rfl

theorem Settled.nested_eq (h : Settled levels) :
    nested levels = (next? levels).elim [] fun (t, next) =>
      (t, levels.map (·.enclosure)) :: nested next := by
  have hfound := settled_iff.1 h
  rw [nested_move, hfound.move_eq]
  cases next? levels <;> rfl

end Level

namespace Input

variable {trees : List TokenTree} {i : Input}

/-- Whenever an input is read, its levels tell what is around the tokens that are left. -/
theorem nested_levels (hi : (Stream.input i).Reachable trees) :
    Level.Settled i.levels ∧
      Level.nested i.levels = (TokenStream.nested [.outermost] trees).drop i.ordinal := by
  refine hi.input_rec (P := fun i => Level.Settled i.levels ∧
    Level.nested i.levels = (TokenStream.nested [.outermost] trees).drop i.ordinal)
    ⟨Level.settled_settle _, ?_⟩ ?_
  · rw [ofTrees, Level.nested_settle]
    simp [Level.nested, Enclosure.owed?]
  · rintro i ⟨hsettled, hnested⟩
    have hnext := hsettled.nested_eq
    unfold Input.next
    split
    · rename_i t rest h
      refine ⟨Level.settled_settle rest, ?_⟩
      rw [h, hnested] at hnext
      rw [Level.nested_settle, ← List.tail_drop, hnext]
      rfl
    · rename_i h
      refine ⟨fun _ => Move.noConfusion, ?_⟩
      rw [h, hnested] at hnext
      exact hnext.symm

/-- After as many tokens as an input has read, its depth is one more than the number of groups around the
next token, visible and invisible ones, and these are its levels with the outermost one. At the end the
depth is zero. -/
theorem depth_eq (hi : (Stream.input i).Reachable trees) :
    (TokenStream.nested [] trees).map (·.1) = TokenStream.flatten trees ∧
      match (TokenStream.nested [] trees)[i.ordinal]? with
      | some (t, groups) => i.peek = some t ∧ i.depth = 1 + groups.length ∧
          i.levels.map (·.enclosure) = groups ++ [.outermost]
      | none => i.peek = none ∧ i.depth = 0 ∧ i.ordinal = (TokenStream.flatten trees).length := by
  have hflat := TokenStream.map_fst_nested [] trees
  obtain ⟨hsettled, hnested⟩ := nested_levels hi
  obtain ⟨n, h⟩ := hi.input_at
  have hpeek : i.peek = ((TokenStream.nested [] trees)[i.ordinal]?).map (·.1) := by
    rw [← List.getElem?_map, hflat, h.ordinal_eq]
    exact h.peek
  -- what is around the token at the place of the input, looked up in the list and read off the levels
  have hplace : ((TokenStream.nested [] trees)[i.ordinal]?).map (fun e => (e.1, e.2 ++ [.outermost])) =
      (Level.next? i.levels).map fun e => (e.1, i.levels.map (·.enclosure)) := by
    rw [← List.getElem?_map, ← TokenStream.nested_append, List.nil_append, ← List.head?_drop,
      ← hnested, hsettled.nested_eq]
    cases Level.next? i.levels <;> rfl
  refine ⟨hflat, ?_⟩
  split
  · rename_i t groups hget
    rw [hget] at hpeek hplace
    obtain ⟨found, -, hfound⟩ := Option.map_eq_some_iff.1 hplace.symm
    have hlevels : i.levels.map (·.enclosure) = groups ++ [.outermost] := congrArg Prod.snd hfound
    have hlength := congrArg List.length hlevels
    rw [List.length_map, List.length_append, List.length_singleton, Nat.add_comm] at hlength
    exact ⟨hpeek, hlength, hlevels⟩
  · rename_i hget
    rw [hget] at hpeek hplace
    have hend : Level.AtHand i.levels none := by
      rw [← Option.map_eq_none_iff.1 hplace.symm]
      exact Level.settled_iff.1 hsettled
    have hnil : i.levels = [] := Level.eq_nil_of_move_eq_finished hend.move_eq
    have hle := List.getElem?_eq_none_iff.1 hget
    rw [← List.length_map (·.1), hflat] at hle
    have hge : i.ordinal ≤ (TokenStream.flatten trees).length := h.ordinal_eq ▸ h.index_le
    exact ⟨hpeek, by rw [depth, hnil, List.length_nil], Nat.le_antisymm hge hle⟩

/-- Of `a ( b [ ] c ) +`, with an invisible group around the brackets and one around the parentheses,
behind `[`: the next token is `]`, with four groups around it. -/
theorem depth_eq_nested :
    let leaf (text : String) : TokenTree := .ident text .callSite
    let hidden (ts : List TokenTree) : TokenTree := .group .invisible ts .callSite
    let parens : Span := ⟨"<input>", 1, 3, 1, 12, ""⟩
    let brackets : Span := ⟨"<input>", 1, 7, 1, 10, ""⟩
    let trees : List TokenTree := [leaf "a", hidden [hidden [], .group .parenthesis [leaf "b",
      hidden [.group .bracket [hidden []] brackets, hidden []], leaf "c"] parens],
      .punct '+' .alone .callSite]
    let i := (ofTrees trees).next.2.next.2.next.2.next.2
    (Stream.input i).Reachable trees ∧ i.peek = some (.delim "]" brackets) ∧ i.depth = 1 + 4 ∧
      i.levels.map (·.enclosure) = [.visible ']' brackets, .invisible .callSite, .visible ')' parens,
        .invisible .callSite, .outermost] := by
  intro leaf hidden parens brackets trees i
  have hstart : (Stream.input (ofTrees trees)).Reachable trees := .ofTrees
  have hi : (Stream.input i).Reachable trees := hstart.next.next.next.next
  have hget : (TokenStream.nested [] trees)[i.ordinal]? = some (.delim "]" brackets,
      [.visible ']' brackets, .invisible .callSite, .visible ')' parens, .invisible .callSite]) := by
    decide +kernel
  have hdepth := (depth_eq hi).2
  rw [hget] at hdepth
  exact ⟨hi, hdepth⟩

end Input

end TokenParsing
