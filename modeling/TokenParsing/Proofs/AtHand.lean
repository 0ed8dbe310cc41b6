import TokenParsing.Proofs.StreamCursor

/-!
# The next token is at hand

Of levels that are settled the first look tells the next token (`Level.AtHand`): nothing is left, or the
innermost level starts with a leaf or with a visible group, or it is read and owes its closing delimiter.
Levels of any other form take another move before a token comes, so that these are the settled ones
(`Level.settled_iff`).

An input is settled when it is opened and after each token, and so it is whenever it is read
(`Input.next_at_hand`). Reading it then never drops a level without a token for it, and never finds an
invisible group to enter.
-/

namespace TokenParsing

namespace Level

/-- What the first look at some levels finds: the next token and the levels behind it, or that nothing is
left. There are other levels, at which the first look does not tell. -/
inductive AtHand : List Level → Option (Token × List Level) → Prop
  | finished : AtHand [] none
  | closer (closer : Char) (span : Span) (outer : List Level) :
    AtHand (⟨.visible closer span, []⟩ :: outer) (some (.delim closer.toString span, outer))
  | leaf {u : Token} {t : TokenTree} (h : u.toTree? = some t) (e : Enclosure)
    (rest : List TokenTree) (outer : List Level) :
    AtHand (⟨e, t :: rest⟩ :: outer) (some (u, ⟨e, rest⟩ :: outer))
  | opener {d : Delimiter} {opener closer : Char} (h : d.marks? = some (opener, closer))
    (e : Enclosure) (trees rest : List TokenTree) (span : Span) (outer : List Level) :
    AtHand (⟨e, .group d trees span :: rest⟩ :: outer)
      (some (.delim opener.toString span, ⟨.visible closer span, trees⟩ :: ⟨e, rest⟩ :: outer))

variable {levels : List Level} {found : Option (Token × List Level)}

theorem AtHand.move_eq (h : AtHand levels found) :
    move levels = found.elim .finished fun (t, next) => .token t next := by
  cases h with
  | finished | closer => rfl
  | @leaf u t ht e rest outer =>
    cases u with
    | delim => cases ht
    | ident | literal | punct => cases ht; rfl
  | opener hd => simp [move, hd]

theorem AtHand.settled (h : AtHand levels found) : Settled levels := by
  intro next
  rw [h.move_eq]
  cases found <;> simp

theorem AtHand.next?_eq (h : AtHand levels found) : next? levels = found := by
  have hmove := h.move_eq
  rw [next?]
  split
  all_goals
    rename_i hm
    rw [hmove] at hm
    cases found <;> cases hm
  · rfl
  · rfl

theorem Settled.exists_atHand (h : Settled levels) : ∃ found, AtHand levels found := by
  -- the cases are those of a move; the silent ones are what settled levels exclude
  match levels, h with
  | [], _ => exact ⟨_, .finished⟩
  | ⟨e, []⟩ :: outer, h =>
    cases e with
    | outermost | invisible => exact absurd rfl (h outer)
    | visible closer span => exact ⟨_, .closer closer span outer⟩
  | ⟨e, t :: rest⟩ :: outer, h =>
    cases t with
    | ident text span => exact ⟨_, .leaf (u := .ident text span) rfl e rest outer⟩
    | literal text span => exact ⟨_, .leaf (u := .literal text span) rfl e rest outer⟩
    | punct c spacing span => exact ⟨_, .leaf (u := .punct c spacing span) rfl e rest outer⟩
    | group d trees span =>
      cases hd : d.marks? with
      | none =>
        refine absurd ?_ (h (⟨.invisible span, trees⟩ :: ⟨e, rest⟩ :: outer))
        simp [move, hd]
      | some marks => exact ⟨_, .opener hd e trees rest span outer⟩

/-- Levels are settled exactly if the first look tells what the next token is. -/
theorem settled_iff : Settled levels ↔ AtHand levels (next? levels) := by
  refine ⟨fun h => ?_, AtHand.settled⟩
  obtain ⟨found, hfound⟩ := h.exists_atHand
  rwa [hfound.next?_eq]

end Level

namespace Input

variable {trees : List TokenTree} {i : Input}

/-- However an input is read, the first look at its levels tells the next token, and no move is made that
yields none. The levels run out exactly when no token is left. -/
theorem next_at_hand (hi : (Stream.input i).Reachable trees) :
    Level.AtHand i.levels (Level.next? i.levels) ∧
      (∀ levels, Level.move i.levels ≠ .silent levels) ∧
      (i.isEmpty = true ↔ i.levels = []) ∧
      (i.levels = [] ↔ (TokenStream.flatten trees).drop i.ordinal = []) := by
  obtain ⟨n, h⟩ := hi.input_at
  refine ⟨Level.settled_iff.1 h.settled, h.settled, List.isEmpty_iff, ?_⟩
  rw [h.settled.eq_nil_iff, h.ordinal_eq]
  exact iff_of_eq (congrArg (· = []) h.tokens_eq)

/-- Of `{ } +`, with an empty invisible group in front and the braces in one, behind `{`: there are three
levels, and the innermost one is read and owes `}`. -/
theorem next_at_hand_closer :
    let braces : Span := ⟨"<input>", 1, 1, 1, 4, ""⟩
    let trees : List TokenTree := [.group .invisible [] .callSite,
      .group .invisible [.group .brace [] braces] .callSite, .punct '+' .alone .callSite]
    let i := (ofTrees trees).next.2
    (Stream.input i).Reachable trees ∧ i.depth = 3 ∧
      (Level.next? i.levels).map (·.1) = some (.delim "\x7d" braces) ∧
      Level.AtHand i.levels (Level.next? i.levels) ∧
      (∀ levels, Level.move i.levels ≠ .silent levels) ∧ i.levels ≠ [] := by
  intro braces trees i
  have hstart : (Stream.input (ofTrees trees)).Reachable trees := .ofTrees
  obtain ⟨hfound, hmove, -, hend⟩ := next_at_hand hstart.next
  have hleft : ((TokenStream.flatten trees).drop i.ordinal) ≠ [] := by decide +kernel
  exact ⟨hstart.next, by decide +kernel, by decide +kernel, hfound, hmove, mt hend.1 hleft⟩

end Input

end TokenParsing
