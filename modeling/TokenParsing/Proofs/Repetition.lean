import TokenParsing.Proofs.Expectations

/-!
# Repetitions and their minimum

A repetition runs its body again and again as long as it succeeds and reads something
(`Action.Repeats`), and what it comes to is decided in the round behind (`Action.manyFrom_last`). It
fails only where the body does, after reading or too early. It succeeds where the body fails without
reading and often enough, and then it has as many values as it has to. But it also succeeds where the
body reads nothing, however early that is, and then it can have fewer (`Parser.run_many`).
-/

namespace TokenParsing

namespace Parser

/-- What the parser does as a part of a run that starts at the source, within the bounds of that run. -/
def actionFrom (rules : Rules) (source : Input) (p : Parser) : Action Input Value :=
  let limit := TokenSource.remaining source + 1
  p.action (rules.call limit ((rules.length + 1) * limit)) limit

theorem run_eq (rules : Rules) (p : Parser) (s : State Input) :
    p.run rules s = p.actionFrom rules s.source s := rfl

theorem actionFrom_many (rules : Rules) (source : Input) (minimum : Int) (p : Parser) :
    (many minimum p).actionFrom rules source =
      Action.many minimum (TokenSource.remaining source + 1) (p.actionFrom rules source) := rfl

end Parser

namespace Action

/-- The body succeeds with one value after the other, and reads something each time. -/
inductive Repeats (body : Action Input Value) : List Value → State Input → State Input → Prop
  | nil (s : State Input) : Repeats body [] s s
  | cons {v : Value} {vs : List Value} {hint : Hint} {s s' s'' : State Input}
    (h : body s = (.success v hint, s')) (hread : s.ordinal < s'.ordinal)
    (hrest : Repeats body vs s' s'') : Repeats body (v :: vs) s s''

theorem Repeats.le {body : Action Input Value} {vs : List Value} {s s' : State Input}
    (h : Repeats body vs s s') : s.ordinal ≤ s'.ordinal := by
  induction h with
  | nil => exact le_rfl
  | cons _ hread _ ih => exact hread.le.trans ih

/-- The body fails, or reads nothing. -/
def Idles (body : Action Input Value) (s : State Input) : Prop :=
  ∀ v hint s', body s = (.success v hint, s') → s'.ordinal = s.ordinal

/-- What a repetition comes to in its last round, behind `count` other ones and with their hint. -/
def lastRound (start minimum : Int) (count : Nat) (hint : Hint) :
    Result Value × State Input → Result (List Value) × State Input
  | (.success v _, s) => (.success [v] hint, s)
  | (.failure e, s) =>
    if e.committed = true ∨ (count : Int) < minimum then
      (.failure (e.commitIf (start < s.ordinal)), s)
    else (.success [] (some (hint.extend e)), s)
  | (.abort f, s) => (.abort f, s)

variable {body : Action Input Value} {start minimum : Int} {count : Nat} {hint : Hint}
  {s : State Input}

theorem manyFrom_of_idles (h : Idles body s) (limit : Nat) :
    manyFrom start minimum body (limit + 1) count hint s =
      lastRound start minimum count hint (body s) := by
  simp only [manyFrom]
  generalize hbody : body s = outcome
  obtain ⟨v | e | f, s'⟩ := outcome
  · exact if_pos (h v _ s' hbody)
  · rfl
  · rfl

theorem manyFrom_of_reads {v : Value} {new : Hint} {s' : State Input}
    (h : body s = (.success v new, s')) (hread : s'.ordinal ≠ s.ordinal) (limit : Nat) :
    manyFrom start minimum body (limit + 1) count hint s =
      ((manyFrom start minimum body limit (count + 1) new s').1.map (v :: ·),
        (manyFrom start minimum body limit (count + 1) new s').2) := by
  simp only [manyFrom, h, if_neg hread]

/-- A repetition comes down to its last round. -/
theorem manyFrom_last (hbody : Tidy body) (start minimum : Int) (limit count : Nat) (hint : Hint)
    (s : State Input) :
    (manyFrom start minimum body limit count hint s).1 = .abort .exhausted ∨
      ∃ vs s₁ hint₁, body.Repeats vs s s₁ ∧ body.Idles s₁ ∧
        manyFrom start minimum body limit count hint s =
          let last := lastRound start minimum (count + vs.length) hint₁ (body s₁)
          (last.1.map (vs ++ ·), last.2) := by
  induction limit generalizing count hint s with
  | zero => exact .inl rfl
  | succ limit ih =>
    by_cases hidle : body.Idles s
    · refine .inr ⟨[], s, hint, .nil s, hidle, ?_⟩
      rw [manyFrom_of_idles hidle]
      generalize lastRound _ _ _ _ _ = last
      obtain ⟨_ | _ | _, s'⟩ := last <;> rfl
    · simp only [Idles, not_forall] at hidle
      obtain ⟨v, new, s', h, hne⟩ := hidle
      have hread := (hbody.ordinal_cases h).resolve_right hne
      rw [manyFrom_of_reads h hne]
      rcases ih (count + 1) new s' with hexhausted | ⟨vs, s₁, hint₁, hrepeats, hidle, heq⟩
      · exact .inl (by rw [hexhausted]; rfl)
      · refine .inr ⟨v :: vs, s₁, hint₁, .cons h hread hrepeats, hidle, ?_⟩
        rw [heq, List.length_cons, Nat.add_right_comm, Nat.add_assoc]
        generalize lastRound _ _ _ _ _ = last
        obtain ⟨_ | _ | _, s'⟩ := last <;> rfl

end Action

namespace Parser

/-- A repetition that succeeds has at least as many values as it has to, unless the last of them is of a
round that read nothing. One that fails ends with a round that fails after reading, or that fails behind
fewer rounds than there have to be. -/
theorem run_many (rules : Rules) (minimum : Int) (p : Parser) (s : State Input) :
    let body := p.actionFrom rules s.source
    match (Parser.many minimum p).run rules s with
    | (.success v _, s') => ∃ vs s₁, body.Repeats vs s s₁ ∧ s'.source = s₁.source ∧
        ((∃ e, body s₁ = (.failure e, s') ∧ minimum ≤ vs.length ∧ v = .list vs) ∨
          ∃ w hint, body s₁ = (.success w hint, s') ∧ v = .list (vs ++ [w]))
    | (.failure _, s') => ∃ vs s₁ e, body.Repeats vs s s₁ ∧ body s₁ = (.failure e, s') ∧
        (s₁.ordinal < s'.ordinal ∨ vs.length < minimum)
    | (.abort f, s') => f = .exhausted ∨
        ∃ vs s₁, body.Repeats vs s s₁ ∧ body s₁ = (.abort f, s') := by
  intro body
  have hbody : Action.Tidy body := Action.tidy_stable.action rules _ _ p
  generalize hfrom : Action.manyFrom s.ordinal minimum body (TokenSource.remaining s.source + 1) 0
    none s = outcome
  have hrun : (Parser.many minimum p).run rules s = (outcome.1.map .list, outcome.2) := by
    rw [run_eq, actionFrom_many, Action.many, hfrom]
  have hlast := Action.manyFrom_last hbody s.ordinal minimum (TokenSource.remaining s.source + 1) 0
    none s
  rw [hfrom] at hlast
  rw [hrun]
  rcases hlast with hexhausted | ⟨vs, s₁, hint₁, hrepeats, hidle, heq⟩
  · rw [hexhausted]
    exact .inl rfl
  rw [heq, Nat.zero_add]
  generalize hround : body s₁ = round
  obtain ⟨w | e | f, s'⟩ := round
  · -- the idle round leaves the input where the last round that read left it
    have hsame : s'.source = s₁.source :=
      (hbody.success hround).1.eq_of_le (Int.ofNat_le.1 (hidle w _ s' hround).le)
    exact ⟨vs, s₁, hrepeats, hsame, .inr ⟨w, _, hround, rfl⟩⟩
  · by_cases hstop : e.committed = true ∨ (vs.length : Int) < minimum
    · simp only [Action.lastRound, if_pos hstop, Result.map]
      refine ⟨vs, s₁, e, hrepeats, hround, hstop.imp_left fun hcommitted => ?_⟩
      rcases hbody.committed_cases hround with ⟨-, hread⟩ | ⟨hcommitted', -⟩
      · exact hread
      · rw [hcommitted] at hcommitted'
        cases hcommitted'
    · simp only [Action.lastRound, if_neg hstop, Result.map, List.append_nil]
      rw [not_or, Bool.not_eq_true, not_lt] at hstop
      exact ⟨vs, s₁, hrepeats, hbody.source_eq hround hstop.1, .inl ⟨e, hround, hstop.2, rfl⟩⟩
  · exact .inr ⟨vs, s₁, hrepeats, hround⟩

/-- On `1`, an option succeeds once and reads nothing, and there should have been two of it. -/
theorem run_many_short :
    let twice : Parser := .many 2 (.opt .null (.token .ident))
    ∃ hint s', twice.run [] ⟨Input.ofTrees [.literal "1" .callSite], {}⟩ =
      (.success (.list [.null]) hint, s') := by
  intro twice
  exact ⟨_, _, by with_unfolding_all rfl⟩

end Parser

end TokenParsing
