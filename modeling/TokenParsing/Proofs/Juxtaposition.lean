import TokenParsing.Proofs.Grouping
import TokenParsing.Proofs.Repetition
import TokenParsing.Proofs.Termination

/-!
# One parser behind another

A parser that is put behind a sequence becomes the last part of this sequence, and behind any other
parser the second of two. So how many values stand in front of its own depends on how the parser in
front of it is written (`Parser.spread`); all else that becomes of the two does not
(`Parser.append_run`).
-/

namespace TokenParsing

namespace Action

theorem sequenceFrom_append (start : Int) (front back : List (Action Input Value)) (hint : Hint)
    (s : State Input) :
    sequenceFrom start (front ++ back) hint s =
      match sequenceFrom start front hint s with
      | (.success vs hint, s') =>
        ((sequenceFrom start back hint s').1.map (vs ++ ·), (sequenceFrom start back hint s').2)
      | (.failure e, s') => (.failure e, s')
      | (.abort f, s') => (.abort f, s') := by
  induction front generalizing hint s with
  | nil =>
    simp only [List.nil_append, sequenceFrom]
    generalize sequenceFrom start back hint s = rest
    obtain ⟨_ | _ | _, t⟩ := rest <;> rfl
  | cons p front ih =>
    simp only [List.cons_append, sequenceFrom]
    generalize p s = first
    obtain ⟨⟨v, new⟩ | e | f, s₁⟩ := first
    · simp only [ih]
      generalize sequenceFrom start front _ s₁ = middle
      obtain ⟨⟨vs, hint'⟩ | _ | _, s₂⟩ := middle
      · simp only [Result.map]
        generalize sequenceFrom start back hint' s₂ = rest
        obtain ⟨_ | _ | _, s₃⟩ := rest <;> rfl
      · rfl
      · rfl
    · rfl
    · rfl

/-- The action succeeds with the value, and has read the tokens. -/
structure Takes (a : Action Input Value) (ts : List Token) (v : Value) (s s' : State Input) :
    Prop where
  succeeds : ∃ hint, a s = (.success v hint, s')
  tokens_eq : s.source.tokens = ts ++ s'.source.tokens

theorem Steady.takes {tokens : List Token} {n : Nat} {a : Action Input Value} (ha : Steady tokens a)
    {s s' : State Input} (hs : s.source.At ⟨tokens, n⟩) {v : Value} {hint : Hint}
    (h : a s = (.success v hint, s')) :
    ∃ m, n ≤ m ∧ s'.source.At ⟨tokens, m⟩ ∧ a.Takes (tokens.extract n m) v s s' := by
  have hplace : ∃ m, n ≤ m ∧ s'.source.At ⟨tokens, m⟩ := by
    rcases ha.success hs h with heq | ⟨m, hlt, hm⟩
    · exact ⟨n, Nat.le_refl n, heq ▸ hs⟩
    · exact ⟨m, Nat.le_of_lt hlt, hm⟩
  obtain ⟨m, hle, hm⟩ := hplace
  refine ⟨m, hle, hm, ⟨hint, h⟩, ?_⟩
  rw [hs.tokens_eq, hm.tokens_eq, List.extract_eq_take_drop]
  calc tokens.drop n = (tokens.drop n).take (m - n) ++ (tokens.drop n).drop (m - n) :=
        (List.take_append_drop _ _).symm
    _ = (tokens.drop n).take (m - n) ++ tokens.drop m := by
        rw [List.drop_drop, Nat.add_sub_cancel' hle]

/-- Two actions one behind the other, with a value of both. A failure of the second one is committed if
anything was read before it. -/
def behind (both : Value → Value → Value) (first second : Action Input Value) : Action Input Value :=
  fun s =>
    match first s with
    | (.success v hint, s₁) =>
      match second s₁ with
      | (.success w new, s₂) =>
        (.success (both v w) (if s₁.ordinal < s₂.ordinal then new else hint.merge new), s₂)
      | (.failure e, s₂) => (.failure ((e.withHint hint).commitIf (s.ordinal < s₂.ordinal)), s₂)
      | (.abort f, s₂) => (.abort f, s₂)
    | (.failure e, s₁) => (.failure e, s₁)
    | (.abort f, s₁) => (.abort f, s₁)

/-- The first action aborts, or the second one behind it. -/
def Interrupts (first second : Action Input Value) (f : Fault) (s s' : State Input) : Prop :=
  first s = (.abort f, s') ∨ ∃ us u s₁, first.Takes us u s s₁ ∧ second s₁ = (.abort f, s')

section

variable {tokens : List Token} {n : Nat} {both : Value → Value → Value}
  {first second : Action Input Value} {s s' : State Input}

theorem behind_takes (hfirst : Steady tokens first) (hsecond : Steady tokens second)
    (hs : s.source.At ⟨tokens, n⟩) {v : Value} {hint : Hint}
    (h : behind both first second s = (.success v hint, s')) :
    ∃ us u s₁ ts w m, first.Takes us u s s₁ ∧ second.Takes ts w s₁ s' ∧ v = both u w ∧ n ≤ m ∧
      s'.source.At ⟨tokens, m⟩ := by
  unfold behind at h
  split at h
  · rename_i u hint₁ s₁ h₁
    obtain ⟨k, hk, hplace, htakes⟩ := hfirst.takes hs h₁
    split at h
    · rename_i w hint₂ s₂ h₂
      obtain ⟨m, hm, hplace', htakes'⟩ := hsecond.takes hplace h₂
      cases h
      exact ⟨_, u, s₁, _, w, m, htakes, htakes', rfl, Nat.le_trans hk hm, hplace'⟩
    · cases h
    · cases h
  · cases h
  · cases h

theorem interrupts_of_behind (hfirst : Steady tokens first) (hs : s.source.At ⟨tokens, n⟩) {f : Fault}
    (h : behind both first second s = (.abort f, s')) : Interrupts first second f s s' := by
  unfold behind at h
  split at h
  · rename_i u hint₁ s₁ h₁
    obtain ⟨k, -, -, htakes⟩ := hfirst.takes hs h₁
    split at h
    · cases h
    · cases h
    · rename_i g s₂ h₂
      cases h
      exact .inr ⟨_, u, s₁, htakes, h₂⟩
  · cases h
  · rename_i g s₁ h₁
    cases h
    exact .inl h₁

end

end Action

namespace Parser

variable {rules : Rules} {source : Input} {p q : Parser} {s : State Input}

/-- The parsers that a parser gives to a sequence which it is the front of. -/
def parts : Parser → List Parser
  | .sequence ps => ps
  | p => [p]

/-- The values that a parser gives to such a sequence, where the value is its own. -/
def spread : Parser → Value → List Value
  | .sequence _, v => v.elements?.getD []
  | _, v => [v]

theorem spread_eq_singleton (hp : ∀ ps, p ≠ .sequence ps) (v : Value) :
    p.spread v = [v] := by
  cases p with
  | sequence ps => exact absurd rfl (hp ps)
  | _ => rfl

theorem append_eq_sequence (p q : Parser) : p.append q = .sequence (p.parts ++ [q]) := by
  cases p <;> rfl

theorem actionFrom_sequence (ps : List Parser) :
    (sequence ps).actionFrom rules source = Action.sequence (ps.map (·.actionFrom rules source)) := by
  simp only [actionFrom, action, actions_eq_map]

/-- A parser does the same as its parts in a sequence of other ones. -/
theorem sequenceFrom_parts (p : Parser) (s : State Input) :
    Action.sequenceFrom s.ordinal (p.parts.map (·.actionFrom rules source)) none s =
      ((p.actionFrom rules source s).1.map p.spread, (p.actionFrom rules source s).2) := by
  have hsingle (a : Action Input Value) (ha : Action.Tidy a) :
      Action.sequenceFrom s.ordinal [a] none s = ((a s).1.map ([·]), (a s).2) := by
    simp only [Action.sequenceFrom]
    generalize h : a s = outcome
    obtain ⟨v | e | f, s'⟩ := outcome
    · simp only [Hint.none_merge, ite_self, Result.map]
    · simp only [Failure.withHint_none, ha.commitIf_eq h, Result.map]
    · rfl
  cases p with
  | sequence ps =>
    rw [actionFrom_sequence]
    simp only [parts, Action.sequence]
    generalize Action.sequenceFrom s.ordinal _ none s = outcome
    obtain ⟨vs | e | f, s'⟩ := outcome <;> rfl
  | _ => exact hsingle _ (tidy_action rules _ _ _)

/-- What becomes of a parser behind another one. -/
theorem append_run (p q : Parser) (s : State Input) :
    (p.append q).actionFrom rules source s =
      Action.behind (fun v w => .tuple (p.spread v ++ [w])) (p.actionFrom rules source)
        (q.actionFrom rules source) s := by
  rw [append_eq_sequence, actionFrom_sequence, List.map_append, Action.sequence,
    Action.sequenceFrom_append, sequenceFrom_parts, Action.behind]
  generalize p.actionFrom rules source s = first
  obtain ⟨v | e | f, s₁⟩ := first
  · simp only [Result.map, List.map_cons, List.map_nil, Action.sequenceFrom]
    generalize q.actionFrom rules source s₁ = second
    obtain ⟨w | e | f, s₂⟩ := second <;> rfl
  · rfl
  · rfl

theorem length_spread {s' : State Input} {v : Value} {hint : Hint}
    (h : p.actionFrom rules source s = (.success v hint, s')) :
    (p.spread v).length = p.parts.length := by
  have hparts : Action.sequenceFrom s.ordinal (p.parts.map (·.actionFrom rules source)) none s = _ :=
    sequenceFrom_parts p s
  rw [h] at hparts
  rw [Action.length_sequenceFrom hparts, List.length_map]

theorem spread_append (p q : Parser) (vs : List Value) : (p.append q).spread (.tuple vs) = vs := by
  rw [append_eq_sequence]
  rfl

end Parser

end TokenParsing
