import TokenParsing.Proofs.Standing

/-!
# Sequences within sequences

Whether three parsers stand in one sequence, or the last two in a sequence of their own, makes next to
no difference: the two read the same and come to the same values, nested otherwise, or to the same
failure (`Parser.run_regroup`). Only the labels of the failure may differ, and in one way. If the first
parser leaves a hint, and so does the second without reading, the one sequence merges the two hints and
keeps the further one, which then need not stand where the third parser fails. The nested sequence lets
each of them join the failure.

The hints of parsers without attempts stand where the parser stopped (`Parser.stands_action`), so that
none is further on than the other, and nothing is lost. Otherwise it may be (`Parser.run_regroup_lost`).
-/

namespace TokenParsing

namespace Failure

variable {e : Failure} {b : Bool} {labels : List String}

theorem commitIf_of_committed (hc : e.committed = true) : e.commitIf b = e := by
  obtain ⟨position, unexpected, expected, committed⟩ := e
  cases hc
  cases b <;> rfl

@[simp]
theorem commitIf_withExpected :
    (e.withExpected labels).commitIf b = (e.commitIf b).withExpected labels := by
  cases b <;> rfl

end Failure

namespace Action

/-- Of the hints that two parts of a sequence leave, the second without having read anything, one is
for a place further on, and the other has the label for the place `n`. The sequence stopped right there. -/
def Eclipses (p q : Action Input Value) (s s' : State Input) (n : Int) (label : String) : Prop :=
  ∃ (v w : Value) (hint hint' : Hint) (s₁ s₂ : State Input), p s = (.success v hint, s₁) ∧
    q s₁ = (.success w hint', s₂) ∧ s₂.ordinal = s₁.ordinal ∧ s'.ordinal = s₂.ordinal ∧
    hint.Eclipse hint' n label

/-- The outcomes of a sequence of three, and of a sequence of one and a sequence of two. They are alike,
but for labels that the first one lost. -/
inductive Regrouped (lost : State Input → Int → String → Prop) :
    Result Value × State Input → Result Value × State Input → Prop
  | success (u v w : Value) (hint : Hint) (s : State Input) :
    Regrouped lost (.success (.tuple [u, v, w]) hint, s) (.success (.tuple [u, .tuple [v, w]]) hint, s)
  | failure (e : Failure) (labels : List String) (s : State Input)
    (hlabels : ∀ label, label ∈ labels ↔ label ∈ e.expected ∨ lost s e.ordinal label) :
    Regrouped lost (.failure e, s) (.failure (e.withExpected labels), s)
  | abort (f : Fault) (s : State Input) : Regrouped lost (.abort f, s) (.abort f, s)

variable {p q r : Action Input Value} {lost lost' : State Input → Int → String → Prop}
  {s s' : State Input} {e : Failure}

theorem Regrouped.refl_failure (h : ∀ label, ¬lost s e.ordinal label) :
    Regrouped lost (.failure e, s) (.failure e, s) :=
  .failure e e.expected s fun label => by simp [h label]

theorem Regrouped.mono {x y : Result Value × State Input} (h : Regrouped lost x y)
    (hlost : ∀ s n label, lost s n label ↔ lost' s n label) : Regrouped lost' x y := by
  cases h with
  | success u v w hint s => exact .success u v w hint s
  | failure e labels s hlabels =>
    exact .failure e labels s fun label => by rw [hlabels, hlost]
  | abort f s => exact .abort f s

theorem Regrouped.of_failure {x y : Result Value × State Input} (h : Regrouped lost x y)
    (he : x.1 = .failure e) : ∃ labels, y = (.failure (e.withExpected labels), x.2) ∧
      ∀ label, label ∈ labels ↔ label ∈ e.expected ∨ lost x.2 e.ordinal label := by
  cases h with
  | success | abort => cases he
  | failure e labels s hlabels =>
    cases he
    exact ⟨labels, rfl, hlabels⟩

theorem Tidy.commitIf_eq (hp : Tidy p) (h : p s = (.failure e, s')) :
    e.commitIf (s.ordinal < s'.ordinal) = e := by
  rcases hp.committed_cases h with ⟨hc, -⟩ | ⟨-, heq⟩
  · exact Failure.commitIf_of_committed hc
  · simp [heq, Failure.commitIf]

theorem eclipses_iff {u v : Value} {hint₁ hint₂ : Hint} {s₁ s₂ : State Input} {n : Int}
    {label : String} (h₁ : p s = (.success u hint₁, s₁)) (h₂ : q s₁ = (.success v hint₂, s₂)) :
    Eclipses p q s s' n label ↔
      s₂.ordinal = s₁.ordinal ∧ s'.ordinal = s₂.ordinal ∧ hint₁.Eclipse hint₂ n label := by
  constructor
  · rintro ⟨_, _, _, _, _, _, h₁', h₂', h⟩
    obtain ⟨⟨rfl, rfl⟩, rfl⟩ : (u = _ ∧ hint₁ = _) ∧ s₁ = _ := by simpa [h₁] using h₁'
    obtain ⟨⟨rfl, rfl⟩, rfl⟩ : (v = _ ∧ hint₂ = _) ∧ s₂ = _ := by simpa [h₂] using h₂'
    exact h
  · exact fun h => ⟨u, v, hint₁, hint₂, s₁, s₂, h₁, h₂, h⟩

theorem hint_regroup {a b c : Int} (hint₁ hint₂ hint₃ : Hint) (hab : a ≤ b) (hbc : b ≤ c) :
    (if b < c then hint₃ else (if a < b then hint₂ else hint₁.merge hint₂).merge hint₃) =
      if a < c then (if b < c then hint₃ else hint₂.merge hint₃)
      else hint₁.merge (if b < c then hint₃ else hint₂.merge hint₃) := by
  by_cases hlt : b < c
  · simp only [if_pos hlt, if_pos (Int.lt_of_le_of_lt hab hlt)]
  · obtain rfl : b = c := by omega
    simp only [if_neg hlt]
    split
    · rfl
    · exact hint₁.merge_assoc hint₂ hint₃

/-- The failure of the third part, which the hints of the others join. The parts stopped at the places
`b`, `c` and `d`, and the sequence started at `a`. -/
theorem failure_regroup {a b c d : Int} {hint₁ hint₂ : Hint} (hh₁ : hint₁.Uncommitted)
    (hh₂ : hint₂.Uncommitted) (hab : a ≤ b) (hbc : b < c ∨ c = b)
    (hcd : e.committed = true ∧ c < d ∨ e.committed = false ∧ d = c) :
    let flat := (e.withHint (if b < c then hint₂ else hint₁.merge hint₂)).commitIf (a < d)
    let nested := (((e.withHint hint₂).commitIf (b < d)).withHint hint₁).commitIf (a < d)
    nested = flat.withExpected nested.expected ∧ ∀ label, label ∈ nested.expected ↔
      label ∈ flat.expected ∨ c = b ∧ d = c ∧ hint₁.Eclipse hint₂ flat.ordinal label := by
  rcases hcd with ⟨hc, hlt⟩ | ⟨hc, rfl⟩
  · -- The third part read something itself, and a committed failure takes no hints.
    have hne : d ≠ c := by omega
    simp only [Failure.withHint_of_committed hc, Failure.commitIf_of_committed hc]
    exact ⟨rfl, fun label => by simp [hne]⟩
  · rcases hbc with hlt | rfl
    · have hne : d ≠ b := by omega
      have hcommitted : ((e.withHint hint₂).commitIf (b < d)).committed = true := by
        simp [Failure.commitIf, Failure.withCommitted, hlt]
      have hlt' : a < d := by omega
      simp only [if_pos hlt, Failure.withHint_of_committed hcommitted]
      simp only [Failure.commitIf, hlt, hlt', hne]
      exact ⟨rfl, fun label => by simp [Failure.withCommitted]⟩
    · -- Nothing was read since the first part, and both hints join the failure.
      have hflat := Failure.withHint_eq e (hh₁.merge hh₂)
      have hnested : (e.withHint hint₂).withHint hint₁ =
          (e.withHint (hint₁.merge hint₂)).withExpected ((e.withHint hint₂).withHint hint₁).expected := by
        rw [hflat, Failure.withHint_eq (e.withHint hint₂) hh₁, Failure.withHint_eq e hh₂]
        rfl
      have hfalse : (e.withHint hint₂).commitIf false = e.withHint hint₂ := rfl
      simp only [lt_irrefl, if_false, decide_false, hfalse, Failure.expected_commitIf,
        Failure.ordinal_commitIf, true_and]
      refine ⟨?_, fun label => ?_⟩
      · rw [hnested]
        exact Failure.commitIf_withExpected
      · rw [Failure.mem_withHint_merge hc hh₂, hflat]
        rfl

theorem regrouped_sequence (hp : Tidy p) (hq : Tidy q) (hr : Tidy r) (s : State Input) :
    Regrouped (Eclipses p q s) (sequence [p, q, r] s) (sequence [p, sequence [q, r]] s) := by
  -- only a failure of the third part, behind two that succeed, can tell the groupings apart
  match h₁ : p s with
  | (.abort f, s₁) =>
    simp only [sequence, sequenceFrom, h₁]
    exact .abort f s₁
  | (.failure e, s₁) =>
    simp only [sequence, sequenceFrom, h₁]
    refine .refl_failure fun label hlost => ?_
    obtain ⟨v, w, hint, hint', s₁', s₂, h₁', -⟩ := hlost
    simp [h₁] at h₁'
  | (.success u hint₁, s₁) =>
    have hle₁ : s.ordinal ≤ s₁.ordinal := by
      have hcases := hp.ordinal_cases h₁
      omega
    match h₂ : q s₁ with
    | (.abort f, s₂) =>
      simp only [sequence, sequenceFrom, h₁, h₂]
      exact .abort f s₂
    | (.failure e, s₂) =>
      simp only [sequence, sequenceFrom, h₁, h₂, Hint.none_merge, ite_self, Failure.withHint_none,
        hq.commitIf_eq h₂]
      refine .refl_failure fun label hlost => ?_
      obtain ⟨v, w, hint, hint', s₁', s₂, h₁', h₂', -⟩ := hlost
      simp only [h₁, Prod.mk.injEq] at h₁'
      simp [← h₁'.2, h₂] at h₂'
    | (.success v hint₂, s₂) =>
      have hle₂ : s₁.ordinal ≤ s₂.ordinal := by
        have hcases := hq.ordinal_cases h₂
        omega
      match h₃ : r s₂ with
      | (.abort f, s₃) =>
        simp only [sequence, sequenceFrom, h₁, h₂, h₃]
        exact .abort f s₃
      | (.failure e, s₃) =>
        simp only [sequence, sequenceFrom, h₁, h₂, h₃, Hint.none_merge, ite_self]
        obtain ⟨heq, hlabels⟩ := failure_regroup (hp.success h₁).2 (hq.success h₂).2 hle₁
          (hq.ordinal_cases h₂) (hr.committed_cases h₃)
        simp only [Result.map]
        rw [heq]
        exact .failure _ _ s₃ fun label => by rw [hlabels, eclipses_iff h₁ h₂]
      | (.success w hint₃, s₃) =>
        have hle₃ : s₂.ordinal ≤ s₃.ordinal := by
          have hcases := hr.ordinal_cases h₃
          omega
        simp only [sequence, sequenceFrom, h₁, h₂, h₃, Hint.none_merge, ite_self,
          hint_regroup hint₁ hint₂ hint₃ hle₂ hle₃]
        exact .success u v w _ s₃

end Action

namespace Parser

variable {p q : Parser}

theorem append_eq (hp : ∀ ps, p ≠ .sequence ps) (q : Parser) : p.append q = .sequence [p, q] := by
  cases p with
  | sequence ps => exact absurd rfl (hp ps)
  | _ => rfl

/-- What a parser does within a run on the state. -/
def part (rules : Rules) (s : State Input) (p : Parser) : Action Input Value :=
  let limit := TokenSource.remaining s.source + 1
  p.action (rules.call limit ((rules.length + 1) * limit)) limit

/-- Three parsers in one sequence, and the first one in front of a sequence of the others. Both runs
succeed with the same values and leave the same hint, or fail at the same place, with the same token
there and equally committed; they stop in the same state. All labels of the one failure are labels of the
other, which has those besides that the hints of the first two parsers eclipse. There are none if the
first two parsers make no attempts. -/
theorem run_regroup (rules : Rules) (hp : ∀ ps, p ≠ .sequence ps) (hq : ∀ ps, q ≠ .sequence ps)
    (r : Parser) (s : State Input) :
    let flat := ((p.append q).append r).run rules s
    let nested := (p.append (q.append r)).run rules s
    Action.Regrouped (Action.Eclipses (p.part rules s) (q.part rules s) s) flat nested ∧
      (p.Within rules Direct → q.Within rules Direct →
        Action.Regrouped (fun _ _ _ => False) flat nested) := by
  have htidy (x : Parser) : Action.Tidy (x.part rules s) := tidy_action rules _ _ x
  have hflat : ((p.append q).append r).run rules s =
      Action.sequence [p.part rules s, q.part rules s, r.part rules s] s := by
    rw [append_eq hp]
    rfl
  have hnested : (p.append (q.append r)).run rules s =
      Action.sequence [p.part rules s, Action.sequence [q.part rules s, r.part rules s]] s := by
    rw [append_eq hp, append_eq hq]
    rfl
  have hregroup := Action.regrouped_sequence (htidy p) (htidy q) (htidy r) s
  intro flat nested
  rw [← hflat, ← hnested] at hregroup
  refine ⟨hregroup, fun hp hq => hregroup.mono fun s' n label => iff_false_intro ?_⟩
  rintro ⟨v, w, hint, hint', s₁, s₂, h₁, h₂, heq, -, hlost⟩
  have hstands : hint.Stands s₁.ordinal := (stands_action _ _ hp).success h₁
  have hstands' : hint'.Stands s₁.ordinal := heq ▸ (stands_action _ _ hq).success h₂
  exact hstands.not_eclipse hstands' hlost

/-- Instead of `a`, a minus is expected, or a literal or a comma in front of it. The two sequences list
the last two the other way round. -/
theorem run_regroup_options :
    let p : Parser := .opt .null (.token .literal)
    let q : Parser := .many 0 (.token (.punct ','))
    let r : Parser := .token (.punct '-')
    let s : State Input := ⟨.ofTrees [.ident "a" .callSite], {}⟩
    let nested := (p.append (q.append r)).run [] s
    ∃ e labels, (((p.append q).append r).run [] s).1 = .failure e ∧
      nested.1 = .failure (e.withExpected labels) ∧ (∀ label, label ∈ labels ↔ label ∈ e.expected) ∧
      e.expected = ["-", "LITERAL", ","] ∧ labels = ["-", ",", "LITERAL"] := by
  intro p q r s nested
  have hp : ∀ ps, p ≠ .sequence ps := by simp [p]
  have hq : ∀ ps, q ≠ .sequence ps := by simp [q]
  have hpdirect : p.Within [] Direct :=
    .of_children (L := fun x => x ∈ [p, .token .literal]) (by simp [p, Direct])
      (by simp [p, children]) (List.mem_cons_self ..)
  have hqdirect : q.Within [] Direct :=
    .of_children (L := fun x => x ∈ [q, .token (.punct ',')]) (by simp [q, Direct])
      (by simp [q, children]) (List.mem_cons_self ..)
  have hfailure : (((p.append q).append r).run [] s).1.ctorIdx = 1 := by decide +kernel
  have hview : (((p.append q).append r).run [] s).1.report.map Failure.expected =
      some ["-", "LITERAL", ","] := by decide +kernel
  have hview' : nested.1.report.map Failure.expected = some ["-", ",", "LITERAL"] := by
    decide +kernel
  obtain ⟨e, he⟩ := Result.exists_failure hfailure
  have hregroup := (run_regroup [] hp hq r s).2 hpdirect hqdirect
  obtain ⟨labels, hnested, hlabels⟩ := hregroup.of_failure he
  simp only [he, Result.report, Option.map_some, Option.some.injEq] at hview
  have hnested : nested.1 = .failure (e.withExpected labels) := congrArg Prod.fst hnested
  simp only [hnested, Result.report, Option.map_some, Option.some.injEq] at hview'
  exact ⟨e, labels, he, hnested, by simpa using hlabels, hview, hview'⟩

/-- On `a`, where an attempt at `a +` leaves a hint behind `a`: of a literal, which may stand in front of
the minus, only the nested sequence tells. -/
theorem run_regroup_lost :
    let p : Parser := .opt .null (.attempt (.sequence [.token .ident, .token (.punct '+')]))
    let q : Parser := .opt .null (.token .literal)
    let r : Parser := .token (.punct '-')
    let s : State Input := ⟨.ofTrees [.ident "a" .callSite], {}⟩
    ∃ e f, (((p.append q).append r).run [] s).1 = .failure e ∧
      ((p.append (q.append r)).run [] s).1 = .failure f ∧
      e.expected = ["-"] ∧ f.expected = ["-", "LITERAL"] := by
  intro p q r s
  have hfailure : (((p.append q).append r).run [] s).1.ctorIdx = 1 := by decide +kernel
  have hfailure' : ((p.append (q.append r)).run [] s).1.ctorIdx = 1 := by decide +kernel
  have hview : (((p.append q).append r).run [] s).1.report.map Failure.expected = some ["-"] := by
    decide +kernel
  have hview' : ((p.append (q.append r)).run [] s).1.report.map Failure.expected =
      some ["-", "LITERAL"] := by decide +kernel
  obtain ⟨e, he⟩ := Result.exists_failure hfailure
  obtain ⟨f, hf⟩ := Result.exists_failure hfailure'
  simp only [he, Result.report, Option.map_some, Option.some.injEq] at hview
  simp only [hf, Result.report, Option.map_some, Option.some.injEq] at hview'
  exact ⟨e, f, he, hf, hview, hview'⟩

end Parser

end TokenParsing
