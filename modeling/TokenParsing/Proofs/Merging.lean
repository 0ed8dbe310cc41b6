import TokenParsing.Proofs.Expectations

/-!
# Merging failures

Failures may be merged in any grouping (`Failure.merge_assoc`), since the furthest of all counts and
those at its place share their labels. What is nearer is lost. So a failure that is joined by two hints
may have more labels if it is joined by one after the other than if the hints are merged first: it
keeps those of the nearer hint, if that is the one at its place (`Failure.mem_withHint_merge`).
-/

namespace TokenParsing

theorem unionLabels_append_singleton (left right : List String) (label : String) :
    unionLabels left (right ++ [label]) =
      if label ∈ left ∨ label ∈ right then unionLabels left right
      else unionLabels left right ++ [label] := by
  have hstep : unionLabels left (right ++ [label]) =
      if label ∈ unionLabels left right then unionLabels left right
      else unionLabels left right ++ [label] := by
    simp [unionLabels, List.foldl_append]
  rw [hstep]
  simp only [mem_unionLabels]

theorem unionLabels_assoc (left middle right : List String) :
    unionLabels (unionLabels left middle) right = unionLabels left (unionLabels middle right) := by
  induction right using List.reverseRecOn with
  | nil => rfl
  | append_singleton right label ih =>
    rw [unionLabels_append_singleton, unionLabels_append_singleton middle, ih]
    simp only [mem_unionLabels]
    by_cases hmiddle : label ∈ middle ∨ label ∈ right
    · rw [if_pos hmiddle, if_pos (by tauto)]
    · rw [if_neg hmiddle, unionLabels_append_singleton]
      simp only [mem_unionLabels, or_assoc]

namespace Failure

variable {e f g : Failure} {label : String}

theorem merge_of_lt (h : e.ordinal < f.ordinal) : e.merge f = f := by rw [merge, if_pos h]

theorem merge_of_gt (h : f.ordinal < e.ordinal) : e.merge f = e := by
  rw [merge, if_neg (by omega), if_pos h]

theorem merge_of_eq (h : e.ordinal = f.ordinal) :
    e.merge f =
      ⟨e.position, e.unexpected, unionLabels e.expected f.expected, e.committed || f.committed⟩ := by
  rw [merge, if_neg (by omega), if_neg (by omega)]

theorem ordinal_merge (e f : Failure) : (e.merge f).ordinal = max e.ordinal f.ordinal := by
  rcases lt_trichotomy e.ordinal f.ordinal with h | h | h
  · rw [merge_of_lt h]
    omega
  · rw [ordinal_merge_of_eq h]
    omega
  · rw [merge_of_gt h]
    omega

theorem merge_assoc (e f g : Failure) : (e.merge f).merge g = e.merge (f.merge g) := by
  have hleft := ordinal_merge e f
  have hright := ordinal_merge f g
  rcases lt_trichotomy e.ordinal f.ordinal with hef | hef | hef
  · rw [merge_of_lt hef, merge_of_lt (e := e) (f := f.merge g) (by omega)]
  · rcases lt_trichotomy f.ordinal g.ordinal with hfg | hfg | hfg
    · rw [merge_of_lt hfg, merge_of_lt (e := e.merge f) (by omega),
        merge_of_lt (e := e) (f := g) (by omega)]
    · rw [merge_of_eq (e := e.merge f) (by omega), merge_of_eq (f := f.merge g) (by omega),
        merge_of_eq hef, merge_of_eq hfg, unionLabels_assoc, Bool.or_assoc]
    · rw [merge_of_gt hfg, merge_of_gt (e := e.merge f) (by omega)]
  · rw [merge_of_gt hef]
    rcases Int.lt_or_le f.ordinal g.ordinal with hfg | hfg
    · rw [merge_of_lt hfg]
    · rw [merge_of_gt (f := g) (by omega), merge_of_gt (f := f.merge g) (by omega)]

end Failure

namespace Hint

variable {hint hint' : Hint} {n : Int} {label : String}

@[simp]
theorem none_merge (hint : Hint) : Hint.merge none hint = hint := rfl

theorem merge_assoc (hint hint' hint'' : Hint) :
    (hint.merge hint').merge hint'' = hint.merge (hint'.merge hint'') := by
  cases hint with
  | none => rfl
  | some e =>
    cases hint' with
    | none => rfl
    | some f =>
      cases hint'' with
      | none => rfl
      | some g => exact congrArg some (e.merge_assoc f g)

/-- The hint has the label, for the place `n`. -/
def Offers (hint : Hint) (n : Int) (label : String) : Prop :=
  ∃ e ∈ hint, e.ordinal = n ∧ label ∈ e.expected

/-- The hint is for a place further on. -/
def Beyond (hint : Hint) (n : Int) : Prop := ∃ e ∈ hint, n < e.ordinal

/-- One of the hints has the label for the place `n`, and the other one is for a place further on. -/
def Eclipse (hint hint' : Hint) (n : Int) (label : String) : Prop :=
  hint.Offers n label ∧ hint'.Beyond n ∨ hint'.Offers n label ∧ hint.Beyond n

theorem offers_merge :
    (hint.merge hint').Offers n label ↔
      hint.Offers n label ∧ ¬hint'.Beyond n ∨ hint'.Offers n label ∧ ¬hint.Beyond n := by
  cases hint with
  | none => simp [Hint.merge, Offers, Beyond]
  | some e =>
    cases hint' with
    | none => simp [Hint.merge, Offers, Beyond]
    | some f =>
      simp only [Hint.merge, Offers, Beyond, Option.mem_some_iff, exists_eq_left']
      rcases lt_trichotomy e.ordinal f.ordinal with h | h | h
      · rw [Failure.merge_of_lt h]
        grind
      · rw [Failure.ordinal_merge_of_eq h, Failure.mem_merge_of_eq h]
        grind
      · rw [Failure.merge_of_gt h]
        grind

end Hint

namespace Failure

variable {e : Failure} {hint hint' : Hint} {label : String}

theorem mem_withHint (hc : e.committed = false) :
    label ∈ (e.withHint hint).expected ↔ label ∈ e.expected ∨ hint.Offers e.ordinal label := by
  cases hint with
  | none => simp [withHint, Hint.Offers]
  | some f =>
    simp only [withHint, hc, Hint.Offers, Option.mem_some_iff, exists_eq_left', true_and]
    split
    · rename_i h
      rw [mem_merge_of_eq h.symm, and_iff_right h]
    · rename_i h
      simp [h]

theorem withHint_eq (e : Failure) (hh : hint.Uncommitted) :
    e.withHint hint = e.withExpected (e.withHint hint).expected := by
  cases hint with
  | none => rfl
  | some f =>
    rw [withHint]
    split
    · rename_i h
      rw [merge_of_eq h.2.symm, h.1, Hint.uncommitted_some.1 hh]
      exact congrArg (mk _ _ _) h.1.symm
    · rfl

@[simp]
theorem withHint_none (e : Failure) : e.withHint none = e := rfl

theorem withHint_of_committed (hc : e.committed = true) : e.withHint hint = e := by
  cases hint with
  | none => rfl
  | some f => rw [withHint, if_neg (by simp [hc])]

/-- Of two hints at a place neither is lost if one joins the failure after the other, and the nearer
one is if they are merged first. -/
theorem mem_withHint_merge (hc : e.committed = false) (hh : hint'.Uncommitted) :
    label ∈ ((e.withHint hint').withHint hint).expected ↔
      label ∈ (e.withHint (hint.merge hint')).expected ∨ hint.Eclipse hint' e.ordinal label := by
  have hc' : (e.withHint hint').committed = false := (withHint_committed hh).trans hc
  have hplace : (e.withHint hint').ordinal = e.ordinal := by
    rw [withHint_eq e hh]
    rfl
  rw [mem_withHint hc', hplace, mem_withHint hc, mem_withHint hc, Hint.offers_merge, Hint.Eclipse]
  tauto

end Failure

end TokenParsing
