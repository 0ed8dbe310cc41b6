import TokenParsing.Proofs.Merging

/-!
# Where a failure stands

A failure stands where the parser stopped, and so does a hint, unless an attempt went back from there.
So for a parser without attempts (`Parser.Direct`) the place of what it tells is the place of the input
that it leaves behind (`Parser.stands_action`).

The combinators that keep a hint have read nothing since it was made; a merged hint stands where both
did.
-/

namespace TokenParsing

/-- The hint is for the place. -/
def Hint.Stands (n : Int) (hint : Hint) : Prop := ∀ e ∈ hint, e.ordinal = n

/-- What a result tells of is at the place. -/
def Result.Stands {α : Type} (n : Int) (r : Result α) : Prop := r.report.Stands n

namespace Hint.Stands

variable {hint hint' : Hint} {e : Failure} {n : Int}

theorem none : Stands n none := by simp [Stands]

theorem some_iff : Stands n (some e) ↔ e.ordinal = n := by simp [Stands]

theorem merge (h : hint.Stands n) (h' : hint'.Stands n) : (hint.merge hint').Stands n := by
  cases hint with
  | none => exact h'
  | some e =>
    cases hint' with
    | none => exact h
    | some f =>
      rw [some_iff] at h h'
      exact some_iff.2 (by rw [e.ordinal_merge f, h, h', max_self])

theorem elim (h : hint.Stands n) (he : e.ordinal = n) : (hint.elim e (·.merge e)).ordinal = n := by
  have hmerge := h.merge (some_iff.2 he)
  rwa [Hint.merge_some, some_iff] at hmerge

theorem extend (h : hint.Stands n) (he : e.ordinal = n) : (hint.extend e).ordinal = n := by
  cases hint with
  | none => exact he
  | some f =>
    have hf := some_iff.1 h
    rw [Hint.extend, if_pos (hf.trans he.symm), f.ordinal_merge e, hf, he, max_self]

theorem not_eclipse {m : Int} {label : String} (h : hint.Stands n) (h' : hint'.Stands n) :
    ¬hint.Eclipse hint' m label := by
  rintro (⟨⟨e, he, hplace, -⟩, f, hf, hlt⟩ | ⟨⟨f, hf, hplace, -⟩, e, he, hlt⟩)
  all_goals
    have hsame := (h e he).trans (h' f hf).symm
    omega

end Hint.Stands

theorem Failure.ordinal_withHint {e : Failure} {hint : Hint} : (e.withHint hint).ordinal = e.ordinal := by
  cases hint with
  | none => rfl
  | some f =>
    rw [withHint]
    split
    · rename_i h
      exact ordinal_merge_of_eq h.2.symm
    · rfl

theorem Result.Stands.map {α β : Type} {n : Int} {r : Result α} (f : α → β) (h : r.Stands n) :
    (r.map f).Stands n := by
  cases r <;> exact h

namespace Action

variable {α : Type} {p : Action Input Value} {ps : List (Action Input Value)} {e : Failure}

theorem Tidy.ordinal_eq {a : Action Input α} (ha : Tidy a) {s s' : State Input}
    (h : a s = (.failure e, s')) (hc : e.committed = false) : s'.ordinal = s.ordinal := by
  rw [State.ordinal, State.ordinal, ha.source_eq h hc]

/-- What an action tells of stands where the action stopped. -/
def Stands (a : Action Input α) : Prop := ∀ s, (a s).1.Stands (a s).2.ordinal

namespace Stands

variable {a : Action Input α} {s s' : State Input}

theorem success {v : α} {hint : Hint} (ha : Stands a) (h : a s = (.success v hint, s')) :
    hint.Stands s'.ordinal := by
  simpa [h, Result.Stands, Result.report] using ha s

theorem failure (ha : Stands a) (h : a s = (.failure e, s')) : e.ordinal = s'.ordinal := by
  have hs := ha s
  rw [h] at hs
  exact Hint.Stands.some_iff.1 hs

end Stands

theorem stands_token (m : Matcher) : Stands (token m) := by
  intro s
  simp only [token]
  split
  · exact .none
  · exact Hint.Stands.some_iff.2 rfl

theorem stands_eof : Stands eof := by
  intro s
  unfold eof
  split
  · exact .none
  · exact Hint.Stands.some_iff.2 rfl

theorem stands_sequenceFrom (hps : ∀ p ∈ ps, Tidy p ∧ Stands p) (start : Int) {hint : Hint}
    {s : State Input} (hh : hint.Stands s.ordinal) :
    (sequenceFrom start ps hint s).1.Stands (sequenceFrom start ps hint s).2.ordinal := by
  induction ps generalizing hint s with
  | nil => exact hh
  | cons p ps ih =>
    obtain ⟨⟨htidy, hp⟩, hps⟩ := List.forall_mem_cons.1 hps
    simp only [sequenceFrom]
    split
    · rename_i v new s' h
      have hnew : new.Stands s'.ordinal := hp.success h
      refine (ih hps ?_).map _
      rcases htidy.ordinal_cases h with hlt | heq
      · rw [if_pos hlt]
        exact hnew
      · rw [if_neg (by omega)]
        exact (heq ▸ hh).merge hnew
    · rename_i e s' h
      have he : e.ordinal = s'.ordinal := hp.failure h
      refine Hint.Stands.some_iff.2 ?_
      rw [Failure.ordinal_commitIf, Failure.ordinal_withHint, he]
    · exact .none

theorem stands_sequence (hps : ∀ p ∈ ps, Tidy p ∧ Stands p) : Stands (sequence ps) := fun s =>
  (stands_sequenceFrom hps s.ordinal .none).map _

theorem stands_choiceFrom {p : Action Input Value} {ps : List (Action Input Value)}
    (hp : Tidy p ∧ Stands p) (hps : ∀ q ∈ ps, Tidy q ∧ Stands q) {missed : Hint} {s : State Input}
    (hm : missed.Stands s.ordinal) :
    (choiceFrom s.ordinal p ps missed s).1.Stands (choiceFrom s.ordinal p ps missed s).2.ordinal := by
  unfold choiceFrom
  split
  · rename_i v hint s' h
    have hh : hint.Stands s'.ordinal := hp.2.success h
    show Hint.Stands _ (if _ then _ else _)
    split
    · rename_i heq
      exact (heq ▸ hm).merge hh
    · exact hh
  · rename_i e s' h
    have he : e.ordinal = s'.ordinal := hp.2.failure h
    split
    · exact Hint.Stands.some_iff.2 he
    · rename_i hc
      -- nothing was read, so what was missed before still stands where the input is
      have heq : s'.ordinal = s.ordinal := hp.1.ordinal_eq h (by simpa using hc)
      have hmissed : missed.Stands s'.ordinal := heq ▸ hm
      cases ps with
      | nil => exact Hint.Stands.some_iff.2 (hmissed.elim he)
      | cons q qs =>
        obtain ⟨hq, hqs⟩ := List.forall_mem_cons.1 hps
        rw [← heq]
        exact stands_choiceFrom hq hqs (Hint.Stands.some_iff.2 (hmissed.elim he))
  · exact .none

theorem stands_choice (hp : Tidy p ∧ Stands p) (hps : ∀ q ∈ ps, Tidy q ∧ Stands q) :
    Stands (choice p ps) := fun _ => stands_choiceFrom hp hps .none

theorem stands_map (f : Value → Except ValueError Value) (hp : Stands p) : Stands (map f p) := by
  intro s
  unfold map
  split
  · rename_i v hint s' h
    have hh : hint.Stands s'.ordinal := hp.success h
    split
    · exact hh
    · exact .none
  · exact hp s

theorem stands_named (label : String) (hp : Stands p) : Stands (named label p) := by
  intro s
  simp only [named]
  split
  · rename_i v hint s' h
    have hh : hint.Stands s'.ordinal := hp.success h
    intro e he
    obtain ⟨f, hf, rfl⟩ := Option.map_eq_some_iff.1 he
    split <;> exact hh f hf
  · rename_i e s' h
    have he : e.ordinal = s'.ordinal := hp.failure h
    split <;> exact Hint.Stands.some_iff.2 he
  · exact hp s

theorem stands_manyFrom (start minimum : Int) (hp : Tidy p ∧ Stands p) (limit count : Nat)
    {hint : Hint} {s : State Input} (hh : hint.Stands s.ordinal) :
    (manyFrom start minimum p limit count hint s).1.Stands
      (manyFrom start minimum p limit count hint s).2.ordinal := by
  induction limit generalizing count hint s with
  | zero => exact .none
  | succ limit ih =>
    simp only [manyFrom]
    split
    · rename_i v new s' h
      split
      · rename_i heq
        exact show Hint.Stands s'.ordinal hint from heq ▸ hh
      · exact (ih (count + 1) (hp.2.success h)).map _
    · rename_i e s' h
      have he : e.ordinal = s'.ordinal := hp.2.failure h
      split
      · exact Hint.Stands.some_iff.2 (by rw [Failure.ordinal_commitIf, he])
      · rename_i hc
        have heq : s'.ordinal = s.ordinal := hp.1.ordinal_eq h (by simpa using (not_or.1 hc).1)
        have hhint : hint.Stands s'.ordinal := heq ▸ hh
        exact Hint.Stands.some_iff.2 (hhint.extend he)
    · exact .none

theorem stands_many (minimum : Int) (limit : Nat) (hp : Tidy p ∧ Stands p) :
    Stands (many minimum limit p) := fun s =>
  (stands_manyFrom s.ordinal minimum hp limit 0 .none).map _

theorem stands_opt (default : Value) (hp : Stands p) : Stands (opt default p) := by
  intro s
  unfold opt
  split
  · rename_i e s' h
    have he : e.ordinal = s'.ordinal := hp.failure h
    split <;> exact Hint.Stands.some_iff.2 he
  · exact hp s

end Action

namespace Parser

variable {rules : Rules} {p q r : Parser}

/-- The parser is no attempt, which fails further on than it stops. -/
def Direct : Parser → Prop
  | .attempt _ => False
  | _ => True

/-- What a parser without attempts tells of stands where the parser stopped. -/
theorem stands_action (limit depth : Nat) (hp : p.Within rules Direct) :
    Action.Stands (p.action (rules.call limit depth) limit) := by
  have hstable : Action.StableOn Direct fun a => Action.Tidy a ∧ Action.Stands a := {
    abort := fun f hf => ⟨Action.tidy_stable.abort f hf, fun _ => .none⟩
    token := fun m _ => ⟨Action.tidy_token m, Action.stands_token m⟩
    eof := fun _ => ⟨Action.tidy_eof, Action.stands_eof⟩
    sequence := fun h => ⟨Action.tidy_sequence fun p hp => (h p hp).1, Action.stands_sequence h⟩
    choice := fun h h' =>
      ⟨Action.tidy_choice h.1 fun p hp => (h' p hp).1, Action.stands_choice h h'⟩
    map := fun f _ _ _ h => ⟨Action.tidy_map f h.1, Action.stands_map f h.2⟩
    named := fun label _ _ _ h => ⟨Action.tidy_named label h.1, Action.stands_named label h.2⟩
    many := fun minimum limit _ h =>
      ⟨Action.tidy_many minimum limit h.1, Action.stands_many minimum limit h⟩
    opt := fun default _ _ _ h => ⟨Action.tidy_opt default h.1, Action.stands_opt default h.2⟩
    attempt := fun h _ => h.elim
    afterNote := fun f _ h =>
      ⟨fun s => h.1 { s with journal := f s.journal }, fun s => h.2 { s with journal := f s.journal }⟩ }
  exact (hstable.action limit depth p hp).2

end Parser

end TokenParsing
