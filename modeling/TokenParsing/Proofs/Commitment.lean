import TokenParsing.Proofs.Congruence

/-!
# Committed means read

A failure is committed exactly if tokens were read before it, and an uncommitted failure leaves the
input as it was, levels and all (`Parser.run_committed_iff`). The combinators rely on it: a choice,
an option and a repetition go on after an uncommitted failure without going back themselves.

`Result.Tidy` says this of one result, together with what a success has to leave for it: an input
that is the same or further on, and an uncommitted hint. Every combinator keeps it
(`Action.tidy_stable`); a sequence and a repetition do so for the input their first part started at.
-/

namespace TokenParsing

/-- The input `j` is `i`, or more of it is read. -/
def Input.Onward (i j : Input) : Prop := j = i ∨ i.ordinal < j.ordinal

namespace Input.Onward

variable {i j k : Input}

theorem refl (i : Input) : i.Onward i := .inl rfl

theorem trans (h : i.Onward j) (h' : j.Onward k) : i.Onward k := by
  rcases h with rfl | h
  · exact h'
  · rcases h' with rfl | h'
    · exact .inr h
    · exact .inr (Nat.lt_trans h h')

theorem le (h : i.Onward j) : i.ordinal ≤ j.ordinal := by
  rcases h with rfl | h
  · exact Nat.le_refl _
  · exact Nat.le_of_lt h

theorem eq_of_le (h : i.Onward j) (hle : j.ordinal ≤ i.ordinal) : j = i :=
  h.resolve_right (Nat.not_lt.2 hle)

theorem next (i : Input) {t : Token} (h : i.next.1 = some t) : i.Onward i.next.2 := by
  unfold Input.next at h ⊢
  split
  · exact .inr (Nat.lt_succ_self _)
  · rename_i hn
    rw [hn] at h
    cases h

end Input.Onward

namespace Hint

/-- The failure of a hint, if there is one, is uncommitted. -/
def Uncommitted (hint : Hint) : Prop := ∀ h ∈ hint, h.committed = false

variable {hint hint' : Hint} {e : Failure}

theorem uncommitted_none : Uncommitted none := by simp [Uncommitted]

theorem uncommitted_some : Uncommitted (some e) ↔ e.committed = false := by simp [Uncommitted]

end Hint

/-- What a result says of the input `j` that is left of the input `i`. -/
def Result.Tidy {α : Type} (i j : Input) : Result α → Prop
  | .success _ hint => i.Onward j ∧ hint.Uncommitted
  | .failure e => if e.committed then i.ordinal < j.ordinal else j = i
  | .abort _ => True

/-- The results of an action are tidy. -/
def Action.Tidy {α : Type} (a : Action Input α) : Prop :=
  ∀ s, (a s).1.Tidy s.source (a s).2.source

theorem Failure.merge_committed {e f : Failure} (he : e.committed = false)
    (hf : f.committed = false) : (e.merge f).committed = false := by
  unfold Failure.merge
  split
  · exact hf
  · split
    · exact he
    · simp [he, hf]

theorem Failure.withHint_committed {e : Failure} {hint : Hint} (h : hint.Uncommitted) :
    (e.withHint hint).committed = e.committed := by
  unfold Failure.withHint
  split
  · rfl
  · rename_i f
    split
    · rename_i hc
      rw [hc.1, Failure.merge_committed hc.1 (Hint.uncommitted_some.1 h)]
    · rfl

theorem Hint.Uncommitted.merge {hint hint' : Hint} (h : hint.Uncommitted)
    (h' : hint'.Uncommitted) : (hint.merge hint').Uncommitted := by
  cases hint with
  | none => exact h'
  | some e =>
    cases hint' with
    | none => exact h
    | some f =>
      exact uncommitted_some.2
        (Failure.merge_committed (uncommitted_some.1 h) (uncommitted_some.1 h'))

theorem Hint.Uncommitted.elim {hint : Hint} {e : Failure} (h : hint.Uncommitted)
    (he : e.committed = false) : (hint.elim e (·.merge e)).committed = false := by
  cases hint with
  | none => exact he
  | some f => exact Failure.merge_committed (uncommitted_some.1 h) he

theorem Hint.Uncommitted.extend {hint : Hint} {e : Failure} (h : hint.Uncommitted)
    (he : e.committed = false) : (hint.extend e).committed = false := by
  unfold Hint.extend
  split
  · exact he
  · split
    · exact Failure.merge_committed (uncommitted_some.1 h) he
    · exact he

namespace Result.Tidy

variable {α β : Type} {i j k : Input} {r : Result α} {e : Failure}

theorem map (f : α → β) (h : r.Tidy i j) : (r.map f).Tidy i j := by
  cases r <;> exact h

theorem failure_of_not (he : e.committed = false) (h : j = i) :
    (Result.failure e : Result α).Tidy i j := by
  simpa [Tidy, he] using h

theorem commitIf {f : Failure} (hij : i.Onward j) (hf : f.committed = e.committed)
    (h : (Result.failure e : Result β).Tidy j k) :
    (Result.failure (f.commitIf ((i.ordinal : Int) < k.ordinal)) : Result α).Tidy i k := by
  by_cases hlt : i.ordinal < k.ordinal
  · simp [Tidy, Failure.commitIf, Failure.withCommitted, hlt]
  · have hc : e.committed = false := by
      by_contra hc
      simp only [Bool.not_eq_false] at hc
      simp only [Tidy, hc, if_true] at h
      exact hlt (Nat.lt_of_le_of_lt hij.le h)
    have hkj : k = j := by simpa [Tidy, hc] using h
    have hki : k = i := by
      rw [hkj]
      exact hij.eq_of_le (by rw [← hkj]; omega)
    simp [Tidy, Failure.commitIf, hf, hc, hki]

end Result.Tidy

namespace Action

variable {α : Type} {p q : Action Input Value} {ps : List (Action Input Value)}

theorem Tidy.success {a : Action Input α} (ha : Tidy a) {s s' : State Input} {v : α} {hint : Hint}
    (h : a s = (.success v hint, s')) : s.source.Onward s'.source ∧ hint.Uncommitted := by
  simpa [h, Result.Tidy] using ha s

theorem Tidy.failure {a : Action Input α} (ha : Tidy a) {s s' : State Input} {e : Failure}
    (h : a s = (.failure e, s')) : (Result.failure e : Result α).Tidy s.source s'.source := by
  simpa [h] using ha s

theorem Tidy.source_eq {a : Action Input α} (ha : Tidy a) {s s' : State Input} {e : Failure}
    (h : a s = (.failure e, s')) (hc : e.committed = false) : s'.source = s.source := by
  simpa [Result.Tidy, hc] using ha.failure h

theorem tidy_refuse (label : String) (start : Position) (found : Option Token) :
    Tidy (refuse label start found : Action Input α) := by
  intro s
  simp [refuse, Result.Tidy]

theorem tidy_token (m : Matcher) : Tidy (token m) := by
  intro s
  simp only [token]
  split
  · rename_i v hv
    obtain ⟨t, ht, -⟩ := Option.bind_eq_some_iff.1 hv
    exact ⟨.next s.source ht, Hint.uncommitted_none⟩
  · exact tidy_refuse _ _ _ s

theorem tidy_eof : Tidy eof := by
  intro s
  unfold eof
  split
  · exact ⟨.refl _, Hint.uncommitted_none⟩
  · exact tidy_refuse _ _ _ s

theorem tidy_sequenceFrom (hps : ∀ p ∈ ps, Tidy p) {i : Input} {hint : Hint} {s : State Input}
    (hi : i.Onward s.source) (hh : hint.Uncommitted) :
    (sequenceFrom i.ordinal ps hint s).1.Tidy i (sequenceFrom i.ordinal ps hint s).2.source := by
  induction ps generalizing hint s with
  | nil => exact ⟨hi, hh⟩
  | cons p ps ih =>
    have hp := hps p (List.mem_cons_self ..)
    simp only [sequenceFrom]
    split
    · rename_i v new s' h
      obtain ⟨hs', hnew⟩ := hp.success h
      refine (ih (fun q hq => hps q (List.mem_cons_of_mem _ hq)) (hi.trans hs') ?_).map _
      split
      · exact hnew
      · exact hh.merge hnew
    · rename_i e s' h
      exact Result.Tidy.commitIf hi (Failure.withHint_committed hh) (hp.failure h)
    · trivial

theorem tidy_sequence (hps : ∀ p ∈ ps, Tidy p) : Tidy (sequence ps) := fun s =>
  (tidy_sequenceFrom hps (.refl s.source) Hint.uncommitted_none).map _

theorem tidy_choiceFrom {p : Action Input Value} {ps : List (Action Input Value)} (hp : Tidy p)
    (hps : ∀ q ∈ ps, Tidy q) {i : Input} {missed : Hint} {s : State Input} (hs : s.source = i)
    (hm : missed.Uncommitted) :
    (choiceFrom i.ordinal p ps missed s).1.Tidy i (choiceFrom i.ordinal p ps missed s).2.source := by
  unfold choiceFrom
  split
  · rename_i v hint s' h
    obtain ⟨hs', hh⟩ := hp.success h
    refine ⟨hs ▸ hs', ?_⟩
    show Hint.Uncommitted (if _ then _ else _)
    split
    · exact hm.merge hh
    · exact hh
  · rename_i e s' h
    split
    · exact hs ▸ hp.failure h
    · rename_i hc
      simp only [Bool.not_eq_true] at hc
      -- an uncommitted failure read nothing, so the next alternative starts where the choice did
      have hs' : s'.source = i := (hp.source_eq h hc).trans hs
      have hmissed := hm.elim hc
      cases ps with
      | nil => exact .failure_of_not hmissed hs'
      | cons q qs =>
        have hqs := List.forall_mem_cons.1 hps
        exact tidy_choiceFrom hqs.1 hqs.2 hs' (Hint.uncommitted_some.2 hmissed)
  · trivial

theorem tidy_choice (hp : Tidy p) (hps : ∀ q ∈ ps, Tidy q) : Tidy (choice p ps) := fun _ =>
  tidy_choiceFrom hp hps rfl Hint.uncommitted_none

theorem tidy_map (f : Value → Except ValueError Value) (hp : Tidy p) : Tidy (map f p) := by
  intro s
  unfold map
  split
  · rename_i v hint s' h
    split
    · exact hp.success h
    · trivial
  · exact hp s

theorem tidy_named (label : String) (hp : Tidy p) : Tidy (named label p) := by
  intro s
  simp only [named]
  split
  · rename_i v hint s' h
    obtain ⟨hs', hh⟩ := hp.success h
    refine ⟨hs', ?_⟩
    cases hint with
    | none => exact Hint.uncommitted_none
    | some f =>
      have hf := Hint.uncommitted_some.1 hh
      refine Hint.uncommitted_some.2 ?_
      show Failure.committed (if _ then _ else _) = false
      split <;> exact hf
  · rename_i e s' h
    have he := hp.failure h
    split <;> exact he
  · exact hp s

theorem tidy_opt (default : Value) (hp : Tidy p) : Tidy (opt default p) := by
  intro s
  unfold opt
  split
  · rename_i e s' h
    split
    · exact hp.failure h
    · rename_i hc
      simp only [Bool.not_eq_true] at hc
      exact ⟨.inl (hp.source_eq h hc), Hint.uncommitted_some.2 hc⟩
  · exact hp s

theorem tidy_attempt (hp : Tidy p) : Tidy (attempt p) := by
  intro s
  simp only [attempt]
  split
  · exact .failure_of_not rfl rfl
  · exact hp s

theorem tidy_manyFrom (minimum : Int) (hp : Tidy p) {i : Input} (limit count : Nat) {hint : Hint}
    {s : State Input} (hi : i.Onward s.source) (hh : hint.Uncommitted) :
    (manyFrom i.ordinal minimum p limit count hint s).1.Tidy i
      (manyFrom i.ordinal minimum p limit count hint s).2.source := by
  -- on the limit: all that the rounds before this one have to do is to go onward from `i`
  induction limit generalizing count hint s with
  | zero => trivial
  | succ limit ih =>
    simp only [manyFrom]
    split
    · rename_i v new s' h
      obtain ⟨hs', hnew⟩ := hp.success h
      split
      · exact ⟨hi.trans hs', hh⟩
      · exact (ih (count + 1) (hi.trans hs') hnew).map _
    · rename_i e s' h
      split
      · exact (hp.failure h).commitIf hi rfl
      · rename_i hc
        simp only [not_or, Bool.not_eq_true] at hc
        have hs' : s'.source = s.source := hp.source_eq h hc.1
        exact ⟨hs' ▸ hi, Hint.uncommitted_some.2 (hh.extend hc.1)⟩
    · trivial

theorem tidy_many (minimum : Int) (limit : Nat) (hp : Tidy p) : Tidy (many minimum limit p) :=
  fun s => (tidy_manyFrom minimum hp limit 0 (.refl s.source) Hint.uncommitted_none).map _

/-- Every combinator keeps tidy actions tidy. -/
theorem tidy_stable : Stable (Tidy (α := Value)) where
  abort _ _ _ := trivial
  token m _ := tidy_token m
  eof _ := tidy_eof
  sequence := tidy_sequence
  choice := tidy_choice
  map f _ _ _ := tidy_map f
  named label _ _ _ := tidy_named label
  many minimum limit _ := tidy_many minimum limit
  opt default _ _ _ := tidy_opt default
  attempt _ := tidy_attempt
  afterNote f _ hp s := hp { s with journal := f s.journal }

end Action

/-- A failure is committed exactly if tokens were read, and an uncommitted one leaves the input as it
was. A success does not go back, leaves the input as it was if it read nothing, and its hint is
uncommitted. -/
theorem Parser.run_committed_iff (rules : Rules) (p : Parser) (s : State Input) :
    match p.run rules s with
    | (.failure e, s') =>
      (e.committed = true ↔ s.source.ordinal < s'.source.ordinal) ∧
        (e.committed = false → s'.source = s.source)
    | (.success _ hint, s') =>
      s.source.ordinal ≤ s'.source.ordinal ∧
        (s'.source.ordinal = s.source.ordinal → s'.source = s.source) ∧
        ∀ h ∈ hint, h.committed = false
    | (.abort _, _) => True := by
  have ha : Action.Tidy (p.run rules) := fun s => Action.tidy_stable.action rules _ _ p s
  split
  · rename_i e s' h
    have he := ha.failure h
    cases hc : e.committed with
    | true =>
      have hlt : s.source.ordinal < s'.source.ordinal := by simpa [Result.Tidy, hc] using he
      exact ⟨iff_of_true rfl hlt, fun hf => by cases hf⟩
    | false =>
      have hs' : s'.source = s.source := by simpa [Result.Tidy, hc] using he
      refine ⟨iff_of_false Bool.false_ne_true ?_, fun _ => hs'⟩
      rw [hs']
      exact Nat.lt_irrefl _
  · rename_i v hint s' h
    obtain ⟨hs', hh⟩ := ha.success h
    exact ⟨hs'.le, fun heq => hs'.eq_of_le (Nat.le_of_eq heq), hh⟩
  · trivial

end TokenParsing
