import TokenParsing.Proofs.Induction
import TokenParsing.Proofs.Nullability
import TokenParsing.Proofs.Truthful

/-!
# What a failure expects is what was refused there

A parser without names and attempts never goes back, so that its failure stands where it stopped, and
what was asked for in vain at that place should be what the failure expects. On the way the labels are
kept by failures and hints (`Hint.Recalls`): two at one place are merged, and one further on takes the
place of those before it.

A repetition is the one combinator that can lose a hint, in two ways. It ends with a round that reads
nothing, and forgets the hint of that round; and where it fails for want of another round it forgets
the hint of the round before. A body that never comes to that heeds its hints (`Parser.Heeds`), and
only what is asked for in other bodies may be forgotten (`Parser.Forgets`). The labels of a failure
are then those that were refused at its place (`Parser.run_expected`), and none of them is missing but
such a one, which may be indeed (`Parser.run_expected_missing`).
-/

namespace TokenParsing

namespace Failure

@[simp]
theorem ordinal_commitIf (e : Failure) (b : Bool) : (e.commitIf b).ordinal = e.ordinal := by
  cases b <;> rfl

@[simp]
theorem expected_commitIf (e : Failure) (b : Bool) : (e.commitIf b).expected = e.expected := by
  cases b <;> rfl

variable {e f : Failure}

theorem ordinal_merge_of_eq (h : e.ordinal = f.ordinal) : (e.merge f).ordinal = e.ordinal := by
  rw [merge, if_neg (by omega), if_neg (by omega)]
  rfl

theorem mem_merge_of_eq (h : e.ordinal = f.ordinal) {label : String} :
    label ∈ (e.merge f).expected ↔ label ∈ e.expected ∨ label ∈ f.expected := by
  rw [merge, if_neg (by omega), if_neg (by omega), mem_unionLabels]

end Failure

namespace Hint

variable {asked asked' lost : String → Prop} {hint hint' : Hint} {e : Failure} {n m : Int}
  {refused refused' : List (String × Int)}

@[simp]
theorem merge_none (hint : Hint) : hint.merge none = hint := by
  cases hint <;> rfl

theorem merge_some (hint : Hint) (e : Failure) :
    hint.merge (some e) = some (hint.elim e (·.merge e)) := by
  cases hint <;> rfl

/-- The hint stands at the place. Its labels were refused there, and of what was refused there it has
all but what may be lost. Nothing was refused further on, and only what may be asked for. -/
structure Lists (asked lost : String → Prop) (hint : Hint) (n : Int)
    (refused : List (String × Int)) : Prop where
  ordinal_eq : ∀ e ∈ hint, e.ordinal = n
  mem_of_expected : ∀ e ∈ hint, ∀ label ∈ e.expected, (label, n) ∈ refused
  expected_of_mem : ∀ label, (label, n) ∈ refused → lost label ∨ ∃ e ∈ hint, label ∈ e.expected
  le : ∀ x ∈ refused, x.2 ≤ n
  asked : ∀ x ∈ refused, asked x.1

namespace Lists

theorem nil : Lists asked lost none n [] where
  ordinal_eq := by simp
  mem_of_expected := by simp
  expected_of_mem := by simp
  le := by simp
  asked := by simp

theorem refuse {label : String} {start : Position} {found : Option Token} (h : asked label) :
    Lists asked lost (some ⟨start, found, [label], false⟩) start.ordinal
      [(label, start.ordinal)] where
  ordinal_eq := by simp [Failure.ordinal]
  mem_of_expected := by simp
  expected_of_mem := by simp
  le := by simp
  asked := by simpa using h

theorem mono (h : hint.Lists asked lost n refused) (hasked : ∀ label, asked label → asked' label) :
    hint.Lists asked' lost n refused :=
  { h with asked := fun x hx => hasked _ (h.asked x hx) }

theorem unite {both : Hint} (h : hint.Lists asked lost n refused)
    (h' : hint'.Lists asked lost n refused') (hplace : ∀ e ∈ both, e.ordinal = n)
    (hlabels : ∀ label, (∃ e ∈ both, label ∈ e.expected) ↔
      (∃ e ∈ hint, label ∈ e.expected) ∨ ∃ e ∈ hint', label ∈ e.expected) :
    both.Lists asked lost n (refused' ++ refused) where
  ordinal_eq := hplace
  mem_of_expected e he label hlabel := by
    rcases (hlabels label).1 ⟨e, he, hlabel⟩ with ⟨f, hf, hmem⟩ | ⟨f, hf, hmem⟩
    · exact List.mem_append_right _ (h.mem_of_expected f hf label hmem)
    · exact List.mem_append_left _ (h'.mem_of_expected f hf label hmem)
  expected_of_mem label hmem := by
    rw [hlabels]
    rcases List.mem_append.1 hmem with hmem | hmem
    · exact (h'.expected_of_mem label hmem).imp_right .inr
    · exact (h.expected_of_mem label hmem).imp_right .inl
  le x hx := (List.mem_append.1 hx).elim (h'.le x) (h.le x)
  asked x hx := (List.mem_append.1 hx).elim (h'.asked x) (h.asked x)

theorem merge (h : hint.Lists asked lost n refused) (h' : hint'.Lists asked lost n refused') :
    (hint.merge hint').Lists asked lost n (refused' ++ refused) ∧
      (hint'.merge hint).Lists asked lost n (refused' ++ refused) := by
  cases hint with
  | none =>
    rw [merge_none]
    have hlists := h.unite h' h'.ordinal_eq (by simp)
    exact ⟨hlists, hlists⟩
  | some e =>
    cases hint' with
    | none =>
      have hlists := h.unite h' h.ordinal_eq (by simp)
      exact ⟨hlists, hlists⟩
    | some f =>
      have he : e.ordinal = n := h.ordinal_eq e rfl
      have hf : f.ordinal = n := h'.ordinal_eq f rfl
      constructor
      · refine h.unite h' ?_ (fun label => ?_)
        · simp [Hint.merge, Failure.ordinal_merge_of_eq (he.trans hf.symm), he]
        · simp [Hint.merge, Failure.mem_merge_of_eq (he.trans hf.symm)]
      · refine h.unite h' ?_ (fun label => ?_)
        · simp [Hint.merge, Failure.ordinal_merge_of_eq (hf.trans he.symm), hf]
        · simp [Hint.merge, Failure.mem_merge_of_eq (hf.trans he.symm), or_comm]

/-- Where all that is asked for may be lost, either of two hints at one place will do. -/
theorem drop (h : hint.Lists asked lost n refused) (h' : hint'.Lists asked lost n refused')
    (hlost : ∀ label, asked label → lost label) :
    hint.Lists asked lost n (refused' ++ refused) ∧
      hint'.Lists asked lost n (refused' ++ refused) := by
  have hle : ∀ x ∈ refused' ++ refused, x.2 ≤ n := fun x hx =>
    (List.mem_append.1 hx).elim (h'.le x) (h.le x)
  have hasked : ∀ x ∈ refused' ++ refused, asked x.1 := fun x hx =>
    (List.mem_append.1 hx).elim (h'.asked x) (h.asked x)
  constructor
  · exact {
      ordinal_eq := h.ordinal_eq
      mem_of_expected := fun e he label hlabel =>
        List.mem_append_right _ (h.mem_of_expected e he label hlabel)
      expected_of_mem := fun label hmem => .inl (hlost label (hasked _ hmem))
      le := hle
      asked := hasked }
  · exact {
      ordinal_eq := h'.ordinal_eq
      mem_of_expected := fun e he label hlabel =>
        List.mem_append_left _ (h'.mem_of_expected e he label hlabel)
      expected_of_mem := fun label hmem => .inl (hlost label (hasked _ hmem))
      le := hle
      asked := hasked }

theorem behind (h : hint.Lists asked lost m refused) (hlt : m < n)
    (h' : hint'.Lists asked lost n refused') : hint'.Lists asked lost n (refused' ++ refused) where
  ordinal_eq := h'.ordinal_eq
  mem_of_expected e he label hlabel :=
    List.mem_append_left _ (h'.mem_of_expected e he label hlabel)
  expected_of_mem label hmem := by
    rcases List.mem_append.1 hmem with hmem | hmem
    · exact h'.expected_of_mem label hmem
    · exact absurd (h.le _ hmem) (by simpa using hlt)
  le x hx := (List.mem_append.1 hx).elim (h'.le x) fun hmem => by
    have hx := h.le x hmem
    omega
  asked x hx := (List.mem_append.1 hx).elim (h'.asked x) (h.asked x)

theorem commitIf (b : Bool) (h : Lists asked lost (some e) n refused) :
    Lists asked lost (some (e.commitIf b)) n refused where
  ordinal_eq := by simpa using h.ordinal_eq
  mem_of_expected := by simpa using h.mem_of_expected
  expected_of_mem := by simpa using h.expected_of_mem
  le := h.le
  asked := h.asked

end Lists

/-- The hint lists what was refused between the states, at the place of the second. -/
def Recalls (asked lost : String → Prop) (hint : Hint) (s s' : State Input) : Prop :=
  ∃ new, s'.journal.refused = new ++ s.journal.refused ∧ hint.Lists asked lost s'.ordinal new

namespace Recalls

variable {s s' s'' : State Input}

theorem refl (s : State Input) : Recalls asked lost none s s := ⟨[], rfl, .nil⟩

theorem mono (h : hint.Recalls asked lost s s') (hasked : ∀ label, asked label → asked' label) :
    hint.Recalls asked' lost s s' := by
  obtain ⟨new, hnew, hlists⟩ := h
  exact ⟨new, hnew, hlists.mono hasked⟩

theorem of_refused_eq (h : hint.Recalls asked lost s s'')
    (heq : s.journal.refused = s'.journal.refused) : hint.Recalls asked lost s' s'' := by
  obtain ⟨new, hnew, hlists⟩ := h
  exact ⟨new, by rw [hnew, heq], hlists⟩

theorem merge (h : hint.Recalls asked lost s s') (h' : hint'.Recalls asked lost s' s'')
    (heq : s''.ordinal = s'.ordinal) :
    (hint.merge hint').Recalls asked lost s s'' ∧ (hint'.merge hint).Recalls asked lost s s'' := by
  obtain ⟨old, hold, hlists⟩ := h
  obtain ⟨new, hnew, hlists'⟩ := h'
  have hjournal : s''.journal.refused = (new ++ old) ++ s.journal.refused := by
    rw [hnew, hold, List.append_assoc]
  rw [← heq] at hlists
  exact ⟨⟨_, hjournal, (hlists.merge hlists').1⟩, ⟨_, hjournal, (hlists.merge hlists').2⟩⟩

theorem drop (h : hint.Recalls asked lost s s') (h' : hint'.Recalls asked lost s' s'')
    (heq : s''.ordinal = s'.ordinal) (hlost : ∀ label, asked label → lost label) :
    hint.Recalls asked lost s s'' ∧ hint'.Recalls asked lost s s'' := by
  obtain ⟨old, hold, hlists⟩ := h
  obtain ⟨new, hnew, hlists'⟩ := h'
  have hjournal : s''.journal.refused = (new ++ old) ++ s.journal.refused := by
    rw [hnew, hold, List.append_assoc]
  rw [← heq] at hlists
  have hboth := hlists.drop hlists' hlost
  exact ⟨⟨_, hjournal, hboth.1⟩, ⟨_, hjournal, hboth.2⟩⟩

theorem behind (h : hint.Recalls asked lost s s') (h' : hint'.Recalls asked lost s' s'')
    (hlt : s'.ordinal < s''.ordinal) : hint'.Recalls asked lost s s'' := by
  obtain ⟨old, hold, hlists⟩ := h
  obtain ⟨new, hnew, hlists'⟩ := h'
  exact ⟨new ++ old, by rw [hnew, hold, List.append_assoc], hlists.behind hlt hlists'⟩

theorem commitIf (b : Bool) (h : Recalls asked lost (some e) s s') :
    Recalls asked lost (some (e.commitIf b)) s s' := by
  obtain ⟨new, hnew, hlists⟩ := h
  exact ⟨new, hnew, hlists.commitIf b⟩

theorem ordinal_eq (h : Recalls asked lost (some e) s s') : e.ordinal = s'.ordinal := by
  obtain ⟨new, -, hlists⟩ := h
  exact hlists.ordinal_eq e rfl

theorem withHint (h : hint.Recalls asked lost s s') (h' : Recalls asked lost (some e) s' s'')
    (hc : e.committed = false) (heq : s''.ordinal = s'.ordinal) :
    Recalls asked lost (some (e.withHint hint)) s s'' := by
  have hboth := (h.merge h' heq).2
  cases hint with
  | none => exact hboth
  | some f =>
    have hplace : f.ordinal = e.ordinal := by rw [h.ordinal_eq, h'.ordinal_eq, heq]
    rw [Failure.withHint, if_pos ⟨hc, hplace⟩]
    exact hboth

theorem extend (h : hint.Recalls asked lost s s') (h' : Recalls asked lost (some e) s' s'')
    (heq : s''.ordinal = s'.ordinal) : Recalls asked lost (some (hint.extend e)) s s'' := by
  have hboth := (h.merge h' heq).1
  cases hint with
  | none => exact hboth
  | some f =>
    have hplace : f.ordinal = e.ordinal := by rw [h.ordinal_eq, h'.ordinal_eq, heq]
    rw [Hint.extend, if_pos hplace]
    exact hboth

end Recalls

end Hint

theorem Result.exists_failure {α : Type} {r : Result α} (h : r.ctorIdx = 1) :
    ∃ e, r = .failure e := by
  cases r with
  | failure e => exact ⟨e, rfl⟩
  | success | abort => cases h

/-- What a result tells of, unless it is an abort, lists what was refused between the states. -/
def Result.Recalls {α : Type} (asked lost : String → Prop) (s s' : State Input) : Result α → Prop
  | .success _ hint => hint.Recalls asked lost s s'
  | .failure e => Hint.Recalls asked lost (some e) s s'
  | .abort _ => True

variable {asked asked' lost : String → Prop}

namespace Result.Recalls

variable {α β : Type} {s s' s'' : State Input} {r : Result α}

theorem map (f : α → β) (h : r.Recalls asked lost s s') : (r.map f).Recalls asked lost s s' := by
  cases r <;> exact h

theorem mono (h : r.Recalls asked lost s s') (hasked : ∀ label, asked label → asked' label) :
    r.Recalls asked' lost s s' := by
  cases r with
  | success v hint => exact Hint.Recalls.mono h hasked
  | failure e => exact Hint.Recalls.mono h hasked
  | abort f => trivial

theorem of_refused_eq (h : r.Recalls asked lost s s'')
    (heq : s.journal.refused = s'.journal.refused) : r.Recalls asked lost s' s'' := by
  cases r with
  | success v hint => exact Hint.Recalls.of_refused_eq h heq
  | failure e => exact Hint.Recalls.of_refused_eq h heq
  | abort f => trivial

end Result.Recalls

namespace Action

variable {α : Type} {p : Action Input Value} {ps : List (Action Input Value)} {s s' : State Input}
  {e : Failure}

theorem Tidy.committed_cases {a : Action Input α} (ha : Tidy a) (h : a s = (.failure e, s')) :
    e.committed = true ∧ s.ordinal < s'.ordinal ∨
      e.committed = false ∧ s'.ordinal = s.ordinal := by
  have he := ha.failure h
  cases hc : e.committed with
  | true =>
    simp only [Result.Tidy, hc, if_true] at he
    exact .inl ⟨rfl, Int.ofNat_lt.2 he⟩
  | false =>
    have hs : s'.source = s.source := by simpa [Result.Tidy, hc] using he
    exact .inr ⟨rfl, by rw [State.ordinal, State.ordinal, hs]⟩

theorem Tidy.ordinal_cases {a : Action Input α} (ha : Tidy a) {v : α} {hint : Hint}
    (h : a s = (.success v hint, s')) : s.ordinal < s'.ordinal ∨ s'.ordinal = s.ordinal := by
  rcases (ha.success h).1 with hs | hlt
  · exact .inr (by rw [State.ordinal, State.ordinal, hs])
  · exact .inl (Int.ofNat_lt.2 hlt)

/-- What the action tells lists all that was refused where it stopped, but for what may be lost. -/
def Recalls (asked lost : String → Prop) (a : Action Input α) : Prop :=
  ∀ s, (a s).1.Recalls asked lost s (a s).2

theorem Recalls.of_eq {a : Action Input α} (ha : Recalls asked lost a) {r : Result α}
    (h : a s = (r, s')) : r.Recalls asked lost s s' := by
  simpa [h] using ha s

theorem Recalls.mono {a : Action Input α} (ha : Recalls asked lost a)
    (hasked : ∀ label, asked label → asked' label) : Recalls asked' lost a :=
  fun s => (ha s).mono hasked

theorem recalls_abort (f : Fault) : Recalls asked lost (abort f : Action Input α) :=
  fun _ => trivial

theorem recalls_afterNote {f : Journal → Journal} (hf : ∀ j, (f j).refused = j.refused)
    {a : Action Input α} (ha : Recalls asked lost a) : Recalls asked lost (afterNote f a) := fun s =>
  (ha { s with journal := f s.journal }).of_refused_eq (hf s.journal)

theorem recalls_token {m : Matcher} (h : asked m.label) : Recalls asked lost (token m) := by
  intro s
  simp only [token]
  split
  · exact ⟨[], rfl, .nil⟩
  · exact ⟨_, rfl, .refuse h⟩

theorem recalls_eof (h : asked Parser.eofLabel) : Recalls asked lost eof := by
  intro s
  unfold eof
  split
  · exact .refl s
  · exact ⟨_, rfl, .refuse h⟩

theorem recalls_sequenceFrom (hps : ∀ p ∈ ps, Tidy p ∧ Recalls asked lost p) (start : Int)
    {hint : Hint} {s₀ s : State Input} (hh : hint.Recalls asked lost s₀ s) :
    (sequenceFrom start ps hint s).1.Recalls asked lost s₀ (sequenceFrom start ps hint s).2 := by
  induction ps generalizing hint s with
  | nil => exact hh
  | cons p ps ih =>
    obtain ⟨⟨htidy, hp⟩, hps⟩ := List.forall_mem_cons.1 hps
    simp only [sequenceFrom]
    split
    · rename_i v new s' h
      have hnew : new.Recalls asked lost s s' := hp.of_eq h
      refine (ih hps ?_).map _
      -- a part that reads puts its own hint in place of the old one, and one that does not adds to it
      rcases htidy.ordinal_cases h with hlt | heq
      · rw [if_pos hlt]
        exact hh.behind hnew hlt
      · rw [if_neg (by omega)]
        exact (hh.merge hnew heq).1
    · rename_i e s' h
      have he : Hint.Recalls asked lost (some e) s s' := hp.of_eq h
      refine Hint.Recalls.commitIf _ ?_
      rcases htidy.committed_cases h with ⟨hc, hlt⟩ | ⟨hc, heq⟩
      · have hsame : e.withHint hint = e := by
          unfold Failure.withHint
          split <;> simp [hc]
        rw [hsame]
        exact hh.behind he hlt
      · exact hh.withHint he hc heq
    · trivial

theorem recalls_sequence (hps : ∀ p ∈ ps, Tidy p ∧ Recalls asked lost p) :
    Recalls asked lost (sequence ps) := fun s =>
  (recalls_sequenceFrom hps s.ordinal (.refl s)).map _

theorem recalls_choiceFrom {p : Action Input Value} {ps : List (Action Input Value)}
    (hp : Tidy p ∧ Recalls asked lost p) (hps : ∀ q ∈ ps, Tidy q ∧ Recalls asked lost q)
    {missed : Hint} {s₀ s : State Input} (hm : missed.Recalls asked lost s₀ s) :
    (choiceFrom s.ordinal p ps missed s).1.Recalls asked lost s₀
      (choiceFrom s.ordinal p ps missed s).2 := by
  obtain ⟨htidy, hp⟩ := hp
  unfold choiceFrom
  split
  · rename_i v hint s' h
    have hh : hint.Recalls asked lost s s' := hp.of_eq h
    show Hint.Recalls asked lost (if _ then _ else _) s₀ s'
    rcases htidy.ordinal_cases h with hlt | heq
    · rw [if_neg (by omega)]
      exact hm.behind hh hlt
    · rw [if_pos heq]
      exact (hm.merge hh heq).1
  · rename_i e s' h
    have he : Hint.Recalls asked lost (some e) s s' := hp.of_eq h
    rcases htidy.committed_cases h with ⟨hc, hlt⟩ | ⟨hc, heq⟩
    · rw [if_pos hc]
      exact hm.behind he hlt
    · rw [if_neg (by simp [hc])]
      -- the failure stands where the choice started, like those that were missed before it
      have hboth := (hm.merge he heq).1
      rw [Hint.merge_some] at hboth
      cases ps with
      | nil => exact hboth
      | cons q qs =>
        obtain ⟨hq, hqs⟩ := List.forall_mem_cons.1 hps
        rw [← heq]
        exact recalls_choiceFrom hq hqs hboth
  · trivial

theorem recalls_choice (hp : Tidy p ∧ Recalls asked lost p)
    (hps : ∀ q ∈ ps, Tidy q ∧ Recalls asked lost q) : Recalls asked lost (choice p ps) :=
  fun s => recalls_choiceFrom hp hps (.refl s)

theorem recalls_map (f : Value → Except ValueError Value) (hp : Recalls asked lost p) :
    Recalls asked lost (map f p) := by
  intro s
  unfold map
  split
  · rename_i v hint s' h
    have hh : hint.Recalls asked lost s s' := hp.of_eq h
    split
    · exact hh
    · trivial
  · exact hp s

theorem recalls_opt (default : Value) (hp : Recalls asked lost p) :
    Recalls asked lost (opt default p) := by
  intro s
  unfold opt
  split
  · rename_i e s' h
    have he : Hint.Recalls asked lost (some e) s s' := hp.of_eq h
    split <;> exact he
  · exact hp s

/-- The body of a repetition heeds its hints: it has none where it reads nothing, and none at all
if a second round may be needed. -/
def Heeds (minimum : Int) (body : Action Input Value) : Prop :=
  ∀ ⦃s s' v e⦄, body s = (.success v (some e), s') → s.ordinal < s'.ordinal ∧ minimum ≤ 1

/-- The rounds that are left, where the one before them left the hint. If the body heeds its hints,
there is none as long as a further round is needed. -/
theorem recalls_manyFrom (start : Int) {minimum : Int} (htidy : Tidy p) (hp : Recalls asked lost p)
    (hbody : Heeds minimum p ∨ ∀ label, asked label → lost label) (limit count : Nat) {hint : Hint}
    {s₀ s : State Input} (hh : hint.Recalls asked lost s₀ s)
    (hneeded : Heeds minimum p → (count : Int) < minimum → hint = none) :
    (manyFrom start minimum p limit count hint s).1.Recalls asked lost s₀
      (manyFrom start minimum p limit count hint s).2 := by
  induction limit generalizing count hint s with
  | zero => trivial
  | succ limit ih =>
    simp only [manyFrom]
    split
    · rename_i v new s' h
      have hnew : new.Recalls asked lost s s' := hp.of_eq h
      rcases htidy.ordinal_cases h with hlt | heq
      · rw [if_neg (by omega)]
        refine (ih (count + 1) (hh.behind hnew hlt) fun hheeds hcount => ?_).map _
        cases new with
        | none => rfl
        | some e =>
          have hmin := (hheeds h).2
          omega
      · -- the hint of an idle round is dropped, so the body must not have left one
        rw [if_pos heq]
        rcases hbody with hheeds | hlost
        · cases new with
          | none =>
            have hboth := (hh.merge hnew heq).1
            rwa [Hint.merge_none] at hboth
          | some e =>
            have hlt := (hheeds h).1
            omega
        · exact (hh.drop hnew heq hlost).1
    · rename_i e s' h
      have he : Hint.Recalls asked lost (some e) s s' := hp.of_eq h
      rcases htidy.committed_cases h with ⟨hc, hlt⟩ | ⟨hc, heq⟩
      · rw [if_pos (.inl hc)]
        exact (hh.behind he hlt).commitIf _
      · split
        · -- a round that is still needed fails without the hint of the round before it
          rename_i hshort
          refine Hint.Recalls.commitIf _ ?_
          rcases hbody with hheeds | hlost
          · obtain rfl := hneeded hheeds (hshort.resolve_left (by simp [hc]))
            exact (hh.merge he heq).1
          · exact (hh.drop he heq hlost).2
        · exact hh.extend he heq
    · trivial

theorem recalls_many {minimum : Int} (limit : Nat) (htidy : Tidy p) (hp : Recalls asked lost p)
    (hbody : Heeds minimum p ∨ ∀ label, asked label → lost label) :
    Recalls asked lost (many minimum limit p) := fun s =>
  (recalls_manyFrom s.ordinal htidy hp hbody limit 0 (.refl s) fun _ _ => rfl).map _

end Action

theorem Journal.refused_use (j : Journal) (name : String) : (j.use name).refused = j.refused := by
  unfold Journal.use
  split <;> rfl

namespace Parser

variable {rules : Rules} {p q : Parser} {label : String}

/-- The parser gives no labels up by itself: it is neither named nor an attempt. -/
def Plain : Parser → Prop
  | .named .. | .attempt _ => False
  | _ => True

/-- The body of a repetition heeds its hints, whatever the limits of the run are. -/
def Heeds (rules : Rules) (minimum : Int) (body : Parser) : Prop :=
  ∀ limit depth, Action.Heeds minimum (body.action (rules.call limit depth) limit)

/-- A body that always reads heeds its hints if one round is enough. -/
theorem heeds_of_not_nullable {minimum : Int} (hp : ¬p.Nullable rules) (hmin : minimum ≤ 1) :
    p.Heeds rules minimum := by
  intro limit depth s s' v e h
  refine ⟨?_, hmin⟩
  rcases ((p.tidy_action rules limit depth).success h).1 with hs | hlt
  · exact absurd (nullable_of_passes (nullable_rule rules limit depth) p ⟨s, s', v, e, h, hs⟩) hp
  · exact Int.ofNat_lt.2 hlt

/-- A matcher or an end in the parser goes by the label. -/
def Asks (rules : Rules) (p : Parser) (label : String) : Prop :=
  (∃ m, p.Part rules (.token m) ∧ m.label = label) ∨ p.Part rules .eof ∧ eofLabel = label

/-- The label is asked for in the body of a repetition that may not heed its hints. -/
def Forgets (rules : Rules) (p : Parser) (label : String) : Prop :=
  ∃ minimum body, p.Part rules (.many minimum body) ∧ ¬body.Heeds rules minimum ∧
    body.Asks rules label

theorem Asks.of_child (h : q.Asks rules label) (hq : q ∈ p.children rules) : p.Asks rules label := by
  rcases h with ⟨m, hm, hlabel⟩ | ⟨heof, hlabel⟩
  · exact .inl ⟨m, hm.head hq, hlabel⟩
  · exact .inr ⟨heof.head hq, hlabel⟩

theorem Asks.of_only (h : q.Asks rules label) (hq : p.children rules = [q]) : p.Asks rules label :=
  h.of_child (hq ▸ List.mem_singleton_self q)

theorem recalls_action (limit depth : Nat)
    (hp : p.Within rules fun q => q.Plain ∧ ∀ label, q.Forgets rules label → lost label) :
    Action.Recalls (p.Asks rules) lost (p.action (rules.call limit depth) limit) := by
  refine action_induction (P := fun p a => Action.Recalls (p.Asks rules) lost a)
    ?_ ?_ ?_ ?_ ?_ depth p hp
  · exact fun _ => Action.recalls_abort _
  · exact fun _ _ => Action.recalls_abort _
  · exact fun name _ _ => Action.recalls_afterNote (f := (·.build name)) (fun _ => rfl)
      (Action.recalls_abort _)
  · intro name p a hname ha
    have hchild : p ∈ (Parser.rule name).children rules := by simp [children, hname]
    exact Action.recalls_afterNote (·.refused_use name) (ha.mono fun _ h => h.of_child hchild)
  · intro depth hcall p hp
    -- what a part asks for the whole asks for, so every part may recall as much as the whole
    have htidy := tidy_action rules limit depth
    induction p using Parser.induction with
    | token m => exact Action.recalls_token (.inl ⟨m, .refl, rfl⟩)
    | eof => exact Action.recalls_eof (.inr ⟨.refl, rfl⟩)
    | sequence ps ih =>
      refine Action.recalls_sequence fun a ha => ?_
      obtain ⟨q, hq, rfl⟩ := mem_actions.1 ha
      exact ⟨htidy q, (ih q hq (hp.child hq)).mono fun _ h => h.of_child hq⟩
    | choice p ps ih =>
      have hpart {q : Parser} (hq : q ∈ p :: ps) :=
        And.intro (htidy q) ((ih q hq (hp.child hq)).mono fun _ h =>
          Asks.of_child (p := .choice p ps) h hq)
      refine Action.recalls_choice (hpart (List.mem_cons_self ..)) fun a ha => ?_
      obtain ⟨q, hq, rfl⟩ := mem_actions.1 ha
      exact hpart (List.mem_cons_of_mem _ hq)
    | map f p ih =>
      exact Action.recalls_map f ((ih (hp.only rfl)).mono fun _ h => h.of_only rfl)
    | named label p => exact hp.self.1.elim
    | many minimum p ih =>
      refine Action.Recalls.mono ?_ fun _ h => Asks.of_only h rfl
      refine Action.recalls_many limit (htidy p) (ih (hp.only rfl)) ?_
      by_cases hheeds : p.Heeds rules minimum
      · exact .inl (hheeds limit depth)
      · exact .inr fun label h => hp.self.2 label ⟨minimum, p, .refl, hheeds, h⟩
    | opt default p ih =>
      exact Action.recalls_opt default ((ih (hp.only rfl)).mono fun _ h => h.of_only rfl)
    | attempt p => exact hp.self.1.elim
    | delayed label p ih => exact (ih (hp.only rfl)).mono fun _ h => h.of_only rfl
    | rule name => exact hcall name hp
    | invalid e => exact Action.recalls_abort _

/-- What a failure expects is what the run asked for in vain at the place of the failure, but labels may
be missing that are asked for in the body of a repetition which does not heed its hints. -/
theorem run_expected (hp : p.Within rules Plain) {s s' : State Input} {e : Failure}
    (h : p.run rules s = (.failure e, s')) :
    ∃ new, s'.journal.refused = new ++ s.journal.refused ∧
      ∀ label, (label ∈ e.expected → (label, e.ordinal) ∈ new) ∧
        ((label, e.ordinal) ∈ new → p.Forgets rules label ∨ label ∈ e.expected) := by
  have hforgets : p.Within rules fun q =>
      q.Plain ∧ ∀ label, q.Forgets rules label → p.Forgets rules label := by
    intro q hq
    refine ⟨hp q hq, fun label hforget => ?_⟩
    obtain ⟨minimum, body, hpart, hbody⟩ := hforget
    exact ⟨minimum, body, hq.trans hpart, hbody⟩
  have hrun : Action.Recalls (p.Asks rules) (p.Forgets rules) (p.run rules) :=
    fun s => recalls_action _ _ hforgets s
  obtain ⟨new, hnew, hlists⟩ : Hint.Recalls _ _ (some e) s s' := hrun.of_eq h
  refine ⟨new, hnew, fun label => ?_⟩
  rw [hlists.ordinal_eq e rfl]
  exact ⟨hlists.mem_of_expected e rfl label, fun hmem => by
    simpa using hlists.expected_of_mem label hmem⟩

/-- In `f ( a , b + )`: in front of `+` the rule for further arguments stops for want of a comma, there
is no literal, and neither of the alternatives that end the list goes on. -/
theorem run_expected_arguments :
    let trees : List TokenTree := [.ident "f" .callSite, .group .parenthesis [.ident "a" .callSite,
      .punct ',' .alone .callSite, .ident "b" .callSite, .punct '+' .alone .callSite] .callSite]
    let more : Parser := .sequence [.token (.punct ','), .token .ident]
    let rules : Rules := [("more", .ok (.many 0 more))]
    let close : Parser := .choice (.token (.delim ')')) [.sequence [.token (.punct ';'), .eof]]
    let p : Parser := .sequence [.token .ident, .token (.delim '('), .opt .null (.token .ident),
      .rule "more", .opt .null (.token .literal), close]
    let run := p.run rules ⟨Input.ofTrees trees, {}⟩
    p.Within rules Plain ∧ (∀ label, ¬p.Forgets rules label) ∧
      ∃ e, run.1 = .failure e ∧ e.ordinal = 5 ∧ e.expected = [")", ";", ",", "LITERAL"] ∧
        ∀ label, label ∈ e.expected ↔ (label, 5) ∈ run.2.journal.refused := by
  intro trees more rules close p run
  have hmore : more.Heeds rules 0 := by
    refine heeds_of_not_nullable (fun h => ?_) (by decide)
    change (Parser.sequence _).Nullable rules at h
    cases h with
    | sequence h => cases h _ (List.mem_cons_self ..)
  have hparts : p.Within rules fun q => q.Plain ∧
      ∀ minimum body, q = .many minimum body → body.Heeds rules minimum := by
    refine .of_children (L := fun q => q ∈ [p, .token .ident, .token (.delim '('),
      .opt .null (.token .ident), .rule "more", .many 0 more, more, .token (.punct ','),
      .opt .null (.token .literal), .token .literal, close, .token (.delim ')'),
      .sequence [.token (.punct ';'), .eof], .token (.punct ';'), .eof]) ?_ ?_
      (List.mem_cons_self ..)
    · simp only [List.mem_cons, List.not_mem_nil, or_false, forall_eq_or_imp, forall_eq]
      simp [p, more, close, Plain, hmore]
    · simp [p, more, close, rules, children]
  have hplain : p.Within rules Plain := fun q hq => (hparts q hq).1
  have hforgets : ∀ label, ¬p.Forgets rules label := by
    rintro label ⟨minimum, body, hpart, hbody, -⟩
    exact hbody ((hparts _ hpart).2 minimum body rfl)
  have hfailure : run.1.ctorIdx = 1 := by decide +kernel
  have hview : run.1.report.map (fun e => (e.ordinal, e.expected)) =
      some (5, [")", ";", ",", "LITERAL"]) := by decide +kernel
  obtain ⟨e, he⟩ := Result.exists_failure hfailure
  simp only [he, Result.report, Option.map_some, Option.some.injEq, Prod.mk.injEq] at hview
  obtain ⟨hordinal, hexpected⟩ := hview
  obtain ⟨new, hnew, hlabels⟩ := run_expected hplain (Prod.ext he rfl : run = (.failure e, run.2))
  rw [List.append_nil] at hnew
  refine ⟨hplain, hforgets, e, he, hordinal, hexpected, fun label => ?_⟩
  rw [hnew, ← hordinal]
  exact ⟨(hlabels label).1, fun h => ((hlabels label).2 h).resolve_left (hforgets label)⟩

/-- On `1`, a repetition of an optional identifier ends with a round that reads nothing, and the
identifier is not among what is expected instead of `1`. On `a 1`, a second round is needed and there
is none, and the `+` that the first round could have ended with is not among it. -/
theorem run_expected_missing :
    let options : Parser :=
      .sequence [.many 0 (.opt .null (.token .ident)), .token (.punct '+')]
    let rounds : Parser :=
      .many 2 (.sequence [.token .ident, .opt .null (.token (.punct '+'))])
    let missing (label : String) (run : Result Value × State Input) : Prop :=
      ∃ e, run.1 = .failure e ∧ (label, e.ordinal) ∈ run.2.journal.refused ∧ label ∉ e.expected
    (options.Within [] Plain ∧
      missing "IDENT" (options.run [] ⟨.ofTrees [.literal "1" .callSite], {}⟩)) ∧
    (rounds.Within [] Plain ∧
      missing "+" (rounds.run []
        ⟨.ofTrees [.ident "a" .callSite, .literal "1" .callSite], {}⟩)) := by
  intro options rounds missing
  have hmissing {label : String} {n : Int} {run : Result Value × State Input}
      (hfailure : run.1.ctorIdx = 1) (hplace : run.1.report.map Failure.ordinal = some n)
      (hlabels : (run.1.report.map Failure.expected).any (label ∉ ·))
      (hrefused : (label, n) ∈ run.2.journal.refused) : missing label run := by
    obtain ⟨e, he⟩ := Result.exists_failure hfailure
    simp only [he, Result.report, Option.map_some, Option.some.injEq] at hplace
    refine ⟨e, he, hplace ▸ hrefused, ?_⟩
    simpa [he, Result.report] using hlabels
  refine ⟨⟨?_, ?_⟩, ?_, ?_⟩
  · refine .of_children (L := fun q => q ∈ [options, .many 0 (.opt .null (.token .ident)),
      .opt .null (.token .ident), .token .ident, .token (.punct '+')]) ?_ ?_ (List.mem_cons_self ..)
    · simp [options, Plain]
    · simp [options, children]
  · exact hmissing (n := 0) (by decide +kernel) (by decide +kernel) (by decide +kernel)
      (by decide +kernel)
  · refine .of_children (L := fun q => q ∈ [rounds,
      .sequence [.token .ident, .opt .null (.token (.punct '+'))], .token .ident,
      .opt .null (.token (.punct '+')), .token (.punct '+')]) ?_ ?_ (List.mem_cons_self ..)
    · simp [rounds, Plain]
    · simp [rounds, children]
  · exact hmissing (n := 1) (by decide +kernel) (by decide +kernel) (by decide +kernel)
      (by decide +kernel)

end Parser

end TokenParsing
