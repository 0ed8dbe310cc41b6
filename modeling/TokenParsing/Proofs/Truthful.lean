import Mathlib.Data.List.Nodup
import TokenParsing.Proofs.Congruence
import TokenParsing.Proofs.StreamCursor

/-!
# A failure is truthful

A failure that a parser ends in, or returns as a hint, tells the truth about the tokens: it stands at a
place no nearer than where the parser stopped, it shows the token there, and each of its labels is
a name given in the grammar or the label of a matcher that does not accept there
(`Parser.run_truthful`).

A failure is made at the place of one matcher (`Failure.TruthfulAt.refused`) and then travels. What
happens to it on the way is merging with another, which may stand elsewhere
(`Failure.TruthfulAt.merge`), and renaming (`Failure.TruthfulAt.withExpected`). Where a combinator
keeps a hint, the parser has not read on from the place that bounds it (`Action.truthful_stable`).
-/

namespace TokenParsing

theorem unionLabels_cons (left right : List String) (l : String) :
    unionLabels left (l :: right) = unionLabels (if l ∈ left then left else left ++ [l]) right := by
  simp [unionLabels]

theorem mem_unionLabels {left right : List String} {label : String} :
    label ∈ unionLabels left right ↔ label ∈ left ∨ label ∈ right := by
  induction right generalizing left with
  | nil => simp [unionLabels]
  | cons l right ih =>
    rw [unionLabels_cons, ih]
    split
    · grind
    · simp [or_assoc]

theorem nodup_unionLabels {left : List String} (right : List String) (h : left.Nodup) :
    (unionLabels left right).Nodup := by
  induction right generalizing left with
  | nil => exact h
  | cons l right ih =>
    rw [unionLabels_cons]
    refine ih ?_
    split
    · exact h
    · rename_i hl
      rw [← List.concat_eq_append]
      exact .concat hl h

/-- What may be asked for at a place, in a grammar of the given parts: a name, which stands for
whatever it was given to, and the label of a matcher or of the end only if that is not there. -/
inductive Cursor.Lacks (K : Parser → Prop) (c : Cursor) : String → Prop
  | name {label : String} {body : Parser} (h : K (.named label body)) : Lacks K c label
  | token {m : Matcher} (h : K (.token m)) (hm : c.tokens[c.index]?.bind m.accept = none) :
    Lacks K c m.label
  | eof (h : K .eof) (hlt : c.index < c.tokens.length) : Lacks K c Parser.eofLabel

/-- The failure is one at the place of the cursor, with labels that may be asked for there. -/
structure Failure.TruthfulAt (K : Parser → Prop) (c : Cursor) (e : Failure) : Prop where
  index_le : c.index ≤ c.tokens.length
  position_eq : e.position = c.position
  unexpected_eq : e.unexpected = c.tokens[c.index]?
  expected_ne_nil : e.expected ≠ []
  nodup : e.expected.Nodup
  lacks : ∀ label ∈ e.expected, c.Lacks K label

/-- The failure is truthful at some place, the `n`-th or one behind it. -/
def Failure.Truthful (K : Parser → Prop) (tokens : List Token) (n : Nat) (e : Failure) : Prop :=
  ∃ m, n ≤ m ∧ e.TruthfulAt K ⟨tokens, m⟩

/-- The failure of a hint, if there is one, is truthful. -/
def Hint.Truthful (K : Parser → Prop) (tokens : List Token) (n : Nat) (hint : Hint) : Prop :=
  ∀ e ∈ hint, e.Truthful K tokens n

variable {K : Parser → Prop} {tokens : List Token} {m n : Nat}

namespace Failure

variable {e f : Failure} {c : Cursor}

namespace TruthfulAt

theorem ordinal_eq (h : e.TruthfulAt K c) : e.ordinal = c.index :=
  congrArg Position.ordinal h.position_eq

theorem withCommitted (h : e.TruthfulAt K c) (b : Bool) : (e.withCommitted b).TruthfulAt K c :=
  { h with }

theorem refused {label : String} (hc : c.index ≤ c.tokens.length) (h : c.Lacks K label) :
    TruthfulAt K c ⟨c.position, c.tokens[c.index]?, [label], false⟩ where
  index_le := hc
  position_eq := rfl
  unexpected_eq := rfl
  expected_ne_nil := List.cons_ne_nil _ _
  nodup := List.nodup_singleton label
  lacks _ hl := List.mem_singleton.1 hl ▸ h

theorem withExpected {label : String} {body : Parser} (h : e.TruthfulAt K c)
    (hlabel : K (.named label body)) : (e.withExpected [label]).TruthfulAt K c := by
  have hrefused := (refused h.index_le (.name hlabel)).withCommitted e.committed
  rwa [← h.position_eq, ← h.unexpected_eq] at hrefused

/-- Of two truthful failures the one that counts is truthful at the place that is further on. -/
theorem merge (he : e.TruthfulAt K ⟨tokens, m⟩) (hf : f.TruthfulAt K ⟨tokens, n⟩) :
    (e.merge f).TruthfulAt K ⟨tokens, max m n⟩ := by
  have hm : e.ordinal = m := he.ordinal_eq
  have hn : f.ordinal = n := hf.ordinal_eq
  unfold Failure.merge
  split
  · rw [Nat.max_eq_right (by omega)]
    exact hf
  · split
    · rw [Nat.max_eq_left (by omega)]
      exact he
    · obtain rfl : m = n := by omega
      rw [Nat.max_self]
      obtain ⟨label, hlabel⟩ := List.exists_mem_of_ne_nil _ he.expected_ne_nil
      exact { he with
        expected_ne_nil := List.ne_nil_of_mem (mem_unionLabels.2 (.inl hlabel))
        nodup := nodup_unionLabels _ he.nodup
        lacks := fun label hl =>
          (mem_unionLabels.1 hl).elim (he.lacks label) (hf.lacks label) }

end TruthfulAt

namespace Truthful

theorem mono (h : e.Truthful K tokens n) (hle : m ≤ n) : e.Truthful K tokens m := by
  obtain ⟨k, hk, he⟩ := h
  exact ⟨k, Nat.le_trans hle hk, he⟩

theorem withCommitted (h : e.Truthful K tokens n) (b : Bool) :
    (e.withCommitted b).Truthful K tokens n := by
  obtain ⟨k, hk, he⟩ := h
  exact ⟨k, hk, he.withCommitted b⟩

theorem withExpected {label : String} {body : Parser} (h : e.Truthful K tokens n)
    (hlabel : K (.named label body)) : (e.withExpected [label]).Truthful K tokens n := by
  obtain ⟨k, hk, he⟩ := h
  exact ⟨k, hk, he.withExpected hlabel⟩

theorem commitIf (h : e.Truthful K tokens n) (b : Bool) : (e.commitIf b).Truthful K tokens n := by
  cases b with
  | false => exact h
  | true => exact h.withCommitted true

theorem merge (he : e.Truthful K tokens m) (hf : f.Truthful K tokens n) :
    (e.merge f).Truthful K tokens (max m n) := by
  obtain ⟨j, hj, he⟩ := he
  obtain ⟨k, hk, hf⟩ := hf
  exact ⟨max j k, by omega, he.merge hf⟩

theorem withHint {hint : Hint} (he : e.Truthful K tokens n) (hh : hint.Truthful K tokens m) :
    (e.withHint hint).Truthful K tokens n := by
  unfold Failure.withHint
  split
  · exact he
  · rename_i h
    split
    · exact (he.merge (hh h rfl)).mono (Nat.le_max_left ..)
    · exact he

end Truthful

end Failure

namespace Hint.Truthful

variable {hint hint' : Hint} {e : Failure}

theorem none : Truthful K tokens n none := by simp [Truthful]

theorem some (h : e.Truthful K tokens n) : Truthful K tokens n (some e) := by
  simpa [Truthful] using h

theorem merge (h : hint.Truthful K tokens n) (h' : hint'.Truthful K tokens n) :
    (hint.merge hint').Truthful K tokens n := by
  cases hint with
  | none => exact h'
  | some e =>
    cases hint' with
    | none => exact h
    | some f => exact .some (Nat.max_self n ▸ (h e rfl).merge (h' f rfl))

theorem elim (h : hint.Truthful K tokens m) (he : e.Truthful K tokens n) :
    (hint.elim e (·.merge e)).Truthful K tokens n := by
  cases hint with
  | none => exact he
  | some f => exact ((h f rfl).merge he).mono (Nat.le_max_right ..)

theorem extend (h : hint.Truthful K tokens m) (he : e.Truthful K tokens n) :
    (hint.extend e).Truthful K tokens n := by
  unfold Hint.extend
  split
  · exact he
  · rename_i f
    split
    · exact ((h f rfl).merge he).mono (Nat.le_max_right ..)
    · exact he

end Hint.Truthful

theorem State.ordinal_eq {s : State Input} (h : s.source.At ⟨tokens, n⟩) : s.ordinal = n :=
  congrArg Position.ordinal h.position_eq

/-- The failure that a result tells of: the one it is, or its hint. -/
def Result.report {α : Type} : Result α → Hint
  | .success _ hint => hint
  | .failure e => some e
  | .abort _ => none

/-- The result of a parser that started at the `n`-th place of the tokens and stopped at the input:
it has not gone back, and what it tells is truthful from there on. -/
def Result.Truthful {α : Type} (K : Parser → Prop) (tokens : List Token) (n : Nat) (r : Result α)
    (i : Input) : Prop :=
  ∃ m, n ≤ m ∧ i.At ⟨tokens, m⟩ ∧ r.report.Truthful K tokens m

namespace Result.Truthful

variable {α β : Type} {r : Result α} {i : Input}

theorem of_le (h : r.Truthful K tokens n i) (hle : m ≤ n) : r.Truthful K tokens m i := by
  obtain ⟨k, hk, hi, hr⟩ := h
  exact ⟨k, Nat.le_trans hle hk, hi, hr⟩

theorem map (f : α → β) (h : r.Truthful K tokens n i) : (r.map f).Truthful K tokens n i := by
  cases r <;> exact h

end Result.Truthful

namespace Action

variable {α : Type} {p : Action Input Value} {ps : List (Action Input Value)}

/-- What an action tells is truthful, wherever among the tokens it starts. -/
def Truthful (K : Parser → Prop) (tokens : List Token) (a : Action Input α) : Prop :=
  ∀ ⦃s n⦄, s.source.At ⟨tokens, n⟩ → (a s).1.Truthful K tokens n (a s).2.source

theorem Truthful.of_eq {a : Action Input α} (ha : Truthful K tokens a) {s s' : State Input}
    (hs : s.source.At ⟨tokens, n⟩) {r : Result α} (h : a s = (r, s')) :
    r.Truthful K tokens n s'.source := by
  simpa [h] using ha hs

theorem truthful_refuse {label : String} {found : Option Token} {s : State Input}
    (hs : s.source.At ⟨tokens, n⟩) (hfound : found = tokens[n]?)
    (h : Cursor.Lacks K ⟨tokens, n⟩ label) :
    (refuse label s.source.position found s : Result α × State Input).1.Truthful K tokens n
      s.source := by
  have he := Failure.TruthfulAt.refused hs.index_le h
  rw [← hs.position_eq, ← hfound] at he
  exact ⟨n, Nat.le_refl n, hs, .some ⟨n, Nat.le_refl n, he⟩⟩

theorem truthful_abort (f : Fault) : Truthful K tokens (abort f : Action Input α) :=
  fun _ n hs => ⟨n, Nat.le_refl n, hs, .none⟩

theorem truthful_token {m : Matcher} (h : K (.token m)) : Truthful K tokens (token m) := by
  intro s n hs
  have hfound : s.source.next.1 = tokens[n]? := hs.peek
  simp only [token]
  split
  · rename_i v hv
    rcases Nat.lt_or_ge n tokens.length with hlt | hge
    · exact ⟨n + 1, Nat.le_succ n, (hs.next_of_lt hlt).2, .none⟩
    · have hnone : s.source.next.1 = none := hfound.trans (List.getElem?_eq_none hge)
      exact absurd (hnone ▸ hv) (by simp)
  · rename_i hv
    exact truthful_refuse hs hfound (.token h (hfound ▸ hv))

theorem truthful_eof (h : K .eof) : Truthful K tokens eof := by
  intro s n hs
  unfold eof
  split
  · exact ⟨n, Nat.le_refl n, hs, .none⟩
  · rename_i hempty
    have hne : n ≠ tokens.length := fun heq => hempty (hs.isEmpty_eq.trans (by simp [heq]))
    exact truthful_refuse hs hs.peek (.eof h (Nat.lt_of_le_of_ne hs.index_le hne))

theorem truthful_sequenceFrom (hps : ∀ p ∈ ps, Truthful K tokens p) (start : Int) {hint : Hint}
    {s : State Input} (hs : s.source.At ⟨tokens, n⟩) (hh : hint.Truthful K tokens n) :
    (sequenceFrom start ps hint s).1.Truthful K tokens n
      (sequenceFrom start ps hint s).2.source := by
  induction ps generalizing hint s n with
  | nil => exact ⟨n, Nat.le_refl n, hs, hh⟩
  | cons p ps ih =>
    obtain ⟨hp, hps⟩ := List.forall_mem_cons.1 hps
    simp only [sequenceFrom]
    split
    · rename_i v new s' h
      obtain ⟨m, hle, hs', hnew⟩ := hp.of_eq hs h
      refine ((ih hps hs' ?_).of_le hle).map _
      split
      · exact hnew
      · rename_i hlt
        rw [State.ordinal_eq hs, State.ordinal_eq hs'] at hlt
        obtain rfl : m = n := by omega
        exact hh.merge hnew
    · rename_i e s' h
      obtain ⟨m, hle, hs', he⟩ := hp.of_eq hs h
      exact ⟨m, hle, hs', .some (((he e rfl).withHint hh).commitIf _)⟩
    · rename_i f s' h
      exact hp.of_eq hs h

theorem truthful_sequence (hps : ∀ p ∈ ps, Truthful K tokens p) :
    Truthful K tokens (sequence ps) :=
  fun _ _ hs => (truthful_sequenceFrom hps _ hs .none).map _

theorem truthful_choiceFrom {p : Action Input Value} {ps : List (Action Input Value)}
    (hp : Truthful K tokens p) (hps : ∀ q ∈ ps, Truthful K tokens q) {start n : Nat}
    {missed : Hint} {s : State Input} (hs : s.source.At ⟨tokens, n⟩) (hn : start ≤ n)
    (hm : missed.Truthful K tokens start) :
    (choiceFrom start p ps missed s).1.Truthful K tokens n
      (choiceFrom start p ps missed s).2.source := by
  unfold choiceFrom
  split
  · rename_i v hint s' h
    obtain ⟨m, hle, hs', hh⟩ := hp.of_eq hs h
    refine ⟨m, hle, hs', ?_⟩
    show Hint.Truthful K tokens m (if _ then _ else _)
    split
    · rename_i heq
      rw [State.ordinal_eq hs'] at heq
      obtain rfl : m = start := by omega
      exact hm.merge hh
    · exact hh
  · rename_i e s' h
    obtain ⟨m, hle, hs', he⟩ := hp.of_eq hs h
    split
    · exact ⟨m, hle, hs', he⟩
    · -- what was missed is told from the start of the choice, although this one may have read on
      have hmissed := hm.elim (he e rfl)
      cases ps with
      | nil => exact ⟨m, hle, hs', .some hmissed⟩
      | cons q qs =>
        obtain ⟨hq, hqs⟩ := List.forall_mem_cons.1 hps
        have hstart : start ≤ m := Nat.le_trans hn hle
        exact (truthful_choiceFrom hq hqs hs' hstart (.some (hmissed.mono hstart))).of_le hle
  · rename_i f s' h
    exact hp.of_eq hs h

theorem truthful_choice (hp : Truthful K tokens p) (hps : ∀ q ∈ ps, Truthful K tokens q) :
    Truthful K tokens (choice p ps) := by
  intro s n hs
  unfold choice
  rw [State.ordinal_eq hs]
  exact truthful_choiceFrom hp hps hs (Nat.le_refl n) .none

theorem truthful_map (f : Value → Except ValueError Value) (hp : Truthful K tokens p) :
    Truthful K tokens (map f p) := by
  intro s n hs
  unfold map
  split
  · rename_i v hint s' h
    obtain ⟨m, hle, hs', hh⟩ := hp.of_eq hs h
    split
    · exact ⟨m, hle, hs', hh⟩
    · exact ⟨m, hle, hs', .none⟩
  · exact hp hs

theorem truthful_named {label : String} {body : Parser} (hlabel : K (.named label body))
    (hp : Truthful K tokens p) : Truthful K tokens (named label p) := by
  intro s n hs
  simp only [named]
  split
  · rename_i v hint s' h
    obtain ⟨m, hle, hs', hh⟩ := hp.of_eq hs h
    refine ⟨m, hle, hs', ?_⟩
    cases hint with
    | none => exact .none
    | some e =>
      refine .some ?_
      show Failure.Truthful K tokens m (if _ then _ else _)
      split
      · exact (hh e rfl).withExpected hlabel
      · exact hh e rfl
  · rename_i e s' h
    obtain ⟨m, hle, hs', he⟩ := hp.of_eq hs h
    split
    · exact ⟨m, hle, hs', he⟩
    · exact ⟨m, hle, hs', .some ((he e rfl).withExpected hlabel)⟩
  · exact hp hs

theorem truthful_manyFrom (start minimum : Int) (hp : Truthful K tokens p) (limit count : Nat)
    {hint : Hint} {s : State Input} (hs : s.source.At ⟨tokens, n⟩)
    (hh : hint.Truthful K tokens n) :
    (manyFrom start minimum p limit count hint s).1.Truthful K tokens n
      (manyFrom start minimum p limit count hint s).2.source := by
  induction limit generalizing count hint s n with
  | zero => exact truthful_abort .exhausted hs
  | succ limit ih =>
    simp only [manyFrom]
    split
    · rename_i v new s' h
      obtain ⟨m, hle, hs', hnew⟩ := hp.of_eq hs h
      split
      · rename_i heq
        rw [State.ordinal_eq hs, State.ordinal_eq hs'] at heq
        obtain rfl : m = n := by omega
        exact ⟨m, hle, hs', hh⟩
      · exact ((ih (count + 1) hs' hnew).of_le hle).map _
    · rename_i e s' h
      obtain ⟨m, hle, hs', he⟩ := hp.of_eq hs h
      split
      · exact ⟨m, hle, hs', .some ((he e rfl).commitIf _)⟩
      · exact ⟨m, hle, hs', .some (hh.extend (he e rfl))⟩
    · rename_i f s' h
      exact hp.of_eq hs h

theorem truthful_many (minimum : Int) (limit : Nat) (hp : Truthful K tokens p) :
    Truthful K tokens (many minimum limit p) :=
  fun _ _ hs => (truthful_manyFrom _ minimum hp limit 0 hs .none).map _

theorem truthful_opt (default : Value) (hp : Truthful K tokens p) :
    Truthful K tokens (opt default p) := by
  intro s n hs
  unfold opt
  split
  · rename_i e s' h
    obtain ⟨m, hle, hs', he⟩ := hp.of_eq hs h
    split
    · exact ⟨m, hle, hs', he⟩
    · exact ⟨m, hle, hs', he⟩
  · exact hp hs

theorem truthful_attempt (hp : Truthful K tokens p) : Truthful K tokens (attempt p) := by
  intro s n hs
  simp only [attempt]
  split
  · rename_i e s' h
    obtain ⟨m, hle, -, he⟩ := hp.of_eq hs h
    exact ⟨n, Nat.le_refl n, hs, .some (((he e rfl).mono hle).withCommitted false)⟩
  · exact hp hs

/-- Every combinator keeps truthful actions truthful. -/
theorem truthful_stable : StableOn K (Truthful (α := Value) K tokens) where
  abort f _ := truthful_abort f
  token _ h := truthful_token h
  eof h := truthful_eof h
  sequence := truthful_sequence
  choice := truthful_choice
  map f _ _ _ := truthful_map f
  named _ _ _ h := truthful_named h
  many minimum limit _ := truthful_many minimum limit
  opt default _ _ _ := truthful_opt default
  attempt _ := truthful_attempt
  afterNote f _ hp s n hs := @hp { s with journal := f s.journal } n hs

end Action

/-- The failure that a run ends in, or returns as a hint, stands no nearer than where the run stopped,
which is no nearer than where it started. It shows the token that stands there, or that there is
none, and what it expects are names, and matchers and the end where they are not. -/
theorem Parser.run_truthful {trees : List TokenTree} (rules : Rules) (p : Parser) {s : State Input}
    (hs : (Stream.input s.source).Reachable trees) {e : Failure}
    (he : e ∈ (p.run rules s).1.report) :
    s.source.ordinal ≤ (p.run rules s).2.source.ordinal ∧
      ∃ n, (p.run rules s).2.source.ordinal ≤ n ∧
        e.TruthfulAt (p.Part rules) ⟨TokenStream.flatten trees, n⟩ := by
  have hrun : Action.Truthful (p.Part rules) (TokenStream.flatten trees) (p.run rules) :=
    fun _ _ h => Action.truthful_stable.action _ _ p (fun _ hq => hq) h
  obtain ⟨n, hplace⟩ := hs.input_at
  obtain ⟨m, hle, hplace', hreport⟩ := hrun hplace
  rw [hplace.ordinal_eq, hplace'.ordinal_eq]
  exact ⟨hle, hreport e he⟩

/-- In `a b ( c 1 )`, behind `a`: the repetition stops in front of the group, and its hint is the
failure in front of `1`, which an attempt has gone back from. -/
theorem Parser.run_truthful_attempt :
    let group : TokenTree :=
      .group .parenthesis [.ident "c" .callSite, .literal "1" .callSite] .callSite
    let trees := [.ident "a" .callSite, .ident "b" .callSite, group]
    let comma : Parser := .opt .null (.named "comma" (.token (.punct ',')))
    let pair : Parser :=
      .sequence [.token (.delim '('), .token .ident, comma, .token (.delim ')')]
    let rules : Rules := [("item", .ok (.named "item" (.choice (.token .ident) [.attempt pair])))]
    let p : Parser := .many 0 (.rule "item")
    let run := p.run rules ⟨(Input.ofTrees trees).next.2, {}⟩
    run.2.source.ordinal = 2 ∧ ∃ e ∈ run.1.report, e.expected = [")", "comma"] ∧
      e.TruthfulAt (p.Part rules) ⟨TokenStream.flatten trees, 4⟩ := by
  intro group trees comma pair rules p run
  have hstart : (Stream.input (.ofTrees trees)).Reachable trees := .ofTrees
  have hend : run.2.source.ordinal = 2 := by decide +kernel
  have hview : run.1.report.map (fun e => (e.ordinal, e.expected)) = some (4, [")", "comma"]) := by
    decide +kernel
  obtain ⟨e, he, heq⟩ := Option.map_eq_some_iff.1 hview
  obtain ⟨hordinal, hexpected⟩ := Prod.mk.inj heq
  obtain ⟨-, n, -, htrue⟩ := run_truthful rules p hstart.next he
  obtain rfl : n = 4 := by
    have hn : e.ordinal = n := htrue.ordinal_eq
    omega
  exact ⟨hend, e, he, hexpected, htrue⟩

end TokenParsing
