import TokenParsing.Proofs.Congruence

/-!
# Comparing two runs

Two runs on different inputs, or of different parsers, may come to the same in some respects and not
in others. A likeness says which inputs stand side by side, and which values and which failures count
as alike. If reading and the ways to put values and failures together respect it, which are the fields
of `Likeness`, then so does every combinator: runs of like actions on inputs side by side succeed with
like values, or fail with like failures, or abort alike, and their inputs stand side by side again
(`Likeness.Lifts`). Some aborts of the first run may be excused; nothing is then asked of the second one.

A simulation (`Simulation`) is stricter, since it asks for the same values and failures.
-/

namespace TokenParsing

open List (Forall₂)

/-- What counts as alike when two runs on inputs are compared. -/
structure Likeness where
  inputs : Input → Input → Prop
  values : Value → Value → Prop
  failures : Failure → Failure → Prop
  ordinal_eq : ∀ {i j}, inputs i j → i.ordinal = j.ordinal
  isEmpty_eq : ∀ {i j}, inputs i j → i.isEmpty = j.isEmpty
  remaining_eq : ∀ {i j}, inputs i j → i.tokens.length = j.tokens.length
  next : ∀ {i j}, inputs i j → inputs i.next.2 j.next.2
  accept : ∀ {i j}, inputs i j → ∀ m : Matcher,
    Option.Rel values (i.next.1.bind m.accept) (j.next.1.bind m.accept)
  /-- Failures at inputs side by side are alike if they want the same. -/
  refuse : ∀ {i j}, inputs i j → ∀ label : String,
    failures ⟨i.position, i.next.1, [label], false⟩ ⟨j.position, j.next.1, [label], false⟩
  refl : ∀ v, values v v
  tuple : ∀ {vs ws}, Forall₂ values vs ws → values (.tuple vs) (.tuple ws)
  list : ∀ {vs ws}, Forall₂ values vs ws → values (.list vs) (.list ws)
  place_eq : ∀ {e f}, failures e f → e.ordinal = f.ordinal
  committed_eq : ∀ {e f}, failures e f → e.committed = f.committed
  merge : ∀ {e f e' f'}, failures e f → failures e' f' → failures (e.merge e') (f.merge f')
  withCommitted : ∀ {e f}, failures e f → ∀ b, failures (e.withCommitted b) (f.withCommitted b)
  /-- The first run may abort so, whatever becomes of the second. -/
  excused : Fault → Prop

namespace Likeness

variable {α : Type} {L : Likeness} {E : α → α → Prop} {s s' t t' : State Input} {e f : Failure}
  {h h' k k' : Hint}

/-! ### Hints and failures -/

/-- There is no hint on either side, or there are like ones. -/
abbrev hints (L : Likeness) : Hint → Hint → Prop := Option.Rel L.failures

theorem hints_merge (hk : L.hints h k) (hk' : L.hints h' k') :
    L.hints (h.merge h') (k.merge k') := by
  cases hk with
  | none => exact hk'
  | some he =>
    cases hk' with
    | none => exact .some he
    | some he' => exact .some (L.merge he he')

theorem elim (hk : L.hints h k) (hf : L.failures e f) :
    L.failures (h.elim e (·.merge e)) (k.elim f (·.merge f)) := by
  cases hk with
  | none => exact hf
  | some he => exact L.merge he hf

theorem extend (hk : L.hints h k) (hf : L.failures e f) :
    L.failures (h.extend e) (k.extend f) := by
  cases hk with
  | none => exact hf
  | some he =>
    simp only [Hint.extend, L.place_eq he, L.place_eq hf]
    split
    · exact L.merge he hf
    · exact hf

theorem withHint (hf : L.failures e f) (hk : L.hints h k) :
    L.failures (e.withHint h) (f.withHint k) := by
  cases hk with
  | none => exact hf
  | some he =>
    simp only [Failure.withHint, L.place_eq he, L.place_eq hf, L.committed_eq hf]
    split
    · exact L.merge hf he
    · exact hf

theorem commitIf (hf : L.failures e f) (condition : Bool) :
    L.failures (e.commitIf condition) (f.commitIf condition) := by
  cases condition with
  | true => exact L.withCommitted hf true
  | false => exact hf

/-! ### Runs -/

/-- Two runs so far: the inputs stand side by side, and the journals are the same. -/
structure Beside (L : Likeness) (s t : State Input) : Prop where
  inputs : L.inputs s.source t.source
  journal : s.journal = t.journal

/-- Two runs end alike, with values that are related by `E`. -/
inductive Agrees (L : Likeness) (E : α → α → Prop) :
    Result α × State Input → Result α × State Input → Prop
  | success {v w : α} {h k : Hint} {s t : State Input} (hv : E v w) (hk : L.hints h k)
    (hst : L.Beside s t) : Agrees L E (.success v h, s) (.success w k, t)
  | failure {e f : Failure} {s t : State Input} (hf : L.failures e f) (hst : L.Beside s t) :
    Agrees L E (.failure e, s) (.failure f, t)
  | abort (f : Fault) {s t : State Input} (hst : L.Beside s t) :
    Agrees L E (.abort f, s) (.abort f, t)
  | excused {f : Fault} (hf : L.excused f) (s : State Input) (y : Result α × State Input) :
    Agrees L E (.abort f, s) y

/-- Runs of the two actions on inputs side by side end alike. -/
def Lifts (L : Likeness) (E : α → α → Prop) (a b : Action Input α) : Prop :=
  ∀ ⦃s t⦄, L.Beside s t → L.Agrees E (a s) (b t)

theorem Beside.ordinal_eq (hst : L.Beside s t) : s.ordinal = t.ordinal :=
  congrArg Int.ofNat (L.ordinal_eq hst.inputs)

theorem Agrees.map {β : Type} {E' : β → β → Prop} {x y : Result α × State Input} {g g' : α → β}
    (hxy : L.Agrees E x y) (hE : ∀ {v w}, E v w → E' (g v) (g' w)) :
    L.Agrees E' (x.1.map g, x.2) (y.1.map g', y.2) := by
  cases hxy with
  | success hv hk hst => exact .success (hE hv) hk hst
  | failure hf hst => exact .failure hf hst
  | abort e hst => exact .abort e hst
  | excused he s y => exact .excused he s _

namespace Lifts

variable {p q : Action Input Value} {ps qs : List (Action Input Value)}

theorem refuse (label : String) (hst : L.Beside s t) :
    L.Agrees E (Action.refuse label s.source.position s.source.next.1 s)
      (Action.refuse label t.source.position t.source.next.1 t) := by
  have hplace : s.source.position.ordinal = t.source.position.ordinal := hst.ordinal_eq
  refine .failure (L.refuse hst.inputs label) ⟨hst.inputs, ?_⟩
  rw [hst.journal, hplace]

theorem token (m : Matcher) : L.Lifts L.values (Action.token m) (Action.token m) := by
  intro s t hst
  have haccept := L.accept hst.inputs m
  unfold Action.token
  simp only [TokenSource.next, TokenSource.mark, TokenSource.restore]
  generalize s.source.next.1.bind m.accept = a, t.source.next.1.bind m.accept = b at haccept
  cases haccept with
  | some hv => exact .success hv .none ⟨L.next hst.inputs, hst.journal⟩
  | none => exact refuse m.label hst

theorem eof : L.Lifts L.values Action.eof Action.eof := by
  intro s t hst
  have hempty : TokenSource.isEmpty s.source = TokenSource.isEmpty t.source :=
    L.isEmpty_eq hst.inputs
  unfold Action.eof
  rw [hempty]
  split
  · exact .success (L.refl _) .none hst
  · exact refuse Parser.eofLabel hst

theorem sequenceFrom (hps : Forall₂ (L.Lifts L.values) ps qs) (start : Int) (hk : L.hints h k) :
    L.Lifts (Forall₂ L.values) (Action.sequenceFrom start ps h)
      (Action.sequenceFrom start qs k) := by
  induction hps generalizing h k with
  | nil => exact fun _ _ hst => .success .nil hk hst
  | @cons p q _ _ hp _ ih =>
    intro s t hst
    simp only [Action.sequenceFrom]
    match p s, q t, hp hst with
    | _, _, .success hv hnew hst' =>
      simp only [hst.ordinal_eq, hst'.ordinal_eq]
      refine (ih ?_ hst').map (Forall₂.cons hv)
      split
      · exact hnew
      · exact hints_merge hk hnew
    | _, _, .failure hf hst' =>
      simp only [hst'.ordinal_eq]
      exact .failure (commitIf (withHint hf hk) _) hst'
    | _, _, .abort e hst' => exact .abort e hst'
    | _, _, .excused he _ _ => exact .excused he _ _

theorem sequence (hps : Forall₂ (L.Lifts L.values) ps qs) :
    L.Lifts L.values (Action.sequence ps) (Action.sequence qs) := by
  intro s t hst
  simp only [Action.sequence, hst.ordinal_eq]
  exact (sequenceFrom hps _ .none hst).map L.tuple

theorem choiceFrom {p q : Action Input Value} {ps qs : List (Action Input Value)}
    (hp : L.Lifts L.values p q) (hps : Forall₂ (L.Lifts L.values) ps qs) (start : Int)
    {h k : Hint} (hk : L.hints h k) :
    L.Lifts L.values (Action.choiceFrom start p ps h) (Action.choiceFrom start q qs k) := by
  intro s t hst
  unfold Action.choiceFrom
  match p s, q t, hp hst with
  | _, _, .success hv hnew hst' =>
    simp only [hst'.ordinal_eq]
    refine .success hv ?_ hst'
    split
    · exact hints_merge hk hnew
    · exact hnew
  | _, _, .failure hf hst' =>
    simp only [L.committed_eq hf]
    split
    · exact .failure hf hst'
    · cases hps with
      | nil => exact .failure (elim hk hf) hst'
      | cons hp' hps' => exact choiceFrom hp' hps' start (.some (elim hk hf)) hst'
  | _, _, .abort e hst' => exact .abort e hst'
  | _, _, .excused he _ _ => exact .excused he _ _
termination_by ps.length

theorem choice (hp : L.Lifts L.values p q) (hps : Forall₂ (L.Lifts L.values) ps qs) :
    L.Lifts L.values (Action.choice p ps) (Action.choice q qs) := by
  intro s t hst
  simp only [Action.choice, hst.ordinal_eq]
  exact choiceFrom hp hps _ .none hst

theorem map {g g' : Value → Except ValueError Value} (hg : ∀ {v w}, L.values v w →
      (∃ v' w', g v = .ok v' ∧ g' w = .ok w' ∧ L.values v' w') ∨
        ∃ e, g v = .error e ∧ g' w = .error e)
    (hp : L.Lifts L.values p q) : L.Lifts L.values (Action.map g p) (Action.map g' q) := by
  intro s t hst
  unfold Action.map
  match p s, q t, hp hst with
  | _, _, .success hv hk hst' =>
    rcases hg hv with ⟨v', w', hv', hw', hvw⟩ | ⟨e, hv', hw'⟩
    · simp only [hv', hw']
      exact .success hvw hk hst'
    · simp only [hv', hw']
      exact .abort _ hst'
  | _, _, .failure hf hst' => exact .failure hf hst'
  | _, _, .abort e hst' => exact .abort e hst'
  | _, _, .excused he _ _ => exact .excused he _ _

theorem named (label : String)
    (hlabel : ∀ {e f}, L.failures e f → L.failures (e.withExpected [label]) (f.withExpected [label]))
    (hp : L.Lifts L.values p q) :
    L.Lifts L.values (Action.named label p) (Action.named label q) := by
  intro s t hst
  simp only [Action.named, hst.ordinal_eq]
  match p s, q t, hp hst with
  | _, _, .success hv hk hst' =>
    refine .success hv ?_ hst'
    cases hk with
    | none => exact .none
    | some hf =>
      refine .some ?_
      simp only [L.place_eq hf]
      split
      · exact hlabel hf
      · exact hf
  | _, _, .failure hf hst' =>
    simp only [L.place_eq hf, L.committed_eq hf]
    split
    · exact .failure hf hst'
    · exact .failure (hlabel hf) hst'
  | _, _, .abort e hst' => exact .abort e hst'
  | _, _, .excused he _ _ => exact .excused he _ _

theorem manyFrom (start minimum : Int) (hp : L.Lifts L.values p q) (limit count : Nat)
    (hk : L.hints h k) :
    L.Lifts (Forall₂ L.values) (Action.manyFrom start minimum p limit count h)
      (Action.manyFrom start minimum q limit count k) := by
  induction limit generalizing count h k with
  | zero => exact fun _ _ hst => .abort _ hst
  | succ limit ih =>
    intro s t hst
    simp only [Action.manyFrom, hst.ordinal_eq]
    match p s, q t, hp hst with
    | _, _, .success hv hnew hst' =>
      simp only [hst'.ordinal_eq]
      split
      · exact .success (.cons hv .nil) hk hst'
      · exact (ih (count + 1) hnew hst').map (Forall₂.cons hv)
    | _, _, .failure hf hst' =>
      simp only [hst'.ordinal_eq, L.committed_eq hf]
      split
      · exact .failure (commitIf hf _) hst'
      · exact .success .nil (.some (extend hk hf)) hst'
    | _, _, .abort e hst' => exact .abort e hst'
    | _, _, .excused he _ _ => exact .excused he _ _

theorem many (minimum : Int) (limit : Nat) (hp : L.Lifts L.values p q) :
    L.Lifts L.values (Action.many minimum limit p) (Action.many minimum limit q) := by
  intro s t hst
  simp only [Action.many, hst.ordinal_eq]
  exact (manyFrom _ minimum hp limit 0 .none hst).map L.list

theorem opt (default : Value) (hp : L.Lifts L.values p q) :
    L.Lifts L.values (Action.opt default p) (Action.opt default q) := by
  intro s t hst
  unfold Action.opt
  match p s, q t, hp hst with
  | _, _, .success hv hk hst' => exact .success hv hk hst'
  | _, _, .failure hf hst' =>
    simp only [L.committed_eq hf]
    split
    · exact .failure hf hst'
    · exact .success (L.refl _) (.some hf) hst'
  | _, _, .abort e hst' => exact .abort e hst'
  | _, _, .excused he _ _ => exact .excused he _ _

theorem attempt (hp : L.Lifts L.values p q) :
    L.Lifts L.values (Action.attempt p) (Action.attempt q) := by
  intro s t hst
  simp only [Action.attempt]
  match p s, q t, hp hst with
  | _, _, .success hv hk hst' => exact .success hv hk hst'
  | _, _, .failure hf hst' =>
    exact .failure (L.withCommitted hf false) ⟨hst.inputs, hst'.journal⟩
  | _, _, .abort e hst' => exact .abort e hst'
  | _, _, .excused he _ _ => exact .excused he _ _

theorem afterNote (note : Journal → Journal) (hp : L.Lifts L.values p q) :
    L.Lifts L.values (Action.afterNote note p) (Action.afterNote note q) :=
  fun _ _ hst => hp ⟨hst.inputs, congrArg note hst.journal⟩

end Lifts

end Likeness

end TokenParsing
