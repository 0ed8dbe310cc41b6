import TokenParsing.Proofs.Congruence

/-!
# Simulations between token sources

Two sources simulate each other (`Simulation`) if related states give the same answers and stay
related. Going back may be refused on the first source alone, and only if the simulation is `lossy`.
Every combinator keeps the agreement of two actions (`Simulation.congruence`), so a parser runs alike
on related states (`Simulation.run`): the results are equal and the states related, or the first run
ends in a refusal. A parser thus reads its source through nothing but the answers.

Marks are related relative to the states that hold them, because a window takes back only marks it
has not passed yet. `Later` says that related marks stay related, and every step keeps that too.
-/

namespace TokenParsing

open List (Forall₂)

/-- Which states of two sources belong together, and which marks do while the sources are in them. -/
structure Correspondence (σ τ : Type) [TokenSource σ] [TokenSource τ] where
  rel : σ → τ → Prop
  marks : σ → τ → TokenSource.Mark σ → TokenSource.Mark τ → Prop

/-- The states `s'` and `t'` belong together, and so do all marks that did in `s` and `t`. -/
structure Correspondence.Later {σ τ : Type} [TokenSource σ] [TokenSource τ]
    (C : Correspondence σ τ) (s : σ) (t : τ) (s' : σ) (t' : τ) : Prop where
  rel : C.rel s' t'
  marks : ∀ {m n}, C.marks s t m n → C.marks s' t' m n

/-- States of two sources that cannot be told apart by reading. -/
structure Simulation (σ τ : Type) [TokenSource σ] [TokenSource τ] extends Correspondence σ τ where
  /-- May the first source refuse to go back? -/
  lossy : Prop
  position : ∀ {s t}, rel s t → TokenSource.position s = TokenSource.position t
  isEmpty : ∀ {s t}, rel s t → TokenSource.isEmpty s = TokenSource.isEmpty t
  remaining : ∀ {s t}, rel s t → TokenSource.remaining s = TokenSource.remaining t
  next : ∀ {s t}, rel s t → (TokenSource.next s).1 = (TokenSource.next t).1 ∧
    toCorrespondence.Later s t (TokenSource.next s).2 (TokenSource.next t).2
  peek : ∀ {s t}, rel s t → (TokenSource.peek s).1 = (TokenSource.peek t).1 ∧
    toCorrespondence.Later s t (TokenSource.peek s).2 (TokenSource.peek t).2
  mark : ∀ {s t}, rel s t → marks s t (TokenSource.mark s) (TokenSource.mark t)
  restore : ∀ {s t m n}, rel s t → marks s t m n →
    (∃ s' t', TokenSource.restore m s = .ok s' ∧ TokenSource.restore n t = .ok t' ∧
      toCorrespondence.Later s t s' t') ∨
    lossy ∧ ∃ e, TokenSource.restore m s = .error e

variable {σ τ : Type} [TokenSource σ] [TokenSource τ] {α β : Type}

namespace Correspondence.Later

variable {C : Correspondence σ τ} {s s' s'' : σ} {t t' t'' : τ}

theorem refl (h : C.rel s t) : C.Later s t s t := ⟨h, id⟩

theorem trans (h : C.Later s t s' t') (h' : C.Later s' t' s'' t'') : C.Later s t s'' t'' :=
  ⟨h'.rel, fun hm => h'.marks (h.marks hm)⟩

end Correspondence.Later

namespace Simulation

/-- States of two runs that can follow related states: the sources are later ones, and the journals
are the same. -/
structure Follow (R : Simulation σ τ) (s : State σ) (t : State τ) (s' : State σ) (t' : State τ) :
    Prop where
  later : R.Later s.source t.source s'.source t'.source
  journal : s'.journal = t'.journal

/-- The outcomes of two runs are the same, or the first run was refused to go back. -/
inductive Agrees (R : Simulation σ τ) (s : State σ) (t : State τ) :
    Result α × State σ → Result α × State τ → Prop
  | refused (h : R.lossy) (e : BacktrackError) (s' : State σ) (y : Result α × State τ) :
    Agrees R s t (.abort (.backtrack e), s') y
  | success (v : α) (hint : Hint) {s' : State σ} {t' : State τ} (h : R.Follow s t s' t') :
    Agrees R s t (.success v hint, s') (.success v hint, t')
  | failure (e : Failure) {s' : State σ} {t' : State τ} (h : R.Follow s t s' t') :
    Agrees R s t (.failure e, s') (.failure e, t')
  | abort (f : Fault) (hf : ∀ e, f ≠ .backtrack e) {s' : State σ} {t' : State τ}
    (h : R.Follow s t s' t') : Agrees R s t (.abort f, s') (.abort f, t')

/-- Two actions agree on related states. -/
def Lifts (R : Simulation σ τ) (a : Action σ α) (b : Action τ α) : Prop :=
  ∀ ⦃s t⦄, R.rel s.source t.source → s.journal = t.journal → R.Agrees s t (a s) (b t)

variable {R : Simulation σ τ} {p : Action σ Value} {q : Action τ Value}
  {s s' s'' : State σ} {t t' t'' : State τ}

theorem ordinal_eq (h : R.rel s.source t.source) : s.ordinal = t.ordinal := by
  simp only [State.ordinal, R.position h]

theorem Follow.trans (h : R.Follow s t s' t') (h' : R.Follow s' t' s'' t'') :
    R.Follow s t s'' t'' :=
  ⟨h.later.trans h'.later, h'.journal⟩

theorem Follow.ordinal (h : R.Follow s t s' t') : s'.ordinal = t'.ordinal := ordinal_eq h.later.rel

namespace Agrees

variable {x : Result α × State σ} {y : Result α × State τ}

theorem map (f : α → β) (h : R.Agrees s t x y) : R.Agrees s t (x.1.map f, x.2) (y.1.map f, y.2) := by
  cases h with
  | refused h e s y => exact .refused h e s _
  | success v hint h => exact .success (f v) hint h
  | failure e h => exact .failure e h
  | abort f hf h => exact .abort f hf h

theorem after (h : R.Follow s t s' t') (hxy : R.Agrees s' t' x y) : R.Agrees s t x y := by
  cases hxy with
  | refused hl e s y => exact .refused hl e s _
  | success v hint h' => exact .success v hint (h.trans h')
  | failure e h' => exact .failure e (h.trans h')
  | abort f hf h' => exact .abort f hf (h.trans h')

end Agrees

namespace Lifts

theorem apply {a : Action σ α} {b : Action τ α} (hab : R.Lifts a b) (h : R.Follow s t s' t') :
    R.Agrees s t (a s') (b t') :=
  .after h (hab h.later.rel h.journal)

theorem refuse (label : String) (start : Position) (found : Option Token) :
    R.Lifts (α := α) (Action.refuse label start found) (Action.refuse label start found) :=
  fun _ _ h hj => .failure _ ⟨.refl h, by rw [hj]⟩

theorem token (m : Matcher) : R.Lifts (Action.token m) (Action.token m) := by
  intro s t h hj
  obtain ⟨hnext, hafter⟩ := R.next h
  unfold Action.token
  dsimp only
  rw [← hnext, ← R.position h]
  split
  · exact .success _ none ⟨hafter, hj⟩
  · rcases R.restore hafter.rel (hafter.marks (R.mark h)) with
      ⟨s', t', hs, ht, hback⟩ | ⟨hl, e, he⟩
    · rw [hs, ht]
      exact (refuse _ _ _).apply ⟨hafter.trans hback, hj⟩
    · rw [he]
      exact .refused hl e _ _

theorem eof : R.Lifts Action.eof Action.eof := by
  intro s t h hj
  obtain ⟨hpeek, hafter⟩ := R.peek h
  simp only [Action.eof, ← hpeek, ← R.isEmpty h, ← R.position h]
  split
  · exact .success _ none ⟨.refl h, hj⟩
  · exact (refuse _ _ _).apply ⟨hafter, hj⟩

theorem sequenceFrom {ps : List (Action σ Value)} {qs : List (Action τ Value)}
    (hps : Forall₂ R.Lifts ps qs) (start : Int) (hint : Hint) :
    R.Lifts (Action.sequenceFrom start ps hint) (Action.sequenceFrom start qs hint) := by
  induction hps generalizing hint with
  | nil => exact fun _ _ h hj => .success [] hint ⟨.refl h, hj⟩
  | @cons p q _ _ hp _ ih =>
    intro s t h hj
    simp only [Action.sequenceFrom]
    match p s, q t, hp h hj with
    | _, _, .refused hl e _ _ => exact .refused hl e _ _
    | _, _, .success v new h' =>
      simp only [ordinal_eq h, h'.ordinal]
      exact ((ih _).apply h').map _
    | _, _, .failure e h' =>
      simp only [h'.ordinal]
      exact .failure _ h'
    | _, _, .abort f hf h' => exact .abort f hf h'

theorem sequence {ps : List (Action σ Value)} {qs : List (Action τ Value)}
    (hps : Forall₂ R.Lifts ps qs) : R.Lifts (Action.sequence ps) (Action.sequence qs) := by
  intro s t h hj
  simp only [Action.sequence, ordinal_eq h]
  exact (sequenceFrom hps _ none h hj).map _

theorem choiceFrom {p : Action σ Value} {q : Action τ Value} {ps : List (Action σ Value)}
    {qs : List (Action τ Value)} (hp : R.Lifts p q) (hps : Forall₂ R.Lifts ps qs) (start : Int)
    (missed : Hint) :
    R.Lifts (Action.choiceFrom start p ps missed) (Action.choiceFrom start q qs missed) := by
  intro s t h hj
  unfold Action.choiceFrom
  match p s, q t, hp h hj with
  | _, _, .refused hl e _ _ => exact .refused hl e _ _
  | _, _, .success v hint h' =>
    simp only [h'.ordinal]
    exact .success v _ h'
  | _, _, .failure e h' =>
    dsimp only
    split
    · exact .failure e h'
    · cases hps with
      | nil => exact .failure _ h'
      | cons hp' hps' => exact (choiceFrom hp' hps' start _).apply h'
  | _, _, .abort f hf h' => exact .abort f hf h'
termination_by ps.length

theorem choice {ps : List (Action σ Value)} {qs : List (Action τ Value)} (hp : R.Lifts p q)
    (hps : Forall₂ R.Lifts ps qs) : R.Lifts (Action.choice p ps) (Action.choice q qs) := by
  intro s t h hj
  simp only [Action.choice, ordinal_eq h]
  exact choiceFrom hp hps _ none h hj

theorem map (f : Value → Except ValueError Value) (hp : R.Lifts p q) :
    R.Lifts (Action.map f p) (Action.map f q) := by
  intro s t h hj
  unfold Action.map
  match p s, q t, hp h hj with
  | _, _, .refused hl e _ _ => exact .refused hl e _ _
  | _, _, .success v hint h' =>
    dsimp only
    split
    · exact .success _ hint h'
    · exact .abort _ (fun _ h => by cases h) h'
  | _, _, .failure e h' => exact .failure e h'
  | _, _, .abort f hf h' => exact .abort f hf h'

theorem named (label : String) (hp : R.Lifts p q) :
    R.Lifts (Action.named label p) (Action.named label q) := by
  intro s t h hj
  simp only [Action.named, ordinal_eq h]
  match p s, q t, hp h hj with
  | _, _, .refused hl e _ _ => exact .refused hl e _ _
  | _, _, .success v hint h' => exact .success v _ h'
  | _, _, .failure e h' =>
    dsimp only
    split
    · exact .failure e h'
    · exact .failure _ h'
  | _, _, .abort f hf h' => exact .abort f hf h'

theorem manyFrom (start minimum : Int) (hp : R.Lifts p q) (limit count : Nat) (hint : Hint) :
    R.Lifts (Action.manyFrom start minimum p limit count hint)
      (Action.manyFrom start minimum q limit count hint) := by
  induction limit generalizing count hint with
  | zero => exact fun _ _ h hj => .abort _ (fun _ h => by cases h) ⟨.refl h, hj⟩
  | succ limit ih =>
    intro s t h hj
    simp only [Action.manyFrom, ordinal_eq h]
    match p s, q t, hp h hj with
    | _, _, .refused hl e _ _ => exact .refused hl e _ _
    | _, _, .success v new h' =>
      simp only [h'.ordinal]
      split
      · exact .success [v] hint h'
      · exact ((ih (count + 1) new).apply h').map _
    | _, _, .failure e h' =>
      simp only [h'.ordinal]
      split
      · exact .failure _ h'
      · exact .success [] _ h'
    | _, _, .abort f hf h' => exact .abort f hf h'

theorem many (minimum : Int) (limit : Nat) (hp : R.Lifts p q) :
    R.Lifts (Action.many minimum limit p) (Action.many minimum limit q) := by
  intro s t h hj
  simp only [Action.many, ordinal_eq h]
  exact (manyFrom _ minimum hp limit 0 none h hj).map _

theorem opt (default : Value) (hp : R.Lifts p q) :
    R.Lifts (Action.opt default p) (Action.opt default q) := by
  intro s t h hj
  unfold Action.opt
  match p s, q t, hp h hj with
  | _, _, .refused hl e _ _ => exact .refused hl e _ _
  | _, _, .success v hint h' => exact .success v hint h'
  | _, _, .failure e h' =>
    dsimp only
    split
    · exact .failure e h'
    · exact .success default _ h'
  | _, _, .abort f hf h' => exact .abort f hf h'

theorem attempt (hp : R.Lifts p q) : R.Lifts (Action.attempt p) (Action.attempt q) := by
  intro s t h hj
  have hm := R.mark h
  simp only [Action.attempt]
  match p s, q t, hp h hj with
  | _, _, .refused hl e _ _ => exact .refused hl e _ _
  | _, _, .success v hint h' => exact .success v hint h'
  | _, _, .failure e h' =>
    rcases R.restore h'.later.rel (h'.later.marks hm) with ⟨s', t', hs, ht, hback⟩ | ⟨hl, e', he⟩
    · simp only [hs, ht]
      exact .failure _ ⟨h'.later.trans hback, h'.journal⟩
    · simp only [he]
      exact .refused hl e' _ _
  | _, _, .abort f hf h' => exact .abort f hf h'

theorem afterNote (f : Journal → Journal) (hp : R.Lifts p q) :
    R.Lifts (Action.afterNote f p) (Action.afterNote f q) := by
  intro s t h hj
  unfold Action.afterNote
  exact hp.apply ⟨.refl h, congrArg f hj⟩

end Lifts

/-- Every combinator keeps the agreement of two actions. -/
theorem congruence (R : Simulation σ τ) :
    Action.Congruence (fun _ => True) (R.Lifts (α := Value)) where
  abort f hf _ _ h hj := .abort f hf ⟨.refl h, hj⟩
  token m _ := Lifts.token m
  eof _ := Lifts.eof
  sequence := Lifts.sequence
  choice := Lifts.choice
  map f _ _ _ _ := Lifts.map f
  named label _ _ _ _ := Lifts.named label
  many minimum limit _ _ := Lifts.many minimum limit
  opt default _ _ _ _ := Lifts.opt default
  attempt _ := Lifts.attempt
  afterNote f _ _ := Lifts.afterNote f

/-- A parser runs alike on related states. -/
theorem run (R : Simulation σ τ) (rules : Rules) (p : Parser) :
    R.Lifts (p.run rules) (p.run rules) := by
  intro s t h hj
  simp only [Parser.run, R.remaining h]
  have hp : p.Within rules fun _ => True := fun _ _ => trivial
  exact R.congruence.action (R.congruence.call _ _) _ p hp h hj

end Simulation

end TokenParsing
