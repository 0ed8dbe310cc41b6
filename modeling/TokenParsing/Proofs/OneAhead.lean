import TokenParsing.Proofs.Lookahead
import TokenParsing.Proofs.Rewinding

/-!
# Without attempts one token of memory is enough

A parser without attempts goes back over one token at most, the one that a matcher has just read and
does not accept. So behind a window of any horizon it is never refused to go back, and at no moment
has the window taken more than one token that is not read yet (`Parser.run_oneAhead`).

The moments of a run are seen through a source that records them (`Recorded`). What holds at each of
them is an invariant of the source (`Action.Keeps`): it is enough that matchers and the end keep it,
since every combinator but an attempt reads through its parts alone (`Action.keeps_stableOn`).
-/

namespace TokenParsing

/-- A source together with the states it was in before, the latest first. -/
structure Recorded (σ : Type) where
  now : σ
  past : List σ

namespace Recorded

variable {σ : Type}

/-- A source nothing is recorded of yet. -/
def on (s : σ) : Recorded σ := ⟨s, []⟩

/-- All states the source was in. -/
def moments (r : Recorded σ) : List σ := r.now :: r.past

def move (r : Recorded σ) (s : σ) : Recorded σ := ⟨s, r.moments⟩

variable [TokenSource σ]

instance : TokenSource (Recorded σ) where
  Mark := TokenSource.Mark σ
  position r := TokenSource.position r.now
  isEmpty r := TokenSource.isEmpty r.now
  next r := ((TokenSource.next r.now).1, r.move (TokenSource.next r.now).2)
  peek r := ((TokenSource.peek r.now).1, r.move (TokenSource.peek r.now).2)
  mark r := TokenSource.mark r.now
  restore m r := (TokenSource.restore m r.now).map r.move
  remaining r := TokenSource.remaining r.now

/-- A recorded source is read like the source itself. -/
def transparent : Simulation (Recorded σ) σ where
  rel r s := r.now = s
  marks _ _ m n := m = n
  lossy := True
  position := by rintro r _ rfl; rfl
  isEmpty := by rintro r _ rfl; rfl
  remaining := by rintro r _ rfl; rfl
  next := by rintro r _ rfl; exact ⟨rfl, rfl, id⟩
  peek := by rintro r _ rfl; exact ⟨rfl, rfl, id⟩
  mark := by rintro r _ rfl; rfl
  restore := by
    rintro r _ (m : TokenSource.Mark σ) _ rfl rfl
    cases h : (TokenSource.restore m r.now : Except BacktrackError σ) with
    | ok s => exact .inl ⟨r.move s, s, congrArg (Except.map r.move) h, rfl, rfl, id⟩
    | error e => exact .inr ⟨trivial, e, congrArg (Except.map r.move) h⟩

end Recorded

/-- The parser itself is no attempt. -/
def Parser.NoAttempt : Parser → Prop
  | .attempt _ => False
  | _ => True

namespace Result

variable {α β : Type}

@[simp]
theorem not_isRefused_success {v : α} {hint : Hint} : ¬(success v hint).IsRefused := by
  simp [IsRefused]

@[simp]
theorem not_isRefused_failure {e : Failure} : ¬(failure e : Result α).IsRefused := by
  simp [IsRefused]

@[simp]
theorem isRefused_abort {f : Fault} :
    (abort f : Result α).IsRefused ↔ ∃ e, f = .backtrack e := by
  simp [IsRefused]

@[simp]
theorem isRefused_map {f : α → β} {r : Result α} : (r.map f).IsRefused ↔ r.IsRefused := by
  cases r <;> simp [map]

end Result

namespace Action

variable {σ α : Type} {I : σ → Prop}

/-- The action keeps the invariant of the source, and is not refused to go back while it holds. -/
def Keeps (I : σ → Prop) (a : Action σ α) : Prop :=
  ∀ s, I s.source → I (a s).2.source ∧ ¬(a s).1.IsRefused

namespace Keeps

theorem of_eq {a : Action σ α} (ha : Keeps I a) {s s' : State σ} {r : Result α} (hs : I s.source)
    (h : a s = (r, s')) : I s'.source ∧ ¬r.IsRefused := by
  simpa [h] using ha s hs

theorem abort {f : Fault} (hf : ∀ e, f ≠ .backtrack e) : Keeps I (abort f : Action σ α) :=
  fun s hs => ⟨hs, by simpa [Action.abort] using hf⟩

variable {p : Action σ Value}

theorem map (f : Value → Except ValueError Value) (hp : Keeps I p) : Keeps I (map f p) := by
  intro s hs
  unfold Action.map
  split
  · rename_i v hint s' h
    have hs' := (hp.of_eq hs h).1
    split <;> simpa using hs'
  · exact hp s hs

theorem opt (default : Value) (hp : Keeps I p) : Keeps I (opt default p) := by
  intro s hs
  unfold Action.opt
  split
  · rename_i e s' h
    have hs' := (hp.of_eq hs h).1
    split <;> simpa using hs'
  · exact hp s hs

variable [TokenSource σ] {ps : List (Action σ Value)}

theorem sequenceFrom (hps : ∀ p ∈ ps, Keeps I p) (start : Int) (hint : Hint) :
    Keeps I (sequenceFrom start ps hint) := by
  induction ps generalizing hint with
  | nil => exact fun s hs => ⟨hs, Result.not_isRefused_success⟩
  | cons p ps ih =>
    obtain ⟨hp, hps⟩ := List.forall_mem_cons.1 hps
    intro s hs
    simp only [Action.sequenceFrom]
    split
    · rename_i v new s' h
      simpa using ih hps _ s' (hp.of_eq hs h).1
    · rename_i e s' h
      simpa using hp.of_eq hs h
    · rename_i f s' h
      simpa using hp.of_eq hs h

theorem sequence (hps : ∀ p ∈ ps, Keeps I p) : Keeps I (sequence ps) := fun s hs => by
  simpa [Action.sequence] using sequenceFrom hps s.ordinal none s hs

theorem choiceFrom {p : Action σ Value} {ps : List (Action σ Value)} (hp : Keeps I p)
    (hps : ∀ q ∈ ps, Keeps I q) (start : Int) (missed : Hint) :
    Keeps I (choiceFrom start p ps missed) := by
  intro s hs
  unfold Action.choiceFrom
  split
  · rename_i v hint s' h
    simpa using hp.of_eq hs h
  · rename_i e s' h
    have hs' := (hp.of_eq hs h).1
    split
    · simpa using hs'
    · cases ps with
      | nil => simpa using hs'
      | cons q qs =>
        obtain ⟨hq, hqs⟩ := List.forall_mem_cons.1 hps
        exact choiceFrom hq hqs start _ s' hs'
  · rename_i f s' h
    simpa using hp.of_eq hs h

theorem choice (hp : Keeps I p) (hps : ∀ q ∈ ps, Keeps I q) : Keeps I (choice p ps) :=
  fun s => choiceFrom hp hps s.ordinal none s

theorem named (label : String) (hp : Keeps I p) : Keeps I (named label p) := by
  intro s hs
  simp only [Action.named]
  split
  · rename_i v hint s' h
    simpa using hp.of_eq hs h
  · rename_i e s' h
    have hs' := (hp.of_eq hs h).1
    split <;> simpa using hs'
  · exact hp s hs

theorem manyFrom (start minimum : Int) (hp : Keeps I p) (limit count : Nat) (hint : Hint) :
    Keeps I (manyFrom start minimum p limit count hint) := by
  induction limit generalizing count hint with
  | zero => exact .abort fun e he => by cases he
  | succ limit ih =>
    intro s hs
    simp only [Action.manyFrom]
    split
    · rename_i v new s' h
      have hs' := (hp.of_eq hs h).1
      split
      · simpa using hs'
      · simpa using ih (count + 1) new s' hs'
    · rename_i e s' h
      have hs' := (hp.of_eq hs h).1
      split <;> simpa using hs'
    · rename_i f s' h
      simpa using hp.of_eq hs h

theorem many (minimum : Int) (limit : Nat) (hp : Keeps I p) : Keeps I (many minimum limit p) :=
  fun s hs => by simpa [Action.many] using manyFrom s.ordinal minimum hp limit 0 none s hs

end Keeps

variable [TokenSource σ]

/-- Every combinator but an attempt keeps an invariant that matchers and the end keep. -/
theorem keeps_stableOn (htoken : ∀ m, Keeps I (token m)) (heof : Keeps I eof) :
    StableOn Parser.NoAttempt (Keeps I) where
  abort _ hf := .abort hf
  token m _ := htoken m
  eof _ := heof
  sequence := .sequence
  choice := .choice
  map f _ _ _ := .map f
  named label _ _ _ := .named label
  many minimum limit _ := .many minimum limit
  opt default _ _ _ := .opt default
  attempt hr _ := hr.elim
  afterNote f _ hp s := hp { s with journal := f s.journal }

end Action

namespace Stream

/-- The stream is a window of the horizon over the source. It shows a tape of which at most one pulled
token is not read yet. -/
inductive OneAhead (source : Stream) (horizon : Nat) (c : Cursor) : Stream → Prop
  | intro {t : Tape} {w : Window} {s : Stream} (hshows : t.Shows c w s)
    (hsource : t.source = source) (hk : t.horizon = horizon) (hle : t.pulled ≤ t.index + 1) :
    OneAhead source horizon c (.lookahead w s)

namespace OneAhead

variable {source s : Stream} {k : Nat} {c : Cursor}

theorem start (hsource : source.At c) (hk : 0 < k) :
    OneAhead source k c (.lookahead (.empty k) source) :=
  .intro (Tape.shows_on hsource hk) rfl rfl (Nat.zero_le _)

theorem exists_tape (h : OneAhead source k c s) :
    ∃ t : Tape, t.source = source ∧ t.horizon = k ∧ t.pulled ≤ t.tokens.length ∧
      t.index ≤ t.pulled ∧ t.pulled ≤ t.index + 1 ∧ s = .lookahead t.window t.rest := by
  cases h with
  | intro hshows hsource hk hle =>
    obtain ⟨rfl, rfl⟩ := hshows.eq_window
    exact ⟨_, hsource, hk, hshows.pulled_le, hshows.index_le, hle, rfl⟩

/-- Behind the next token the tape has pulled no more than that one, and it still goes back to where
it stood before. -/
theorem next (h : OneAhead source k c s) (hk : 0 < k) :
    OneAhead source k c s.next.2 ∧
      ∃ back, Stream.restore s.mark s.next.2 = .ok back ∧ OneAhead source k c back := by
  cases h with
  | @intro t w r hshows hsource hhor hle =>
    have hindex := hshows.index_le
    have hpulled := hshows.pulled_le
    obtain ⟨w', r', hnext, hshows'⟩ := hshows.next
    have hpull : (t.step .next).2.pulled = max t.pulled (min (t.index + 1) t.tokens.length) := rfl
    have hmove : (t.step .next).2.index = min (t.index + 1) t.tokens.length := rfl
    have hhor' : (t.step .next).2.horizon = t.horizon := rfl
    have hin : (t.step .next).2.oldest ≤ (t.index : Int) ∧
        (t.index : Int) ≤ (t.step .next).2.pulled := by
      simp only [Tape.oldest, hpull, hhor', hhor]
      omega
    obtain ⟨hback, hshowsBack⟩ := hshows'.restore_of_mem hin
    rw [hnext]
    refine ⟨.intro hshows' hsource hhor (by omega), .lookahead { w' with offset := t.index } r', ?_,
      .intro hshowsBack hsource hhor ?_⟩
    · simp only [Stream.mark, Stream.restore, hshows.index_eq, hback, Except.map,
        Int.toNat_natCast]
    · show (t.step .next).2.pulled ≤ t.index + 1
      omega

theorem peek (h : OneAhead source k c s) (hk : 0 < k) :
    OneAhead source k c (s.peekAt 0).2 := by
  cases h with
  | @intro t w r hshows hsource hhor hle =>
    have hindex := hshows.index_le
    obtain ⟨w', r', hpeek, hshows'⟩ := hshows.peek (show 0 < t.horizon by omega)
    rw [hpeek]
    refine .intro hshows' hsource hhor ?_
    show max t.pulled (min (t.index + 0 + 1) t.tokens.length) ≤ t.index + 1
    omega

end OneAhead

end Stream

/-- The invariant holds at all moments recorded. -/
def Recorded.Always {σ : Type} (I : σ → Prop) (r : Recorded σ) : Prop := ∀ s ∈ r.moments, I s

namespace Recorded.Always

variable {σ : Type} {I : σ → Prop} {r : Recorded σ}

theorem now (h : r.Always I) : I r.now := h r.now (List.mem_cons_self ..)

theorem move (h : r.Always I) {s : σ} (hs : I s) : (r.move s).Always I :=
  List.forall_mem_cons.2 ⟨hs, h⟩

end Recorded.Always

namespace Action

variable {source : Stream} {k : Nat} {c : Cursor}

theorem keeps_token_oneAhead (hk : 0 < k) (m : Matcher) :
    Keeps (Recorded.Always (Stream.OneAhead source k c)) (token m) := by
  intro s hs
  obtain ⟨hnext, back, hback, hplace⟩ := hs.now.next hk
  have hafter : (TokenSource.next s.source).2.Always (Stream.OneAhead source k c) := hs.move hnext
  have hrestore : TokenSource.restore (TokenSource.mark s.source) (TokenSource.next s.source).2 =
      .ok ((TokenSource.next s.source).2.move back) :=
    congrArg (Except.map (TokenSource.next s.source).2.move) hback
  simp only [token]
  split
  · exact ⟨hafter, Result.not_isRefused_success⟩
  · rw [hrestore]
    exact ⟨hafter.move hplace, Result.not_isRefused_failure⟩

theorem keeps_eof_oneAhead (hk : 0 < k) :
    Keeps (Recorded.Always (Stream.OneAhead source k c)) eof := by
  intro s hs
  unfold eof
  split
  · exact ⟨hs, Result.not_isRefused_success⟩
  · exact ⟨hs.move (hs.now.peek hk), Result.not_isRefused_failure⟩

end Action

/-- A parser without attempts, behind a fresh window of any horizon over a source, is never refused to
go back. At every moment of the run the window is that of a tape of the source: it has pulled the
tokens that are read and at most one more. -/
theorem Parser.run_oneAhead {trees : List TokenTree} {source : Stream}
    (hsource : source.Reachable trees) {k : Nat} (hk : 0 < k) {rules : Rules} {p : Parser}
    (hp : p.Within rules Parser.NoAttempt) (journal : Journal) :
    let start := Stream.lookahead (.empty k) source
    let run := p.run rules ⟨start, journal⟩
    let recorded := p.run rules ⟨Recorded.on start, journal⟩
    ¬run.1.IsRefused ∧ recorded.1 = run.1 ∧ recorded.2.journal = run.2.journal ∧
      recorded.2.source.now = run.2.source ∧
      ∀ s ∈ recorded.2.source.moments, ∃ t : Tape, t.source = source ∧ t.horizon = k ∧
        t.pulled ≤ t.tokens.length ∧ t.index ≤ t.pulled ∧ t.pulled ≤ t.index + 1 ∧
        s = .lookahead t.window t.rest := by
  intro start run recorded
  obtain ⟨c, -, hplace⟩ := hsource.exists_at
  have hkeeps : Action.Keeps (Recorded.Always (Stream.OneAhead source k c)) (p.run rules) :=
    fun s => (Action.keeps_stableOn (Action.keeps_token_oneAhead hk)
      (Action.keeps_eof_oneAhead hk)).action _ _ p hp s
  have hstart : (Recorded.on start).Always (Stream.OneAhead source k c) := by
    simpa [Recorded.Always, Recorded.moments, Recorded.on] using .start hplace hk
  obtain ⟨hmoments, hnot⟩ := hkeeps ⟨Recorded.on start, journal⟩ hstart
  have hagree : Recorded.transparent.Agrees _ _ recorded run :=
    Recorded.transparent.run rules p rfl rfl
  obtain ⟨hresult, hfollow⟩ := hagree.of_not_refused hnot
  exact ⟨hresult ▸ hnot, hresult, hfollow.journal, hfollow.later.rel,
    fun s hs => (hmoments s hs).exists_tape⟩

/-- In `a ( b 1 ) ;`, behind `a`: rules for nested parentheses through a window of horizon 1 over one of
horizon 2. The run fails at `1`, when the window has been in 13 states. -/
theorem Parser.run_oneAhead_nested :
    let source := (Stream.lookahead (.empty 2) (.input (.ofTrees [.ident "a" .callSite,
      .group .parenthesis [.ident "b" .callSite, .literal "1" .callSite] .callSite,
      .punct ';' .alone .callSite]))).next.2
    let inner : Parser := .sequence [.token (.delim '('), .many 0 (.rule "item"), .token (.delim ')')]
    let rules : Rules := [("item", .ok (.choice (.token .ident) [inner]))]
    let p : Parser := .sequence [.opt .null (.token (.punct ',')), .many 1 (.rule "item"), .eof]
    let start := Stream.lookahead (.empty 1) source
    let recorded := p.run rules ⟨Recorded.on start, {}⟩
    (p.run rules ⟨start, {}⟩).1.ctorIdx = 1 ∧ recorded.2.source.moments.length = 13 ∧
      ∀ s ∈ recorded.2.source.moments, ∃ t : Tape, t.source = source ∧ t.horizon = 1 ∧
        t.pulled ≤ t.tokens.length ∧ t.index ≤ t.pulled ∧ t.pulled ≤ t.index + 1 ∧
        s = .lookahead t.window t.rest := by
  intro source inner rules p start recorded
  have hsource : source.Reachable _ := .next (.lookahead (by decide) .ofTrees)
  have hp : p.Within rules Parser.NoAttempt := by
    refine Parser.Within.of_children (L := fun q => q ∈ [p, .opt .null (.token (.punct ',')),
      .token (.punct ','), .many 1 (.rule "item"), .rule "item", .choice (.token .ident) [inner],
      .token .ident, inner, .token (.delim '('), .many 0 (.rule "item"), .token (.delim ')'),
      .eof]) ?_ ?_ (List.mem_cons_self ..)
    · simp [p, inner, Parser.NoAttempt]
    · simp [p, inner, rules, Parser.children]
  obtain ⟨-, -, -, -, hmoments⟩ := run_oneAhead hsource (show 0 < 1 by decide) hp {}
  exact ⟨by decide +kernel, by decide +kernel, hmoments⟩

end TokenParsing
