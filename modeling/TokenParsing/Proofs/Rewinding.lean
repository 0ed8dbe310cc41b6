import TokenParsing.Proofs.StreamCursor

/-!
# How far a window goes back

A window over a source is a tape (`Tape`): a cursor into the tokens that were left of the source, and
the number of tokens pulled from it. The tape goes to any place from `horizon` tokens before the
last pull up to that pull, and to no other. It knows neither memory nor positions, and asks the
source as it was for both.

Whatever is asked of a window, one thing after the other, it answers as the tape does, the source
under it has given the pulled tokens once each and no more, and the memory is only looked up where
it holds something (`Stream.answers_lookahead`). One request keeps window and tape together
(`Tape.Shows.step`), and so does a list of them (`Tape.Shows.run`).
-/

namespace TokenParsing

namespace Window

/-- One thing to ask of a window. -/
inductive Request where
  | next
  | peek (distance : Int)
  | position
  | isEmpty
  | mark
  /-- Goes to an offset, whether a mark was set there or not. -/
  | restore (offset : Int)
  deriving DecidableEq, Repr

inductive Answer where
  | token (t : Option Token)
  | position (p : Position)
  | truth (b : Bool)
  | marked (m : Stream.Mark)
  | done
  | tooFar (e : PeekError)
  | refused (e : BacktrackError)

/-- The answers of a machine to some requests, and the machine after them. -/
def Request.run {σ : Type} (step : σ → Request → Answer × σ) : σ → List Request → List Answer × σ
  | s, [] => ([], s)
  | s, q :: qs => ((step s q).1 :: (run step (step s q).2 qs).1, (run step (step s q).2 qs).2)

/-- The place of an offset in the memory, the oldest token being at 0. -/
def place (w : Window) (n : Nat) : Int := w.buffer.length - ((w.produced : Int) - n)

/-- What a request looks up in the memory: the window as it is then, and the offset. -/
def lookup? (w : Window) (s : Stream) : Request → Option (Window × Nat)
  | .next | .position => if w.offset < w.produced then some (w, w.offset) else none
  | .peek distance =>
    if 0 ≤ distance ∧ distance < w.horizon then
      let target := w.offset + distance.toNat
      let filled := (Stream.fill (target + 1 - w.produced) w s).1
      if target < filled.produced then some (filled, target) else none
    else none
  | .isEmpty | .mark | .restore _ => none

/-- The offset stands at a place of the memory, and the window reads the entry at this place. -/
structure Keeps (w : Window) (n : Nat) : Prop where
  nonneg : 0 ≤ w.place n
  lt_length : w.place n < w.buffer.length
  eq_getElem? : w.remembered? n = w.buffer.reverse[(w.place n).toNat]?

end Window

/-- The answer of a stream to a request, and the stream after it. -/
def Stream.answer (s : Stream) : Window.Request → Window.Answer × Stream
  | .next => (.token s.next.1, s.next.2)
  | .peek distance =>
    match s.peek distance with
    | .ok (t, s') => (.token t, s')
    | .error e => (.tooFar e, s)
  | .position => (.position s.position, s)
  | .isEmpty => (.truth s.isEmpty, s)
  | .mark => (.marked s.mark, s)
  | .restore offset =>
    match s.restore (.offset offset) with
    | .ok s' => (.done, s')
    | .error e => (.refused e, s)

/-- A cursor into the tokens that are left of a source, with a bounded way back. -/
structure Tape where
  /-- The source as it is before anything is pulled from it. -/
  source : Stream
  horizon : Nat
  index : Nat
  pulled : Nat

namespace Tape

def tokens (t : Tape) : List Token := (TokenSource.drain t.source).1

/-- The source after so many tokens. -/
def sourceAt (t : Tape) (n : Nat) : Stream := (TokenSource.take n t.source).2

/-- Goes to a place, where all tokens up to `needed` have to be pulled if there are as many. -/
def pull (t : Tape) (needed : Nat) : Tape :=
  { t with pulled := max t.pulled (min needed t.tokens.length) }

/-- The first place that the tape still goes back to. -/
def oldest (t : Tape) : Int := max 0 ((t.pulled : Int) - t.horizon)

/-- The answer to a request, and the tape after it. -/
def step (t : Tape) : Window.Request → Window.Answer × Tape
  | .next =>
    (.token t.tokens[t.index]?,
      { t.pull (t.index + 1) with index := min (t.index + 1) t.tokens.length })
  | .peek distance =>
    if 0 ≤ distance ∧ distance < t.horizon then
      (.token t.tokens[t.index + distance.toNat]?, t.pull (t.index + distance.toNat + 1))
    else (.tooFar ⟨t.horizon, distance⟩, t)
  | .position => (.position (t.sourceAt t.index).position, t)
  | .isEmpty => (.truth (t.index == t.tokens.length), t)
  | .mark => (.marked (.offset t.index), t)
  | .restore offset =>
    if t.oldest ≤ offset ∧ offset ≤ t.pulled then (.done, { t with index := offset.toNat })
    else (.refused ⟨offset, t.oldest, t.horizon⟩, t)

/-- The tokens of the tape, each with the position of the source in front of it. -/
def entries (t : Tape) : List (Position × Token) :=
  t.tokens.mapIdx fun n token => ((t.sourceAt n).position, token)

/-- The window that a tape stands for: its memory holds the last of the pulled tokens. -/
def window (t : Tape) : Window :=
  ⟨t.horizon, (t.entries.take t.pulled).reverse.take t.horizon, t.index, t.pulled⟩

/-- The source under the window of a tape. -/
def rest (t : Tape) : Stream := t.sourceAt t.pulled

/-- The window stands over the source where the tape stands, and has pulled as much. -/
structure Shows (t : Tape) (c : Cursor) (w : Window) (s : Stream) : Prop where
  covers : w.Over s c
  source_at : t.source.At c
  source_eq : s = t.sourceAt w.produced
  horizon_eq : w.horizon = t.horizon
  index_eq : w.offset = t.index
  pulled_eq : w.produced = t.pulled

theorem sourceAt_succ {t : Tape} {c : Cursor} (h : t.source.At c) (n : Nat) :
    t.sourceAt (n + 1) = (t.sourceAt n).next.2 :=
  h.take_succ n

theorem at_sourceAt {t : Tape} {c : Cursor} (h : t.source.At c) {n : Nat}
    (hn : c.index + n ≤ c.tokens.length) : (t.sourceAt n).At (c.ahead n) := by
  induction n with
  | zero => exact h
  | succ n ih =>
    have hplace := (ih (by omega)).next.2
    have hlt : c.index + n < c.tokens.length := by omega
    rw [sourceAt_succ h]
    simpa only [Cursor.ahead, Cursor.next_of_lt hlt, Nat.add_assoc] using hplace

namespace Shows

variable {t : Tape} {c : Cursor} {w : Window} {s : Stream}

theorem getElem?_tokens (h : t.Shows c w s) (n : Nat) :
    t.tokens[n]? = c.tokens[c.index + n]? := by
  rw [tokens, h.source_at.drain, List.getElem?_drop]

theorem length_tokens (h : t.Shows c w s) : t.tokens.length = c.tokens.length - c.index := by
  rw [tokens, h.source_at.drain, List.length_drop]

theorem pulled_le (h : t.Shows c w s) : t.pulled ≤ t.tokens.length := by
  have hle := h.covers.holds.produced_le
  have hp := h.pulled_eq
  rw [h.length_tokens]
  omega

theorem index_le (h : t.Shows c w s) : t.index ≤ t.pulled := by
  rw [← h.index_eq, ← h.pulled_eq]
  exact h.covers.holds.offset_le

theorem entries_eq (h : t.Shows c w s) : t.entries = c.entries := by
  refine List.ext_getElem? fun n => ?_
  rw [entries, List.getElem?_mapIdx, Cursor.getElem?_entries, h.getElem?_tokens]
  rcases Nat.lt_or_ge (c.index + n) c.tokens.length with hlt | hge
  · rw [(at_sourceAt h.source_at (Nat.le_of_lt hlt)).position_eq]
  · rw [List.getElem?_eq_none hge]
    rfl

theorem eq_window (h : t.Shows c w s) : w = t.window ∧ s = t.rest := by
  have hbuffer := h.covers.holds.buffer_eq
  have hhor := h.horizon_eq
  have hioff := h.index_eq
  have hprod := h.pulled_eq
  refine ⟨?_, h.source_eq.trans (by rw [hprod]; rfl)⟩
  obtain ⟨horizon, buffer, offset, produced⟩ := w
  simp only at hbuffer hhor hioff hprod
  subst hhor hioff hprod
  rw [window, h.entries_eq, ← hbuffer]

/-- A window that takes tokens from its source leaves the source behind them. -/
theorem fill_source (count : Nat) (h : w.Over s c) (hsource : t.source.At c)
    (hs : s = t.sourceAt w.produced) (hk : w.produced + count ≤ w.offset + w.horizon) :
    (Stream.fill count w s).2 = t.sourceAt (Stream.fill count w s).1.produced := by
  induction count generalizing w s with
  | zero => exact hs
  | succ count ih =>
    obtain ⟨htoken, hplace⟩ := h.source.next
    rcases Nat.lt_or_ge (c.index + w.produced) c.tokens.length with hlen | hlen
    · obtain ⟨hnext, hpush⟩ := h.push htoken hplace hlen (by omega)
      have hbehind : s.next.2 = t.sourceAt (w.produced + 1) := by
        rw [sourceAt_succ hsource, ← hs]
      rw [Stream.fill, hnext]
      exact ih hpush hbehind (by simp only [Window.push]; omega)
    · have hnext : s.next = (none, s) := h.source.next_of_le hlen
      rw [Stream.fill, hnext]
      exact hs

theorem fill (h : t.Shows c w s) (count : Nat)
    (hk : w.produced + count ≤ w.offset + w.horizon) :
    (t.pull (t.pulled + count)).Shows c (Stream.fill count w s).1 (Stream.fill count w s).2 := by
  have hsource := fill_source count h.covers h.source_at h.source_eq hk
  have hle := h.pulled_le
  have hlen := h.length_tokens
  obtain ⟨w', s', hfill, hover, hgrow, hoff, hprod⟩ := h.covers.fill count hk
  rw [hfill] at hsource ⊢
  refine ⟨hover, h.source_at, hsource, hgrow.horizon_eq.trans h.horizon_eq, hoff.trans h.index_eq, ?_⟩
  show w'.produced = max t.pulled (min (t.pulled + count) t.tokens.length)
  rw [hprod, h.pulled_eq, ← hlen]
  omega

theorem next (h : t.Shows c w s) :
    ∃ w' s', (Stream.lookahead w s).next = (t.tokens[t.index]?, .lookahead w' s') ∧
      (t.step .next).2.Shows c w' s' := by
  have hpulled := h.pulled_le
  have hindex := h.index_le
  have hlen := h.length_tokens
  have hioff := h.index_eq
  have hprod := h.pulled_eq
  rw [h.getElem?_tokens]
  -- the token is replayed from the memory, or pulled from the source, or there is none
  rcases Nat.lt_or_ge w.offset w.produced with hlt | hge
  · refine ⟨w.forward, s, ?_, ⟨h.covers.holds.forward hlt, h.covers.source⟩, h.source_at, h.source_eq,
      h.horizon_eq, ?_, ?_⟩
    · have hget : c.index + w.offset < c.tokens.length := by omega
      simp only [Stream.next, h.covers.holds.replay?_of_lt hlt, ← hioff,
        List.getElem?_eq_getElem hget, Option.map_some]
    · show w.offset + 1 = min (t.index + 1) t.tokens.length
      omega
    · show w.produced = max t.pulled (min (t.index + 1) t.tokens.length)
      omega
  · have heq : w.offset = w.produced := Nat.le_antisymm h.covers.holds.offset_le hge
    have hreplay : w.replay? = none := Window.Holds.replay?_of_le hge
    rcases Nat.lt_or_ge (c.index + w.produced) c.tokens.length with hlt | hend
    · obtain ⟨htoken, hplace⟩ := h.covers.source.next
      have hpos := h.covers.holds.horizon_pos
      obtain ⟨hnext, hpush⟩ := h.covers.push htoken hplace hlt (by omega)
      refine ⟨_, s.next.2, ?_, ⟨hpush.holds.forward ?_, hpush.source⟩, h.source_at, ?_,
        h.horizon_eq, ?_, ?_⟩
      · rw [Stream.next, hreplay, hnext]
        simp only [← hioff, heq, List.getElem?_eq_getElem hlt]
      · exact Nat.lt_succ_of_le h.covers.holds.offset_le
      · show s.next.2 = t.sourceAt (w.produced + 1)
        rw [sourceAt_succ h.source_at, ← h.source_eq]
      · show w.offset + 1 = min (t.index + 1) t.tokens.length
        omega
      · show w.produced + 1 = max t.pulled (min (t.index + 1) t.tokens.length)
        omega
    · have hnext : s.next = (none, s) := h.covers.source.next_of_le hend
      refine ⟨w, s, ?_, h.covers, h.source_at, h.source_eq, h.horizon_eq, ?_, ?_⟩
      · rw [Stream.next, hreplay, hnext, List.getElem?_eq_none (by omega)]
      · show w.offset = min (t.index + 1) t.tokens.length
        omega
      · show w.produced = max t.pulled (min (t.index + 1) t.tokens.length)
        omega

theorem peek (h : t.Shows c w s) {distance : Nat} (hd : distance < t.horizon) :
    ∃ w' s', (Stream.lookahead w s).peekAt distance =
        (t.tokens[t.index + distance]?, .lookahead w' s') ∧
      (t.pull (t.index + distance + 1)).Shows c w' s' := by
  have hwithin := h.covers.holds.within
  have hkeep := h.index_le
  have hlen := h.pulled_le
  have hhor := h.horizon_eq
  have hioff := h.index_eq
  have hprod := h.pulled_eq
  have hfill := h.fill (w.offset + distance + 1 - w.produced) (by omega)
  refine ⟨_, _, Prod.ext ?_ rfl, ?_⟩
  · rw [h.covers.peekAt_fst distance (by omega), h.getElem?_tokens, hioff]
  · have hpull : t.pull (t.pulled + (w.offset + distance + 1 - w.produced)) =
        t.pull (t.index + distance + 1) := by
      simp only [pull, mk.injEq, true_and]
      omega
    rwa [← hpull]

theorem position (h : t.Shows c w s) :
    (Stream.lookahead w s).position = (t.sourceAt t.index).position := by
  have hle := h.covers.holds.produced_le
  have hoff := h.covers.holds.offset_le
  have hplace : (t.sourceAt w.offset).At (c.ahead w.offset) :=
    at_sourceAt h.source_at (by omega)
  rw [h.covers.at_cursor.position_eq, ← h.index_eq, hplace.position_eq]

theorem isEmpty (h : t.Shows c w s) :
    (Stream.lookahead w s).isEmpty = (t.index == t.tokens.length) := by
  have hle := h.covers.holds.produced_le
  have hoff := h.covers.holds.offset_le
  rw [h.covers.at_cursor.isEmpty_eq, h.length_tokens, ← h.index_eq, Bool.eq_iff_iff, beq_iff_eq,
    beq_iff_eq]
  simp only [Cursor.ahead]
  omega

theorem oldest_eq (h : t.Shows c w s) : (w.oldest : Int) = t.oldest := by
  rw [h.covers.holds.oldest_eq, h.pulled_eq, h.horizon_eq, oldest]
  omega

theorem restore_of_mem (h : t.Shows c w s) {offset : Int}
    (hin : t.oldest ≤ offset ∧ offset ≤ t.pulled) :
    w.moveTo offset = .ok { w with offset := offset.toNat } ∧
      Shows { t with index := offset.toNat } c { w with offset := offset.toNat } s := by
  have hold := h.oldest_eq
  have hprod := h.pulled_eq
  rw [h.covers.holds.oldest_eq] at hold
  obtain ⟨hmove, hholds⟩ := h.covers.holds.moveTo (n := offset.toNat) (by omega) (by omega)
  rw [Int.toNat_of_nonneg (by omega)] at hmove
  exact ⟨hmove, ⟨hholds, h.covers.source⟩, h.source_at, h.source_eq, h.horizon_eq, rfl, h.pulled_eq⟩

theorem restore_of_not_mem (h : t.Shows c w s) {offset : Int}
    (hin : ¬(t.oldest ≤ offset ∧ offset ≤ t.pulled)) :
    w.moveTo offset = .error ⟨offset, t.oldest, t.horizon⟩ := by
  rw [Window.moveTo, h.oldest_eq, h.pulled_eq, h.horizon_eq, if_neg hin]

/-- A window answers a request as the tape does, and goes on showing it. -/
theorem step (h : t.Shows c w s) (q : Window.Request) :
    ∃ w' s', (Stream.lookahead w s).answer q = ((t.step q).1, .lookahead w' s') ∧
      (t.step q).2.Shows c w' s' := by
  cases q with
  | next =>
    obtain ⟨w', s', hnext, hshows⟩ := h.next
    exact ⟨w', s', by simp only [Stream.answer, hnext]; rfl, hshows⟩
  | peek distance =>
    have hhor := h.horizon_eq
    by_cases hd : 0 ≤ distance ∧ distance < t.horizon
    · have hd' : distance.toNat < t.horizon := by omega
      obtain ⟨w', s', hpeek, hshows⟩ := h.peek hd'
      refine ⟨w', s', ?_, by simpa only [Tape.step, if_pos hd] using hshows⟩
      simp only [Stream.answer, Stream.peek, Tape.step, hhor, if_pos hd, hpeek]
    · refine ⟨w, s, ?_, by simpa only [Tape.step, if_neg hd] using h⟩
      simp only [Stream.answer, Stream.peek, Tape.step, hhor, if_neg hd]
  | position => exact ⟨w, s, by rw [Stream.answer, h.position]; rfl, h⟩
  | isEmpty => exact ⟨w, s, by rw [Stream.answer, h.isEmpty]; rfl, h⟩
  | mark => exact ⟨w, s, by rw [Stream.answer, Stream.mark, h.index_eq]; rfl, h⟩
  | restore offset =>
    by_cases hin : t.oldest ≤ offset ∧ offset ≤ t.pulled
    · obtain ⟨hmove, hshows⟩ := h.restore_of_mem hin
      refine ⟨_, s, ?_, by simpa only [Tape.step, if_pos hin] using hshows⟩
      simp only [Stream.answer, Stream.restore, hmove, Tape.step, if_pos hin, Except.map]
    · refine ⟨w, s, ?_, by simpa only [Tape.step, if_neg hin] using h⟩
      simp only [Stream.answer, Stream.restore, h.restore_of_not_mem hin, Tape.step, if_neg hin,
        Except.map]

theorem run (h : t.Shows c w s) (requests : List Window.Request) :
    ∃ w' s', Window.Request.run Stream.answer (.lookahead w s) requests =
        ((Window.Request.run Tape.step t requests).1, .lookahead w' s') ∧
      (Window.Request.run Tape.step t requests).2.Shows c w' s' := by
  induction requests generalizing t w s with
  | nil => exact ⟨w, s, rfl, h⟩
  | cons q qs ih =>
    obtain ⟨w', s', hanswer, hshows⟩ := h.step q
    obtain ⟨w'', s'', hrun, hlast⟩ := ih hshows
    refine ⟨w'', s'', ?_, hlast⟩
    simp only [Window.Request.run, hanswer, hrun]

end Shows

/-- A tape that nothing is read from yet. -/
def on (source : Stream) (horizon : Nat) : Tape := ⟨source, horizon, 0, 0⟩

theorem shows_on {source : Stream} {c : Cursor} (h : source.At c) {k : Nat} (hk : 0 < k) :
    (on source k).Shows c (.empty k) source :=
  ⟨⟨Window.holds_empty hk h.index_le, h⟩, h, rfl, rfl, rfl, rfl⟩

end Tape

namespace Window

variable {w : Window} {s : Stream} {c : Cursor} {n : Nat}

theorem Holds.keeps (h : w.Holds c) (hn : n < w.produced) (hk : w.produced ≤ n + w.horizon) :
    w.Keeps n := by
  have hlen := h.length_buffer
  have hplace : w.place n = ((min w.horizon w.produced - (w.produced - n) : Nat) : Int) := by
    rw [place, hlen]
    omega
  refine ⟨by omega, by omega, ?_⟩
  rw [hplace, Int.toNat_natCast, List.getElem?_reverse (by omega), Window.remembered?, if_pos hn,
    hlen]
  congr 1
  omega

theorem Over.keeps_lookup (h : w.Over s c) {q : Request} {w' : Window}
    (hq : w.lookup? s q = some (w', n)) : w'.Keeps n := by
  have hreplay (hlt : w.offset < w.produced) : w.Keeps w.offset :=
    h.holds.keeps hlt h.holds.within
  cases q with
  | next | position =>
    simp only [lookup?, Option.ite_none_right_eq_some, Option.some.injEq, Prod.mk.injEq] at hq
    obtain ⟨hlt, rfl, rfl⟩ := hq
    exact hreplay hlt
  | peek distance =>
    simp only [lookup?, Option.ite_none_right_eq_some, Option.some.injEq, Prod.mk.injEq] at hq
    obtain ⟨hd, hlt, rfl, rfl⟩ := hq
    have hwithin := h.holds.within
    obtain ⟨w', s', hfill, hover, hgrow, hoff, -⟩ :=
      h.fill (w.offset + distance.toNat + 1 - w.produced) (by omega)
    rw [hfill] at hlt ⊢
    have hwithin' := hover.holds.within
    exact hover.holds.keeps hlt (by omega)
  | isEmpty | mark | restore => cases hq

end Window

/-- Whatever is asked of a window over a source, it answers as a tape does, where `index` is the next
of the tokens that were left of the source and `pulled` the largest number of them that was needed
so far. It is then the window of the tape, over the source behind the pulled tokens, and every look
into the memory finds something. -/
theorem Stream.answers_lookahead {trees : List TokenTree} {source : Stream}
    (hsource : source.Reachable trees) {k : Nat} (hk : 0 < k) (requests : List Window.Request) :
    let answers := (Window.Request.run Tape.step (.on source k) requests).1
    let tape := (Window.Request.run Tape.step (.on source k) requests).2
    Window.Request.run Stream.answer (.lookahead (.empty k) source) requests =
        (answers, .lookahead tape.window tape.rest) ∧
      tape.pulled ≤ tape.tokens.length ∧
      ∀ q w n, tape.window.lookup? tape.rest q = some (w, n) → w.Keeps n := by
  obtain ⟨c, -, hplace⟩ := hsource.exists_at
  obtain ⟨w, s, hrun, hshows⟩ := (Tape.shows_on hplace hk).run requests
  obtain ⟨rfl, rfl⟩ := hshows.eq_window
  exact ⟨hrun, hshows.pulled_le, fun q w n hq => hshows.covers.keeps_lookup hq⟩

/-- In `a ( b )`, behind `a`: a window of horizon 2 over a window of horizon 1. Once it has read up to
the end, it does not go back to the first of the three tokens, and goes back to the second. -/
theorem Stream.answers_lookahead_nested :
    let source := (Stream.lookahead (.empty 1) (.input (.ofTrees [.ident "a" .callSite,
      .group .parenthesis [.group .invisible [.ident "b" .callSite] .callSite] .callSite]))).next.2
    let requests := [.peek 1, .next, .next, .next, .next, .peek 2, .restore 0, .restore (-1),
      .restore 1, .position, .next]
    let tape := (Window.Request.run Tape.step (.on source 2) requests).2
    tape.index = 2 ∧ tape.pulled = 3 ∧
      (Window.Request.run Stream.answer (.lookahead (.empty 2) source) requests).2 =
        .lookahead tape.window tape.rest := by
  intro source requests tape
  have hsource : source.Reachable _ := .next (.lookahead (by decide) .ofTrees)
  have hrun := Stream.answers_lookahead hsource (show 0 < 2 by decide) requests
  exact ⟨by decide +kernel, by decide +kernel, congrArg Prod.snd hrun.1⟩

end TokenParsing
