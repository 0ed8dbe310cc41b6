import TokenParsing.Proofs.Window

/-!
# A stream is a cursor

A stream stands at a cursor (`Stream.At`) if it is an input that does, or a window that holds tokens
over a source that stands where the window took its last token. Each operation then answers as the
cursor does. A window is also followed by itself (`Window.Over`), since going back depends on the
place where it was put, which the cursor does not tell.

Every stream that reading can lead to (`Stream.Reachable`) stands at a cursor into the flat view of
its trees (`Stream.Reachable.exists_at`), however many windows lie over each other.
-/

namespace TokenParsing

namespace Stream

/-- The stream stands at the cursor. A window does if its source stands where the window has taken
its last token. -/
inductive At : Stream → Cursor → Prop
  | input {i : Input} {c : Cursor} (h : i.At c) : At (.input i) c
  | lookahead {w : Window} {s : Stream} {c : Cursor} (hw : w.Holds c)
    (hs : At s (c.ahead w.produced)) : At (.lookahead w s) (c.ahead w.offset)

namespace At

variable {s : Stream} {c : Cursor}

theorem index_le (h : s.At c) : c.index ≤ c.tokens.length := by
  cases h with
  | input h => exact h.index_le
  | lookahead hw hs => exact Nat.le_trans (Nat.add_le_add_left hw.offset_le _) hw.produced_le

theorem position_eq (h : s.At c) : s.position = c.position := by
  induction h with
  | input h => exact h.position_eq
  | @lookahead w s c hw hs ih =>
    have hle := hw.produced_le
    rcases Nat.lt_or_ge w.offset w.produced with hlt | hge
    · have hget : c.tokens[c.index + w.offset]? = some c.tokens[c.index + w.offset] :=
        List.getElem?_eq_getElem (by omega)
      simp only [Stream.position, hw.replay?_of_lt hlt, hget, Option.map_some, Option.getD_some]
    · have heq : w.offset = w.produced := Nat.le_antisymm hw.offset_le hge
      simp only [Stream.position, Window.Holds.replay?_of_le hge, Option.map_none,
        Option.getD_none, ih, heq]

theorem isEmpty_eq (h : s.At c) : s.isEmpty = (c.index == c.tokens.length) := by
  induction h with
  | input h => exact h.isEmpty_eq
  | @lookahead w s c hw hs ih =>
    have hle := hw.produced_le
    have hoff := hw.offset_le
    rw [Bool.eq_iff_iff]
    simp only [Stream.isEmpty, ih, Cursor.ahead, Bool.and_eq_true, decide_eq_true_eq, beq_iff_eq]
    omega

theorem remaining_eq (h : s.At c) : s.remaining = c.tokens.length - c.index := by
  induction h with
  | input h => exact h.remaining_eq
  | @lookahead w s c hw hs ih =>
    have hle := hw.produced_le
    have hoff := hw.offset_le
    simp only [Stream.remaining, ih, Cursor.ahead]
    omega

end At

end Stream

/-- The window holds tokens over the source from the cursor on. -/
structure Window.Over (w : Window) (s : Stream) (c : Cursor) : Prop where
  holds : w.Holds c
  source : s.At (c.ahead w.produced)

/-- A window of the same horizon that has taken at least as many tokens. -/
structure Window.Grows (w w' : Window) : Prop where
  horizon_eq : w'.horizon = w.horizon
  produced_le : w.produced ≤ w'.produced

namespace Window.Over

variable {w : Window} {s : Stream} {c : Cursor}

theorem at_cursor (h : w.Over s c) : (Stream.lookahead w s).At (c.ahead w.offset) :=
  .lookahead h.holds h.source

theorem push (h : w.Over s c) (hs : s.next.1 = (c.ahead w.produced).next.1)
    (hs' : s.next.2.At (c.ahead w.produced).next.2)
    (hlen : c.index + w.produced < c.tokens.length) (hk : w.produced < w.offset + w.horizon) :
    s.next = (some c.tokens[c.index + w.produced], s.next.2) ∧
      (w.push (s.position, c.tokens[c.index + w.produced])).Over s.next.2 c := by
  simp only [Cursor.ahead, Cursor.next_of_lt hlen] at hs hs'
  refine ⟨Prod.ext hs rfl, ?_, hs'⟩
  rw [h.source.position_eq]
  exact h.holds.push (List.getElem?_eq_getElem hlen) hk

theorem at_end (h : w.Over s c) (hs : s.next.1 = (c.ahead w.produced).next.1)
    (hs' : s.next.2.At (c.ahead w.produced).next.2)
    (hlen : c.tokens.length ≤ c.index + w.produced) :
    s.next = (none, s.next.2) ∧ w.Over s.next.2 c := by
  simp only [Cursor.ahead, Cursor.next_of_le hlen] at hs hs'
  exact ⟨Prod.ext hs rfl, h.holds, hs'⟩

theorem next_of_source (h : w.Over s c) (hs : s.next.1 = (c.ahead w.produced).next.1)
    (hs' : s.next.2.At (c.ahead w.produced).next.2) :
    ∃ w' s', (Stream.lookahead w s).next = ((c.ahead w.offset).next.1, .lookahead w' s') ∧
      w'.Over s' c ∧ w.Grows w' ∧ c.ahead w'.offset = (c.ahead w.offset).next.2 := by
  have hle := h.holds.produced_le
  -- the token is remembered, or it is taken from the source, or the source is at its end
  rcases Nat.lt_or_ge w.offset w.produced with hlt | hge
  · have hlen : c.index + w.offset < c.tokens.length := by omega
    refine ⟨w.forward, s, ?_, ⟨h.holds.forward hlt, h.source⟩, ⟨rfl, Nat.le_refl _⟩, ?_⟩
    · simp only [Stream.next, h.holds.replay?_of_lt hlt, List.getElem?_eq_getElem hlen,
        Option.map_some, Cursor.ahead, Cursor.next_of_lt hlen]
    · simp only [Cursor.ahead, Cursor.next_of_lt hlen, Window.forward, Nat.add_assoc]
  · have heq : w.offset = w.produced := Nat.le_antisymm h.holds.offset_le hge
    have hreplay : w.replay? = none := Window.Holds.replay?_of_le hge
    rcases Nat.lt_or_ge (c.index + w.produced) c.tokens.length with hlen | hlen
    · have hpos := h.holds.horizon_pos
      obtain ⟨hnext, hpush⟩ := h.push hs hs' hlen (by omega)
      refine ⟨_, s.next.2, ?_, ⟨hpush.holds.forward ?_, hpush.source⟩, ⟨rfl, Nat.le_succ _⟩, ?_⟩
      · rw [Stream.next, hreplay, hnext]
        simp only [heq, Cursor.ahead, Cursor.next_of_lt hlen]
      · exact Nat.lt_succ_of_le h.holds.offset_le
      · simp only [Cursor.ahead, heq, Cursor.next_of_lt hlen, Window.forward, Window.push,
          Nat.add_assoc]
    · obtain ⟨hnext, hover⟩ := h.at_end hs hs' hlen
      refine ⟨w, s.next.2, ?_, hover, ⟨rfl, Nat.le_refl _⟩, ?_⟩
      · rw [Stream.next, hreplay, hnext]
        simp only [heq, Cursor.ahead, Cursor.next_of_le hlen]
      · simp only [heq, Cursor.ahead, Cursor.next_of_le hlen]

end Window.Over

/-- The next token is the cursor's, and so is the place behind it. -/
theorem Stream.At.next {s : Stream} {c : Cursor} (h : s.At c) :
    s.next.1 = c.next.1 ∧ s.next.2.At c.next.2 := by
  induction h with
  | input h => exact ⟨h.next.1, .input h.next.2⟩
  | lookahead hw hs ih =>
    obtain ⟨w', s', hnext, hover, -, hc⟩ := Window.Over.next_of_source ⟨hw, hs⟩ ih.1 ih.2
    rw [hnext, ← hc]
    exact ⟨rfl, hover.at_cursor⟩

theorem Stream.At.next_of_le {s : Stream} {c : Cursor} (h : s.At c)
    (hend : c.tokens.length ≤ c.index) : s.next = (none, s) := by
  induction h with
  | input h => simp only [Stream.next, Input.At.next_of_le h hend]
  | @lookahead w s c hw hs ih =>
    have hlen : c.tokens.length ≤ c.index + w.offset := hend
    have hle := hw.produced_le
    have hoff := hw.offset_le
    have hnext : s.next = (none, s) := ih (by simp only [Cursor.ahead]; omega)
    rw [Stream.next, Window.Holds.replay?_of_le (by omega), hnext]

theorem Stream.At.drain {s : Stream} {c : Cursor} (h : s.At c) :
    (TokenSource.drain s).1 = c.tokens.drop c.index :=
  Cursor.drain_eq Stream.At.next h h.remaining_eq

theorem Stream.At.take_succ {s : Stream} {c : Cursor} (h : s.At c) (n : Nat) :
    (TokenSource.take (n + 1) s).2 = (Stream.next (TokenSource.take n s).2).2 := by
  induction n generalizing s c with
  | zero =>
    rcases hs : TokenSource.next s with ⟨_ | t, s'⟩
    all_goals
      simp only [TokenSource.take, hs]
      exact (congrArg Prod.snd hs).symm
  | succ n ih =>
    obtain ⟨tokens, i⟩ := c
    obtain ⟨htoken, hplace⟩ := h.next
    rcases Nat.lt_or_ge i tokens.length with hi | hi
    · rw [Cursor.next_of_lt hi] at htoken hplace
      have hs : TokenSource.next s = (some tokens[i], s.next.2) := Prod.ext htoken rfl
      rw [TokenSource.take, hs, TokenSource.take, hs]
      exact ih hplace
    · have hs : TokenSource.next s = (none, s) := h.next_of_le hi
      rw [TokenSource.take, hs, TokenSource.take, hs]
      exact (congrArg Prod.snd hs).symm

namespace Window.Over

variable {w : Window} {s : Stream} {c : Cursor}

theorem next (h : w.Over s c) :
    ∃ w' s', (Stream.lookahead w s).next = ((c.ahead w.offset).next.1, .lookahead w' s') ∧
      w'.Over s' c ∧ w.Grows w' ∧ c.ahead w'.offset = (c.ahead w.offset).next.2 :=
  h.next_of_source h.source.next.1 h.source.next.2

/-- A window takes as many tokens as it is asked for, or all there are. -/
theorem fill (count : Nat) (h : w.Over s c) (hk : w.produced + count ≤ w.offset + w.horizon) :
    ∃ w' s', Stream.fill count w s = (w', s') ∧ w'.Over s' c ∧ w.Grows w' ∧
      w'.offset = w.offset ∧
      w'.produced = min (w.produced + count) (c.tokens.length - c.index) := by
  induction count generalizing w s with
  | zero =>
    have := h.holds.produced_le
    exact ⟨w, s, rfl, h, ⟨rfl, Nat.le_refl _⟩, rfl, by omega⟩
  | succ count ih =>
    obtain ⟨hs, hs'⟩ := h.source.next
    rcases Nat.lt_or_ge (c.index + w.produced) c.tokens.length with hlen | hlen
    · obtain ⟨hnext, hpush⟩ := h.push hs hs' hlen (by omega)
      obtain ⟨w', s', hfill, hover, hgrow, hoff, hprod⟩ :=
        ih hpush (by simp only [Window.push]; omega)
      refine ⟨w', s', ?_, hover, ⟨hgrow.horizon_eq, Nat.le_of_succ_le hgrow.produced_le⟩, hoff, ?_⟩
      · rw [Stream.fill, hnext]
        exact hfill
      · rw [hprod]
        simp only [Window.push]
        omega
    · obtain ⟨hnext, hover⟩ := h.at_end hs hs' hlen
      have := h.holds.produced_le
      refine ⟨w, s.next.2, ?_, hover, ⟨rfl, Nat.le_refl _⟩, rfl, by omega⟩
      rw [Stream.fill, hnext]

theorem peekAt_fst (h : w.Over s c) (distance : Nat) (hd : distance < w.horizon) :
    ((Stream.lookahead w s).peekAt distance).1 =
      c.tokens[c.index + (w.offset + distance)]? := by
  have hwithin := h.holds.within
  obtain ⟨w', s', hfill, hover, hgrow, hoff, hprod⟩ :=
    h.fill (w.offset + distance + 1 - w.produced) (by omega)
  simp only [Stream.peekAt, hfill]
  have hle := h.holds.produced_le
  rcases Nat.lt_or_ge (c.index + (w.offset + distance)) c.tokens.length with hlen | hlen
  · have hlt : w.offset + distance < w'.produced := by omega
    have hk := hover.holds.within
    rw [hover.holds.remembered? hlt (by omega), List.getElem?_eq_getElem hlen]
    rfl
  · rw [Window.remembered?, if_neg (by omega), List.getElem?_eq_none hlen]
    rfl

theorem peekAt (h : w.Over s c) (distance : Nat) (hd : distance < w.horizon) :
    ∃ w' s', (Stream.lookahead w s).peekAt distance =
        (c.tokens[c.index + (w.offset + distance)]?, .lookahead w' s') ∧
      w'.Over s' c ∧ w.Grows w' ∧ w'.offset = w.offset := by
  have hwithin := h.holds.within
  obtain ⟨w', s', hfill, hover, hgrow, hoff, -⟩ :=
    h.fill (w.offset + distance + 1 - w.produced) (by omega)
  refine ⟨w', s', Prod.ext (h.peekAt_fst distance hd) ?_, hover, hgrow, hoff⟩
  simp only [Stream.peekAt, hfill]

end Window.Over

namespace Stream

/-- The streams that reading some trees can lead to. A stream that lies under a window is read
through the window alone. -/
inductive Reachable (trees : List TokenTree) : Stream → Prop
  | ofTrees : Reachable trees (.input (.ofTrees trees))
  | lookahead {s : Stream} {horizon : Nat} (hpos : 0 < horizon) (h : Reachable trees s) :
    Reachable trees (.lookahead (.empty horizon) s)
  | next {s : Stream} (h : Reachable trees s) : Reachable trees s.next.2
  | peek {s s' : Stream} {distance : Int} {t : Option Token} (h : Reachable trees s)
    (hs : s.peek distance = .ok (t, s')) : Reachable trees s'
  | restore {s s' marked : Stream} (h : Reachable trees s) (hm : Reachable trees marked)
    (hs : s.restore marked.mark = .ok s') : Reachable trees s'

namespace At

variable {s s' : Stream} {c : Cursor}

theorem peek {distance : Int} {t : Option Token} (h : s.At c)
    (hs : s.peek distance = .ok (t, s')) : s'.At c := by
  cases h with
  | input h =>
    cases hs
    exact .input h
  | lookahead hw hs' =>
    rw [Stream.peek] at hs
    split at hs
    · obtain ⟨w', s'', hpeek, hover, -, hoff⟩ :=
        Window.Over.peekAt ⟨hw, hs'⟩ distance.toNat (by omega)
      rw [hpeek] at hs
      cases hs
      rw [← hoff]
      exact hover.at_cursor
    · cases hs

theorem of_mark_eq {i : Input} (h : s.At c) (hi : s.mark = .input i) : i.At c := by
  cases h with
  | input h => cases hi; exact h
  | lookahead => cases hi

theorem restore {m : Mark} (h : s.At c)
    (hm : ∀ i, m = .input i → ∃ c', c'.tokens = c.tokens ∧ i.At c') (hs : s.restore m = .ok s') :
    ∃ c', c'.tokens = c.tokens ∧ s'.At c' := by
  cases h with
  | input h =>
    cases m with
    | input i =>
      cases hs
      obtain ⟨c', hc, hi⟩ := hm i rfl
      exact ⟨c', hc, .input hi⟩
    | offset n => cases hs; exact ⟨c, rfl, .input h⟩
  | @lookahead w s c hw hsource =>
    cases m with
    | input i => cases hs; exact ⟨c.ahead w.offset, rfl, .lookahead hw hsource⟩
    | offset n =>
      rw [Stream.restore] at hs
      cases hmove : w.moveTo n with
      | error e => rw [hmove] at hs; cases hs
      | ok w' =>
        rw [hmove] at hs
        cases hs
        obtain ⟨rfl, hw'⟩ := hw.of_moveTo hmove
        exact ⟨c.ahead n.toNat, rfl, .lookahead hw' hsource⟩

end At

/-- A stream stands at a cursor into the flat view of the trees it was opened on. -/
theorem Reachable.exists_at {trees : List TokenTree} {s : Stream} (h : s.Reachable trees) :
    ∃ c : Cursor, c.tokens = TokenStream.flatten trees ∧ s.At c := by
  induction h with
  | ofTrees => exact ⟨_, rfl, .input (Input.at_ofTrees trees)⟩
  | lookahead hpos _ ih =>
    obtain ⟨c, hc, h⟩ := ih
    exact ⟨_, hc, .lookahead (Window.holds_empty hpos h.index_le) h⟩
  | next _ ih =>
    obtain ⟨c, hc, h⟩ := ih
    exact ⟨_, (Cursor.next_snd_tokens c).trans hc, h.next.2⟩
  | peek _ hs ih =>
    obtain ⟨c, hc, h⟩ := ih
    exact ⟨c, hc, h.peek hs⟩
  | restore _ _ hs ih ihm =>
    obtain ⟨c, hc, h⟩ := ih
    obtain ⟨c₁, hc₁, hm⟩ := ihm
    obtain ⟨c', hc', h'⟩ :=
      h.restore (fun i hi => ⟨c₁, hc₁.trans hc.symm, hm.of_mark_eq hi⟩) hs
    exact ⟨c', hc'.trans hc, h'⟩

/-- What holds of an input on some trees, and goes on to hold when a token is read, holds of all inputs
that reading the trees can lead to: going back leads to inputs that were there before. -/
theorem Reachable.input_rec {trees : List TokenTree} {P : Input → Prop} (ofTrees : P (.ofTrees trees))
    (next : ∀ {i : Input}, P i → P i.next.2) {i : Input} (h : Reachable trees (.input i)) : P i := by
  generalize hs : Stream.input i = s at h
  induction h generalizing i with
  | ofTrees => cases hs; exact ofTrees
  | lookahead => cases hs
  | @next s h ih =>
    cases s with
    | input j => cases hs; exact next (ih rfl)
    | lookahead w s =>
      rw [Stream.next] at hs
      repeat' split at hs
      all_goals cases hs
  | @peek s s' distance t h hpeek ih =>
    subst hs
    cases s with
    | input j => cases hpeek; exact ih rfl
    | lookahead w s =>
      rw [Stream.peek] at hpeek
      split at hpeek <;> cases hpeek
  | @restore s s' marked h hm hrestore ih ihm =>
    subst hs
    cases s with
    | input j =>
      cases marked with
      -- the mark of an input is an input that the reading led to before
      | input m => cases hrestore; exact ihm rfl
      | lookahead => cases hrestore; exact ih rfl
    | lookahead w s =>
      cases marked with
      | input m => cases hrestore
      | lookahead v u =>
        rw [Stream.mark, Stream.restore] at hrestore
        cases hmove : w.moveTo v.offset with
        | error e => rw [hmove] at hrestore; cases hrestore
        | ok w' => rw [hmove] at hrestore; cases hrestore

theorem Reachable.input_at {trees : List TokenTree} {i : Input}
    (h : Reachable trees (.input i)) : ∃ n, i.At ⟨TokenStream.flatten trees, n⟩ := by
  obtain ⟨⟨_, n⟩, rfl, hs⟩ := h.exists_at
  cases hs with
  | input hi => exact ⟨n, hi⟩

theorem Reachable.take {trees : List TokenTree} {i : Input} (h : Reachable trees (.input i))
    (count : Nat) : Reachable trees (.input (TokenSource.take count i).2) := by
  induction count generalizing i with
  | zero => exact h
  | succ count ih =>
    have hnext : Reachable trees (.input i.next.2) := h.next
    match hi : i.next with
    | (some t, i') =>
      rw [hi] at hnext
      rw [TokenSource.take, show TokenSource.next i = (some t, i') from hi]
      exact ih hnext
    | (none, i') =>
      rw [hi] at hnext
      rw [TokenSource.take, show TokenSource.next i = (none, i') from hi]
      exact hnext

theorem exists_input_at (trees : List TokenTree) {n : Nat}
    (hn : n ≤ (TokenStream.flatten trees).length) :
    ∃ i : Input, Reachable trees (.input i) ∧ i.At ⟨TokenStream.flatten trees, n⟩ := by
  induction n with
  | zero => exact ⟨_, .ofTrees, Input.at_ofTrees trees⟩
  | succ n ih =>
    obtain ⟨i, hi, hplace⟩ := ih (Nat.le_of_succ_le hn)
    exact ⟨_, hi.next, (hplace.next_of_lt hn).2⟩

end Stream

end TokenParsing
