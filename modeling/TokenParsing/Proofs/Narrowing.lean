import TokenParsing.Proofs.Simulation

/-!
# Windows with a smaller horizon

A window with a smaller horizon holds a part of what the one with the larger horizon remembers
(`Window.narrow`), and differs from it in nothing else. It simulates the larger one
(`Stream.narrowings`): where it goes back at all, the larger one goes back too.
-/

namespace TokenParsing

namespace Window

variable {w : Window} {s : Stream} {k n : Nat}

/-- The window as a smaller horizon leaves it. -/
def narrow (w : Window) (k : Nat) : Window := { w with horizon := k, buffer := w.buffer.take k }

theorem narrow_empty (k horizon : Nat) : (empty horizon).narrow k = empty k := by
  simp [narrow, empty]

theorem remembered?_narrow (hn : w.produced ≤ n + k) :
    (w.narrow k).remembered? n = w.remembered? n := by
  have hproduced : (w.narrow k).produced = w.produced := rfl
  rw [remembered?, remembered?, hproduced]
  split
  · exact List.getElem?_take_of_lt (by omega)
  · rfl

theorem push_narrow (hk : k ≤ w.horizon) (e : Position × Token) :
    (w.narrow k).push e = (w.push e).narrow k := by
  simp only [push, narrow, List.take_take, Nat.min_eq_left hk]
  cases k with
  | zero => rfl
  | succ k => simp [List.take_take]

theorem fill_narrow (count : Nat) (hk : k ≤ w.horizon) :
    Stream.fill count (w.narrow k) s =
      ((Stream.fill count w s).1.narrow k, (Stream.fill count w s).2) := by
  induction count generalizing w s with
  | zero => rfl
  | succ count ih =>
    unfold Stream.fill
    split
    · rw [push_narrow hk]
      exact ih hk
    · rfl

theorem fill_counts (count : Nat) (w : Window) (s : Stream) :
    (Stream.fill count w s).1.horizon = w.horizon ∧ (Stream.fill count w s).1.offset = w.offset ∧
      (Stream.fill count w s).1.produced ≤ w.produced + count := by
  induction count generalizing w s with
  | zero => exact ⟨rfl, rfl, Nat.le_refl _⟩
  | succ count ih =>
    unfold Stream.fill
    split
    · rename_i t s' _
      obtain ⟨hk, hoff, hp⟩ := ih (w.push (s.position, t)) s'
      refine ⟨hk, hoff, Nat.le_trans hp ?_⟩
      simp only [push]
      omega
    · exact ⟨rfl, rfl, Nat.le_add_right _ _⟩

theorem moveTo_narrow {w' : Window} {n : Int} (hw : (w.narrow k).moveTo n = .ok w') :
    w' = narrow { w with offset := n.toNat } k ∧
      w.moveTo n = .ok { w with offset := n.toNat } ∧ w.produced ≤ n.toNat + k := by
  simp only [moveTo, oldest, narrow, List.length_take] at hw ⊢
  split at hw
  · cases hw
    exact ⟨rfl, if_pos (by omega), by omega⟩
  · cases hw

end Window

namespace Stream

/-- A window with the smaller horizon, and one that differs from it in the horizon alone. -/
inductive Narrows (k : Nat) : Stream → Stream → Prop
  | intro {w : Window} {s : Stream} (hk : k ≤ w.horizon) (hw : w.produced ≤ w.offset + k) :
    Narrows k (.lookahead (w.narrow k) s) (.lookahead w s)

variable {w : Window} {k : Nat}

theorem position_narrow (s : Stream) (hw : w.produced ≤ w.offset + k) :
    (Stream.lookahead (w.narrow k) s).position = (Stream.lookahead w s).position := by
  have hreplay : (w.narrow k).replay? = w.replay? := Window.remembered?_narrow hw
  simp only [Stream.position, hreplay]

theorem next_narrow (s : Stream) (hk : k ≤ w.horizon)
    (hw : w.produced ≤ w.offset + k) :
    (Stream.lookahead (w.narrow k) s).next.1 = (Stream.lookahead w s).next.1 ∧
      Narrows k (Stream.lookahead (w.narrow k) s).next.2 (Stream.lookahead w s).next.2 := by
  have hreplay : (w.narrow k).replay? = w.replay? := Window.remembered?_narrow hw
  rw [Stream.next, Stream.next, hreplay]
  cases w.replay? with
  | some e => exact ⟨rfl, @Narrows.intro k w.forward s hk (by simp only [Window.forward]; omega)⟩
  | none =>
    rcases s.next with ⟨_ | t, s'⟩
    · exact ⟨rfl, .intro hk hw⟩
    · show _ ∧ Narrows k (.lookahead ((w.narrow k).push (s.position, t)).forward s')
        (.lookahead (w.push (s.position, t)).forward s')
      rw [Window.push_narrow hk]
      refine ⟨rfl, @Narrows.intro k (w.push (s.position, t)).forward s' hk ?_⟩
      simp only [Window.push, Window.forward]
      omega

theorem peekAt_narrow (s : Stream) (hpos : 0 < k) (hk : k ≤ w.horizon)
    (hw : w.produced ≤ w.offset + k) :
    ((Stream.lookahead (w.narrow k) s).peekAt 0).1 = ((Stream.lookahead w s).peekAt 0).1 ∧
      Narrows k ((Stream.lookahead (w.narrow k) s).peekAt 0).2
        ((Stream.lookahead w s).peekAt 0).2 := by
  obtain ⟨hhor, hoff, hprod⟩ := Window.fill_counts (w.offset + 0 + 1 - w.produced) w s
  have hfill := Window.fill_narrow (s := s) (w.offset + 0 + 1 - w.produced) hk
  have hle : (Stream.fill (w.offset + 0 + 1 - w.produced) w s).1.produced ≤ w.offset + 0 + k := by
    omega
  simp only [Stream.peekAt]
  rw [show (w.narrow k).offset = w.offset from rfl,
    show (w.narrow k).produced = w.produced from rfl, hfill]
  refine ⟨?_, .intro (by omega) (by omega)⟩
  rw [Window.remembered?_narrow hle]

theorem restore_narrow (s : Stream) (m : Mark) (hk : k ≤ w.horizon)
    (hw : w.produced ≤ w.offset + k) :
    (∃ s' t', Stream.restore m (.lookahead (w.narrow k) s) = .ok s' ∧
      Stream.restore m (.lookahead w s) = .ok t' ∧ Narrows k s' t') ∨
    ∃ e, Stream.restore m (.lookahead (w.narrow k) s) = .error e := by
  cases m with
  | input i => exact .inl ⟨_, _, rfl, rfl, .intro hk hw⟩
  | offset n =>
    cases hmove : (w.narrow k).moveTo n with
    | error e => exact .inr ⟨e, congrArg (Except.map (Stream.lookahead · s)) hmove⟩
    | ok w' =>
      obtain ⟨rfl, hwide, hle⟩ := Window.moveTo_narrow hmove
      exact .inl ⟨_, _, congrArg (Except.map (Stream.lookahead · s)) hmove,
        congrArg (Except.map (Stream.lookahead · s)) hwide, .intro hk hle⟩

/-- Windows with the smaller horizon, and windows with larger ones. -/
def narrowings (k : Nat) (hpos : 0 < k) : Simulation Stream Stream where
  rel := Narrows k
  marks _ _ m n := m = n
  lossy := True
  position := by
    rintro _ _ ⟨-, hw⟩
    exact position_narrow _ hw
  isEmpty := by
    rintro _ _ ⟨-, -⟩
    rfl
  remaining := by
    rintro _ _ ⟨-, -⟩
    rfl
  next := by
    rintro _ _ ⟨hk, hw⟩
    obtain ⟨htoken, hplace⟩ := next_narrow _ hk hw
    exact ⟨htoken, hplace, id⟩
  peek := by
    rintro _ _ ⟨hk, hw⟩
    obtain ⟨htoken, hplace⟩ := peekAt_narrow _ hpos hk hw
    exact ⟨htoken, hplace, id⟩
  mark := by
    rintro _ _ ⟨-, -⟩
    rfl
  restore := by
    rintro _ _ m _ ⟨hk, hw⟩ rfl
    rcases restore_narrow _ m hk hw with ⟨s', t', hs, ht, hplace⟩ | he
    · exact .inl ⟨s', t', hs, ht, hplace, id⟩
    · exact .inr ⟨trivial, he⟩

end Stream

end TokenParsing
