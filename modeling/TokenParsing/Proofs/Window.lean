import TokenParsing.Proofs.Cursor

/-!
# What a window remembers

A window that was put over a source at some place of a list of tokens remembers the last tokens it
took from the source, as many as its horizon allows, and its next token is never further back
(`Window.Holds`). Taking a token, reading one and going back keep this.
-/

namespace TokenParsing

/-- The tokens from a place on, each with the position in front of it. -/
def Cursor.entries (c : Cursor) : List (Position × Token) :=
  (c.tokens.mapIdx fun n t => (position ⟨c.tokens, n⟩, t)).drop c.index

/-- The window was put over a source that stood at the cursor, and has taken tokens since. -/
structure Window.Holds (w : Window) (c : Cursor) : Prop where
  buffer_eq : w.buffer = (c.entries.take w.produced).reverse.take w.horizon
  produced_le : c.index + w.produced ≤ c.tokens.length
  offset_le : w.offset ≤ w.produced
  within : w.produced ≤ w.offset + w.horizon
  horizon_pos : 0 < w.horizon

namespace Cursor

/-- The cursor so many tokens further on. -/
def ahead (c : Cursor) (n : Nat) : Cursor := ⟨c.tokens, c.index + n⟩

variable {c : Cursor} {n : Nat}

theorem length_entries : c.entries.length = c.tokens.length - c.index := by
  simp [entries]

theorem getElem?_entries :
    c.entries[n]? = (c.tokens[c.index + n]?).map ((c.ahead n).position, ·) := by
  simp [entries, ahead, List.getElem?_mapIdx]

end Cursor

namespace Window

variable {w : Window} {c : Cursor} {n : Nat}

theorem holds_empty {horizon : Nat} (hpos : 0 < horizon) (hc : c.index ≤ c.tokens.length) :
    (empty horizon).Holds c :=
  ⟨by simp [empty], hc, Nat.le_refl _, Nat.zero_le _, hpos⟩

namespace Holds

theorem length_buffer (h : w.Holds c) : w.buffer.length = min w.horizon w.produced := by
  have := h.produced_le
  rw [h.buffer_eq, List.length_take, List.length_reverse, List.length_take, Cursor.length_entries]
  omega

theorem oldest_eq (h : w.Holds c) : w.oldest = w.produced - w.horizon := by
  rw [oldest, h.length_buffer]
  omega

theorem remembered? (h : w.Holds c) (hn : n < w.produced) (hk : w.produced ≤ n + w.horizon) :
    w.remembered? n = (c.tokens[c.index + n]?).map ((c.ahead n).position, ·) := by
  have hlen : (c.entries.take w.produced).length = w.produced := by
    have := h.produced_le
    rw [List.length_take, Cursor.length_entries]
    omega
  rw [Window.remembered?, if_pos hn, h.buffer_eq, List.getElem?_take_of_lt (by omega),
    List.getElem?_reverse (by omega), hlen, List.getElem?_take_of_lt (by omega),
    show w.produced - 1 - (w.produced - 1 - n) = n by omega, Cursor.getElem?_entries]

theorem replay?_of_lt (h : w.Holds c) (hlt : w.offset < w.produced) :
    w.replay? = (c.tokens[c.index + w.offset]?).map ((c.ahead w.offset).position, ·) :=
  h.remembered? hlt h.within

theorem replay?_of_le (hle : w.produced ≤ w.offset) : w.replay? = none := by
  rw [replay?, Window.remembered?, if_neg (Nat.not_lt.2 hle)]

theorem push (h : w.Holds c) {t : Token} (ht : c.tokens[c.index + w.produced]? = some t)
    (hk : w.produced < w.offset + w.horizon) :
    (w.push ((c.ahead w.produced).position, t)).Holds c := by
  have hlt := (List.getElem?_eq_some_iff.1 ht).1
  refine ⟨?_, hlt, Nat.le_succ_of_le h.offset_le, hk, h.horizon_pos⟩
  show ((_ :: w.buffer).take w.horizon) = (c.entries.take (w.produced + 1)).reverse.take w.horizon
  rw [List.take_add_one, Cursor.getElem?_entries, ht, h.buffer_eq]
  obtain ⟨k, hk⟩ := Nat.exists_eq_succ_of_ne_zero (Nat.ne_of_gt h.horizon_pos)
  simp [hk, List.take_take]

theorem forward (h : w.Holds c) (hlt : w.offset < w.produced) : w.forward.Holds c where
  buffer_eq := h.buffer_eq
  produced_le := h.produced_le
  offset_le := hlt
  within := Nat.le_trans h.within (by simp only [Window.forward]; omega)
  horizon_pos := h.horizon_pos

/-- A window goes to any place whose token it remembers, and to the end of what it has taken. -/
theorem moveTo (h : w.Holds c) (hn : n ≤ w.produced) (hk : w.produced ≤ n + w.horizon) :
    w.moveTo n = .ok { w with offset := n } ∧ Holds { w with offset := n } c := by
  refine ⟨?_, h.buffer_eq, h.produced_le, hn, hk, h.horizon_pos⟩
  rw [Window.moveTo, h.oldest_eq, if_pos (by omega), Int.toNat_natCast]

theorem moveTo_error (h : w.Holds c) (hn : n + w.horizon < w.produced) :
    ∃ e, w.moveTo n = .error e := by
  rw [Window.moveTo, h.oldest_eq, if_neg (by omega)]
  exact ⟨_, rfl⟩

theorem of_moveTo (h : w.Holds c) {w' : Window} {n : Int} (hw : w.moveTo n = .ok w') :
    w' = { w with offset := n.toNat } ∧ w'.Holds c := by
  rw [Window.moveTo, h.oldest_eq] at hw
  split at hw
  · cases hw
    exact ⟨rfl, (h.moveTo (by omega) (by omega)).2⟩
  · cases hw

end Holds

end Window

end TokenParsing
