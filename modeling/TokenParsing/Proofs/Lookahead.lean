import TokenParsing.Proofs.Narrowing
import TokenParsing.Proofs.StreamCursor

/-!
# Parsing behind a window

A parser behind a fresh window gives what it gives on the plain input, or it is refused to go back
(`Parser.run_lookahead`). It is never refused if the horizon reaches over all tokens that are left,
and what is not refused with one horizon is not refused with a larger one.

Both are simulations. A window simulates the input at its cursor (`Stream.windows`), with marks that
are offsets on one side and inputs on the other. A window with a smaller horizon simulates the one
with the larger horizon, of whose memory it holds a part (`Stream.narrowings`).
-/

namespace TokenParsing

/-- The run was refused to go back. -/
def Result.IsRefused {α : Type} (r : Result α) : Prop := ∃ e, r = .abort (.backtrack e)

namespace Simulation

variable {σ τ : Type} [TokenSource σ] [TokenSource τ] {R : Simulation σ τ} {α : Type}
  {s : State σ} {t : State τ} {x : Result α × State σ} {y : Result α × State τ}

theorem Agrees.of_not_refused (h : R.Agrees s t x y) (hx : ¬x.1.IsRefused) :
    x.1 = y.1 ∧ R.Follow s t x.2 y.2 := by
  cases h with
  | refused _ e => exact absurd ⟨e, rfl⟩ hx
  | success _ _ h => exact ⟨rfl, h⟩
  | failure _ h => exact ⟨rfl, h⟩
  | abort _ _ h => exact ⟨rfl, h⟩

theorem Agrees.not_refused (h : R.Agrees s t x y) (hR : ¬R.lossy) : ¬x.1.IsRefused := by
  rintro ⟨e, he⟩
  cases h with
  | refused hl => exact hR hl
  | success => cases he
  | failure => cases he
  | abort f hf => cases he; exact hf e rfl

end Simulation

namespace Stream

/-- A window that was put at the cursor, and an input at the place of its next token. -/
inductive Shows (c : Cursor) (horizon : Nat) : Stream → Input → Prop
  | intro {w : Window} {s : Stream} {i : Input} (hk : w.horizon = horizon) (hw : w.Over s c)
    (hi : i.At (c.ahead w.offset)) : Shows c horizon (.lookahead w s) i

/-- An offset up to which a window has taken tokens, and an input at its place. -/
inductive Marks (c : Cursor) : Stream → Mark → Input → Prop
  | intro {w : Window} {s : Stream} {i : Input} {n : Nat} (hn : n ≤ w.produced)
    (hi : i.At (c.ahead n)) : Marks c (.lookahead w s) (.offset n) i

theorem Shows.later {c : Cursor} {horizon : Nat} {w w' : Window} {s s' : Stream} {i i' : Input}
    (hgrow : w.Grows w') (h : Shows c horizon (.lookahead w' s') i') :
    Correspondence.Later ⟨Shows c horizon, fun s _ => Marks c s⟩ (.lookahead w s) i
      (.lookahead w' s') i' where
  rel := h
  marks := by
    rintro _ _ ⟨hn, hi⟩
    exact ⟨Nat.le_trans hn hgrow.produced_le, hi⟩

/-- Windows that were put at the cursor, and inputs. -/
def windows (c : Cursor) (horizon : Nat) : Simulation Stream Input where
  rel := Shows c horizon
  marks s _ := Marks c s
  lossy := c.index + horizon < c.tokens.length
  position := by
    rintro _ _ ⟨-, hw, hi⟩
    exact hw.at_cursor.position_eq.trans hi.position_eq.symm
  isEmpty := by
    rintro _ _ ⟨-, hw, hi⟩
    exact hw.at_cursor.isEmpty_eq.trans hi.isEmpty_eq.symm
  remaining := by
    rintro _ _ ⟨-, hw, hi⟩
    exact hw.at_cursor.remaining_eq.trans hi.remaining_eq.symm
  next := by
    rintro _ i ⟨hk, hw, hi⟩
    obtain ⟨w', s', hnext, hover, hgrow, hc⟩ := hw.next
    obtain ⟨htoken, hplace⟩ := hi.next
    show (Stream.next _).1 = i.next.1 ∧ Correspondence.Later _ _ _ (Stream.next _).2 i.next.2
    rw [hnext, htoken]
    exact ⟨rfl, Shows.later hgrow ⟨hgrow.horizon_eq.trans hk, hover, hc ▸ hplace⟩⟩
  peek := by
    rintro _ i ⟨hk, hw, hi⟩
    obtain ⟨w', s', hpeek, hover, hgrow, hoff⟩ := hw.peekAt 0 hw.holds.horizon_pos
    show (Stream.peekAt 0 _).1 = i.peek ∧ Correspondence.Later _ _ _ (Stream.peekAt 0 _).2 i
    rw [hpeek, hi.peek]
    exact ⟨rfl, Shows.later hgrow ⟨hgrow.horizon_eq.trans hk, hover, hoff ▸ hi⟩⟩
  mark := by
    rintro _ _ ⟨-, hw, hi⟩
    exact ⟨hw.holds.offset_le, hi⟩
  restore := by
    rintro _ _ _ _ (@⟨w, s, i, hk, hw, hi⟩) hm
    cases hm with
    | @intro _ _ j n hn hj =>
      rcases Nat.lt_or_ge (n + w.horizon) w.produced with hlt | hge
      · obtain ⟨e, he⟩ := hw.holds.moveTo_error hlt
        have hle := hw.holds.produced_le
        exact .inr ⟨by omega, e, congrArg (Except.map (Stream.lookahead · s)) he⟩
      · obtain ⟨hmove, hholds⟩ := hw.holds.moveTo hn hge
        exact .inl ⟨_, _, congrArg (Except.map (Stream.lookahead · s)) hmove, rfl,
          Shows.later ⟨rfl, Nat.le_refl _⟩ ⟨hk, ⟨hholds, hw.source⟩, hj⟩⟩

theorem Shows.drain_eq {c : Cursor} {horizon : Nat} {s : Stream} {i : Input}
    (h : Shows c horizon s i) : (TokenSource.drain s).1 = (TokenSource.drain i).1 := by
  obtain ⟨-, hw, hi⟩ := h
  rw [hw.at_cursor.drain, hi.drain]

end Stream

/-- What a run leaves to be seen: its result and its journal, and, of the source, the place and the
tokens that are left. -/
structure Observation (α : Type) where
  result : Result α
  journal : Journal
  position : Position
  tokens : List Token

/-- What is to be seen of the end of a run. -/
def observe {σ α : Type} [TokenSource σ] (x : Result α × State σ) : Observation α :=
  ⟨x.1, x.2.journal, TokenSource.position x.2.source, (TokenSource.drain x.2.source).1⟩

variable {trees : List TokenTree} {source : Stream} {i : Input} {k : Nat}

theorem Stream.Reachable.shows (hsource : source.Reachable trees)
    (hi : (Stream.input i).Reachable trees)
    (hplace : i.position.ordinal = source.position.ordinal) (hk : 0 < k) :
    ∃ c, source.At c ∧ Shows c k (.lookahead (.empty k) source) i := by
  obtain ⟨⟨tokens, n⟩, rfl, hs⟩ := hsource.exists_at
  obtain ⟨⟨_, m⟩, rfl, hm⟩ := hi.exists_at
  cases hm with
  | input hm =>
    rw [hm.position_eq, hs.position_eq] at hplace
    obtain rfl : m = n := Int.ofNat.inj hplace
    exact ⟨_, hs, rfl, ⟨Window.holds_empty hk hs.index_le, hs⟩, hm⟩

/-- A parser behind a fresh window over a source is refused to go back, or it leaves the same to be
seen as on the plain input at the same place. It is not refused if the horizon reaches over all that
is left of the source, nor with a larger horizon than one that was enough. -/
theorem Parser.run_lookahead (hsource : source.Reachable trees)
    (hi : (Stream.input i).Reachable trees)
    (hplace : i.position.ordinal = source.position.ordinal) (hk : 0 < k) (rules : Rules)
    (p : Parser) (journal : Journal) :
    let plain := p.run rules ⟨i, journal⟩
    let behind := fun k => p.run rules ⟨Stream.lookahead (.empty k) source, journal⟩
    ((behind k).1.IsRefused ∨ observe (behind k) = observe plain) ∧
      ((TokenSource.drain source).1.length ≤ k → ¬(behind k).1.IsRefused) ∧
      ∀ k', k ≤ k' → ¬(behind k).1.IsRefused → ¬(behind k').1.IsRefused := by
  intro plain behind
  obtain ⟨c, hs, hshows⟩ := hsource.shows hi hplace hk
  have hagree : (Stream.windows c k).Agrees _ _ (behind k) plain :=
    (Stream.windows c k).run rules p hshows rfl
  refine ⟨or_iff_not_imp_left.2 fun hr => ?_, fun hle => hagree.not_refused ?_,
    fun k' hle hr => ?_⟩
  · obtain ⟨hresult, hfollow⟩ := hagree.of_not_refused hr
    simp only [observe, hresult, hfollow.journal, hfollow.later.rel.drain_eq,
      (Stream.windows c k).position hfollow.later.rel]
  · rw [hs.drain, List.length_drop] at hle
    show ¬c.index + k < c.tokens.length
    omega
  · -- the smaller window remembers a part of what the larger one does
    have hnarrow : Stream.Narrows k (.lookahead (.empty k) source)
        (.lookahead (.empty k') source) :=
      Window.narrow_empty k k' ▸ .intro hle (Nat.zero_le _)
    have hagree' : (Stream.narrowings k hk).Agrees _ _ (behind k) (behind k') :=
      (Stream.narrowings k hk).run rules p hnarrow rfl
    obtain ⟨hresult, -⟩ := hagree'.of_not_refused hr
    rwa [← hresult]

/-- In `a ( b )`, behind `a`: an attempt that fails at the last of three tokens goes back to the
first of them through a window of horizon 3 over a window of horizon 2. -/
theorem Parser.run_attempt_behind_windows :
    let start := Input.ofTrees [.ident "a" .callSite,
      .group .parenthesis [.group .invisible [.ident "b" .callSite] .callSite] .callSite]
    let source := (Stream.lookahead (.empty 2) (.input start)).next.2
    let p := Parser.attempt (.sequence [.token (.delim '('), .token .ident, .token .literal])
    let behind := p.run [] ⟨Stream.lookahead (.empty 3) source, {}⟩
    behind.1 = .failure ⟨⟨3, .callSite⟩, some (.delim ")" .callSite), ["LITERAL"], false⟩ ∧
      behind.2.source.position.ordinal = 1 ∧
      ¬behind.1.IsRefused ∧ observe behind = observe (p.run [] ⟨start.next.2, {}⟩) := by
  intro start source p behind
  have hstart : (Stream.input start).Reachable _ := .ofTrees
  have hsource : source.Reachable _ := .next (.lookahead (by decide) hstart)
  obtain ⟨hsame, hkept, -⟩ := Parser.run_lookahead hsource hstart.next (by decide +kernel)
    (show 0 < 3 by decide) [] p {}
  have hnot := hkept (by decide +kernel)
  exact ⟨by with_unfolding_all rfl, by with_unfolding_all rfl, hnot, hsame.resolve_left hnot⟩

end TokenParsing
