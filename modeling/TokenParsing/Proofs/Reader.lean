import TokenParsing.Proofs.Simulation

/-!
# Reading step by step

A reader asks a source of tokens one thing after the other and keeps every mark it sets, so that it
can go back to any of them, in any order and as often as it likes. Sources that simulate each other
give a reader the same answers (`Simulation.answers`).
-/

namespace TokenParsing

/-- One thing to ask of a source. -/
inductive Request where
  | next
  | peek
  | position
  | isEmpty
  | mark
  /-- Goes back to a mark; the marks are numbered in the order they were set. -/
  | restore (number : Nat)
  deriving DecidableEq, Repr

/-- What a source answers. -/
inductive Answer where
  | token (t : Option Token)
  | position (p : Position)
  | truth (b : Bool)
  | done
  | refused (e : BacktrackError)
  | noSuchMark
  deriving DecidableEq, Repr

/-- A source that is being read, and the marks that were set in it. -/
structure Reader (σ : Type) [TokenSource σ] where
  source : σ
  marks : List (TokenSource.Mark σ)

namespace Reader

variable {σ : Type} [TokenSource σ]

/-- A reader that has set no mark yet. -/
def on (s : σ) : Reader σ := ⟨s, []⟩

/-- The answer to one request, and the reader after it. -/
def step (r : Reader σ) : Request → Answer × Reader σ
  | .next => (.token (TokenSource.next r.source).1, { r with source := (TokenSource.next r.source).2 })
  | .peek => (.token (TokenSource.peek r.source).1, { r with source := (TokenSource.peek r.source).2 })
  | .position => (.position (TokenSource.position r.source), r)
  | .isEmpty => (.truth (TokenSource.isEmpty r.source), r)
  | .mark => (.done, { r with marks := r.marks ++ [TokenSource.mark r.source] })
  | .restore number =>
    match r.marks[number]? with
    | none => (.noSuchMark, r)
    | some m =>
      match TokenSource.restore m r.source with
      | .ok s => (.done, { r with source := s })
      | .error e => (.refused e, r)

/-- The answers to some requests, one after the other. -/
def answers (r : Reader σ) : List Request → List Answer
  | [] => []
  | q :: qs => (r.step q).1 :: (r.step q).2.answers qs

end Reader

namespace Simulation

variable {σ τ : Type} [TokenSource σ] [TokenSource τ] {R : Simulation σ τ}

/-- Readers of related sources that hold related marks. -/
structure Readers (R : Simulation σ τ) (r : Reader σ) (r' : Reader τ) : Prop where
  source : R.rel r.source r'.source
  marks : List.Forall₂ (R.marks r.source r'.source) r.marks r'.marks

variable {r : Reader σ} {r' : Reader τ}

theorem Readers.later (h : R.Readers r r') {s : σ} {t : τ}
    (hst : R.Later r.source r'.source s t) : R.Readers ⟨s, r.marks⟩ ⟨t, r'.marks⟩ :=
  ⟨hst.rel, h.marks.imp fun _ _ => hst.marks⟩

theorem Readers.step (hR : ¬R.lossy) (h : R.Readers r r') (q : Request) :
    (r.step q).1 = (r'.step q).1 ∧ R.Readers (r.step q).2 (r'.step q).2 := by
  cases q with
  | next =>
    obtain ⟨ht, hs⟩ := R.next h.source
    exact ⟨by simp only [Reader.step, ht], h.later hs⟩
  | peek =>
    obtain ⟨ht, hs⟩ := R.peek h.source
    exact ⟨by simp only [Reader.step, ht], h.later hs⟩
  | position => exact ⟨by simp only [Reader.step, R.position h.source], h⟩
  | isEmpty => exact ⟨by simp only [Reader.step, R.isEmpty h.source], h⟩
  | mark => exact ⟨rfl, h.source, List.rel_append h.marks (.cons (R.mark h.source) .nil)⟩
  | restore number =>
    simp only [Reader.step]
    match r.marks[number]?, r'.marks[number]?, rel_getElem? h.marks number with
    | _, _, .none => exact ⟨rfl, h⟩
    | _, _, .some hmn =>
      rcases R.restore h.source hmn with ⟨s, t, hs, ht, hst⟩ | ⟨hl, -⟩
      · simp only [hs, ht]
        exact ⟨trivial, h.later hst⟩
      · exact absurd hl hR

/-- Sources that simulate each other give the same answers. -/
theorem answers (hR : ¬R.lossy) (h : R.Readers r r') (qs : List Request) :
    r.answers qs = r'.answers qs := by
  induction qs generalizing r r' with
  | nil => rfl
  | cons q qs ih =>
    obtain ⟨ha, hr⟩ := h.step hR q
    simp only [Reader.answers, ha, ih hr]

end Simulation

end TokenParsing
