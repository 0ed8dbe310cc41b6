import TokenParsing.Text.CharClass

/-!
# Recognisers

A recogniser splits a text into what it is looking for at the start of the text and what is left.
`Splits` says that it neither drops nor invents characters and never takes the empty text.
-/

namespace TokenParsing

/-- Splits off what a text starts with, if it starts with the right thing. -/
abbrev Recogniser := List Char → Option (List Char × List Char)

namespace Recogniser

/-- The two parts of a match make up the text, and the first is not empty. -/
def Splits (r : Recogniser) : Prop :=
  ∀ ⦃cs m⦄, r cs = some m → m.1 ++ m.2 = cs ∧ m.1 ≠ []

/-- A match with more characters in front. -/
def extend (front : List Char) (m : List Char × List Char) : List Char × List Char :=
  (front ++ m.1, m.2)

/-- A match that goes on with `r` where `r` applies. -/
def optionally (r : Recogniser) (m : List Char × List Char) : List Char × List Char :=
  ((r m.2).map (extend m.1)).getD m

def orElse (r s : Recogniser) : Recogniser := fun cs => (r cs).or (s cs)

/-- A recogniser whose text may have a `b` in front. -/
def byteMarked (r : Recogniser) : Recogniser
  | 'b' :: cs => (r cs).map (extend ['b'])
  | cs => r cs

@[simp]
theorem extend_fst (front : List Char) (m : List Char × List Char) :
    (extend front m).1 = front ++ m.1 := rfl

@[simp]
theorem extend_snd (front : List Char) (m : List Char × List Char) : (extend front m).2 = m.2 := rfl

theorem Splits.extend {r : Recogniser} (hr : Splits r) {front cs : List Char}
    {m : List Char × List Char} (h : (r cs).map (extend front) = some m) :
    m.1 ++ m.2 = front ++ cs ∧ m.1 ≠ [] := by
  obtain ⟨n, hn, rfl⟩ := Option.map_eq_some_iff.1 h
  obtain ⟨happ, hne⟩ := hr hn
  simp [← happ, hne]

theorem Splits.orElse {r s : Recogniser} (hr : Splits r) (hs : Splits s) :
    Splits (r.orElse s) := by
  intro cs m h
  rcases Option.or_eq_some_iff.1 h with h | ⟨-, h⟩
  · exact hr h
  · exact hs h

theorem Splits.byteMarked {r : Recogniser} (hr : Splits r) : Splits r.byteMarked := by
  intro cs m h
  unfold Recogniser.byteMarked at h
  split at h
  · exact hr.extend h
  · exact hr h

theorem Splits.optionally {r : Recogniser} (hr : Splits r) {m : List Char × List Char}
    (hm : m.1 ≠ []) :
    (r.optionally m).1 ++ (r.optionally m).2 = m.1 ++ m.2 ∧ (r.optionally m).1 ≠ [] := by
  unfold Recogniser.optionally
  cases h : r m.2 with
  | none => simp [hm]
  | some n =>
    obtain ⟨happ, -⟩ := hr h
    simp [happ, hm]

theorem Splits.length_lt {r : Recogniser} (hr : Splits r) {cs : List Char}
    {m : List Char × List Char} (h : r cs = some m) : m.2.length < cs.length := by
  obtain ⟨happ, hne⟩ := hr h
  have := List.length_pos_iff.2 hne
  rw [← happ, List.length_append]
  omega

end Recogniser

end TokenParsing
