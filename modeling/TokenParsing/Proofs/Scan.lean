import Mathlib.Data.List.Induction
import TokenParsing.Lexer
import TokenParsing.Proofs.Gap

/-!
# Scanned texts

A text that is scanned to its end is made up of gaps and the texts of the lexemes (`Scan.spells`),
and each lexeme stands at its place in the whole text (`Scan.standsIn`). Lines and columns are
counted here from the start of the text (`lineAt`, `colAt`), where the scan steps from place to
place.
-/

namespace TokenParsing

/-- The line of an offset: one more than there are line ends in front of it. -/
def lineAt (text : List Char) (n : Nat) : Nat := (text.take n).count '\n' + 1

/-- The column of an offset: one more than there are characters between it and the last line end in
front of it. -/
def colAt (text : List Char) (n : Nat) : Nat :=
  ((text.take n).reverse.takeWhile (· != '\n')).length + 1

/-- The characters of a text from one offset to another. -/
def slice (text : List Char) (first last : Nat) : List Char := (text.drop first).take (last - first)

/-- The span from one offset of a text to another. -/
def Span.between (file : String) (text : List Char) (first last : Nat) : Span :=
  ⟨file, lineAt text first, colAt text first, lineAt text last, colAt text last,
    String.ofList (slice text first last)⟩

/-- From an offset on, a text is made up of gaps and the given words, each at its offset. -/
inductive Spells : Nat → List Char → List (List Char) → List Nat → Prop
  | nil {n : Nat} {g : List Char} (hg : Gap g []) : Spells n g [] []
  | cons {n : Nat} {g word rest : List Char} {words : List (List Char)} {offsets : List Nat}
    (hg : Gap g (word ++ rest)) (hword : word ≠ [])
    (h : Spells (n + g.length + word.length) rest words offsets) :
    Spells n (g ++ (word ++ rest)) (word :: words) ((n + g.length) :: offsets)

namespace Spells

variable {n : Nat} {cs : List Char} {words : List (List Char)} {offsets : List Nat}

theorem le (h : Spells n cs words offsets) : ∀ o ∈ offsets, n ≤ o := by
  induction h with
  | nil => simp
  | cons _ _ _ ih =>
    intro o ho
    rcases List.mem_cons.1 ho with rfl | ho
    · omega
    · have := ih o ho
      omega

theorem pairwise (h : Spells n cs words offsets) : offsets.Pairwise (· < ·) := by
  induction h with
  | nil => exact .nil
  | cons _ hword h ih =>
    refine .cons (fun o ho => ?_) ih
    have := h.le o ho
    have := List.length_pos_iff.2 hword
    omega

end Spells

namespace Place

variable {text : List Char} {a b : Nat}

/-- The place of an offset in a text. -/
def ofOffset (text : List Char) (n : Nat) : Place := ⟨n, lineAt text n, colAt text n⟩

theorem advance_append (p : Place) (cs ds : List Char) :
    p.advance (cs ++ ds) = (p.advance cs).advance ds := List.foldl_append

theorem offset_advance (p : Place) (cs : List Char) :
    (p.advance cs).offset = p.offset + cs.length := by
  induction cs generalizing p with
  | nil => rfl
  | cons c cs ih =>
    have hstep : (p.step c).offset = p.offset + 1 := by
      unfold step
      split <;> rfl
    have hcons : p.advance (c :: cs) = (p.step c).advance cs := rfl
    rw [hcons, ih, hstep, List.length_cons]
    omega

theorem start_advance (cs : List Char) : start.advance cs = ofOffset cs cs.length := by
  induction cs using List.reverseRecOn with
  | nil => rfl
  | append_singleton cs c ih =>
    have htake : (cs ++ [c]).take (cs.length + 1) = cs ++ [c] := List.take_of_length_le (by simp)
    rw [advance_append, ih]
    show step _ c = _
    by_cases hc : c = '\n'
    · subst hc
      simp [step, ofOffset, lineAt, colAt, htake]
    · simp [step, ofOffset, lineAt, colAt, htake, hc]

theorem start_advance_take (h : a ≤ text.length) :
    start.advance (text.take a) = ofOffset text a := by
  rw [start_advance, List.length_take, Nat.min_eq_left h]
  simp only [ofOffset, lineAt, colAt, List.take_take, Nat.min_self]

theorem span_ofOffset (file : String) (hab : a ≤ b) (hb : b ≤ text.length) :
    (ofOffset text a).span file (slice text a b) = .between file text a b := by
  have hadvance : (ofOffset text a).advance (slice text a b) = ofOffset text b := by
    rw [← start_advance_take (Nat.le_trans hab hb), ← advance_append, slice, ← List.take_add,
      Nat.add_sub_cancel' hab, start_advance_take hb]
  rw [Place.span, hadvance]
  rfl

end Place

/-! ### Lexemes at their places -/

/-- The text of a lexeme that is a single sign is that sign. -/
def Lexeme.Kind.Fits (text : List Char) : Lexeme.Kind → Prop
  | .punct c => text = [c]
  | .opener d => ∃ opener closer, d.marks? = some (opener, closer) ∧ text = [opener]
  | .closer d => ∃ opener closer, d.marks? = some (opener, closer) ∧ text = [closer]
  | _ => True

/-- The lexeme stands at its place in a text. -/
structure Lexeme.StandsIn (l : Lexeme) (text : List Char) : Prop where
  place_eq : l.place = .ofOffset text l.place.offset
  offset_le : l.place.offset ≤ text.length
  source_eq : l.source = text.drop l.place.offset
  text_prefix : l.text <+: l.source
  fits : l.kind.Fits l.text

namespace Lexeme

variable {c : Char} {cs text rest : List Char} {kind : Kind} {d : Delimiter}

theorem single?_fits (h : single? c = some kind) : kind.Fits [c] := by
  unfold single? at h
  split at h
  · rename_i d _ hd
    cases h
    unfold Delimiter.ofOpener? at hd
    split at hd <;> cases hd <;> exact ⟨_, _, rfl, rfl⟩
  · rename_i d _ hd
    cases h
    unfold Delimiter.ofCloser? at hd
    split at hd <;> cases hd <;> exact ⟨_, _, rfl, rfl⟩
  · split at h
    · cases h
      rfl
    · cases h

theorem next?_fits (h : next? cs = some (kind, text, rest)) : kind.Fits text := by
  unfold next? at h
  split at h
  · cases h
    trivial
  · cases h
    trivial
  · cases h
  · obtain ⟨k, hk, hkind⟩ := Option.map_eq_some_iff.1 h
    cases hkind
    exact single?_fits hk

theorem standsIn_append (front : List Char) {source : List Char} (htext : text <+: source)
    (hfits : kind.Fits text) :
    StandsIn ⟨kind, text, source, Place.start.advance front⟩ (front ++ source) := by
  have hoffset : (Place.start.advance front).offset = front.length := by
    rw [Place.start_advance]
    rfl
  refine ⟨?_, ?_, ?_, htext, hfits⟩
  · show Place.start.advance front = .ofOffset _ (Place.start.advance front).offset
    rw [hoffset, ← Place.start_advance_take (by simp), List.take_left]
  · show (Place.start.advance front).offset ≤ _
    rw [hoffset, List.length_append]
    exact Nat.le_add_right _ _
  · show source = (front ++ source).drop (Place.start.advance front).offset
    rw [hoffset, List.drop_left]

namespace StandsIn

variable {l : Lexeme} {n : Nat}

theorem end_le (h : l.StandsIn text) : l.place.offset + l.text.length ≤ text.length := by
  have hlen := h.text_prefix.length_le
  rw [h.source_eq, List.length_drop] at hlen
  have := h.offset_le
  omega

theorem text_eq (h : l.StandsIn text) :
    l.text = slice text l.place.offset (l.place.offset + l.text.length) := by
  rw [slice, Nat.add_sub_cancel_left, ← h.source_eq]
  exact List.prefix_iff_eq_take.1 h.text_prefix

theorem span_slice (h : l.StandsIn text) (file : String) (hl : l.place.offset ≤ n)
    (hn : n ≤ text.length) :
    l.place.span file (slice text l.place.offset n) = .between file text l.place.offset n := by
  conv => lhs; rw [h.place_eq]
  exact Place.span_ofOffset file hl hn

theorem span_text (h : l.StandsIn text) (file : String) :
    l.place.span file l.text =
      .between file text l.place.offset (l.place.offset + l.text.length) := by
  conv => lhs; rw [h.text_eq]
  exact h.span_slice file (Nat.le_add_right _ _) h.end_le

end StandsIn

end Lexeme

namespace Scan

/-- A text that is scanned to its end is made up of gaps and lexemes. -/
theorem spells (p : Place) (cs : List Char) (h : (ofText p cs).rest = []) :
    Spells p.offset cs ((ofText p cs).lexemes.map Lexeme.text)
      ((ofText p cs).lexemes.map (·.place.offset)) := by
  fun_induction ofText p cs with
  | case1 p cs gap place hnext =>
    have hgap := Lexeme.gap_spec cs
    have happ := Lexeme.gap_append cs
    rw [show (Lexeme.gap cs).2 = [] from h] at hgap happ
    rw [← happ, List.append_nil]
    exact .nil hgap
  | case2 p cs gap place kind text rest hnext scan ih =>
    have happ := Lexeme.gap_append cs
    obtain ⟨hrest, htext⟩ := Lexeme.next?_splits hnext
    have hgap := Lexeme.gap_spec cs
    have hplace : place.offset = p.offset + gap.1.length := Place.offset_advance _ _
    have hbehind := ih h
    rw [Place.offset_advance, hplace] at hbehind
    have hcs : cs = gap.1 ++ (text ++ rest) := by rw [hrest, happ]
    show Spells p.offset cs (text :: _) (place.offset :: _)
    rw [hplace, hcs]
    exact .cons (hrest ▸ hgap) htext hbehind

theorem standsIn_append (front cs : List Char) :
    ∀ l ∈ (ofText (Place.start.advance front) cs).lexemes, l.StandsIn (front ++ cs) := by
  generalize hp : Place.start.advance front = p
  fun_induction ofText p cs generalizing front with
  | case1 => simp
  | case2 p cs gap place kind text rest hnext scan ih =>
    have happ : gap.1 ++ gap.2 = cs := Lexeme.gap_append cs
    obtain ⟨hrest, -⟩ := Lexeme.next?_splits hnext
    have hplace : place = Place.start.advance (front ++ gap.1) := by
      rw [Place.advance_append, hp]
    have hwhole : front ++ cs = front ++ gap.1 ++ gap.2 := by rw [List.append_assoc, happ]
    intro l hl
    rcases List.mem_cons.1 hl with rfl | hl
    · rw [hwhole, hplace]
      exact Lexeme.standsIn_append _ ⟨rest, hrest⟩ (Lexeme.next?_fits hnext)
    · rw [hwhole, ← hrest, ← List.append_assoc]
      exact ih _ (by rw [Place.advance_append, hplace]) l hl

theorem standsIn (cs : List Char) : ∀ l ∈ (ofText .start cs).lexemes, l.StandsIn cs :=
  standsIn_append [] cs

end Scan

end TokenParsing
