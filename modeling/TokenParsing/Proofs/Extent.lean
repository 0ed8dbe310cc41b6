import Mathlib.Data.List.TakeWhile
import TokenParsing.Lexeme.Splits

/-!
# Where a lexeme ends

A lexeme is found by looking at the text behind it too, so it may change when another text is put
there. Quoted literals end where they say so, whatever follows (`Recogniser.Firm`). Numbers and words
go on as far as they can; they are the same in front of any text that none of them goes on with
(`Recogniser.Clips`, `Stops`).
-/

namespace TokenParsing

/-- A character that goes on with no number and no word: a space, or one of the closing delimiters
that may follow without a space. -/
def IsStop (c : Char) : Prop := c = ' ' ∨ c = ')' ∨ c = ']'

/-- The text is at its end or starts with a stop. -/
def Stops (cs : List Char) : Prop := ∀ c ∈ cs.head?, IsStop c

/-- No stop is in the class. -/
abbrev NoStop (p : Char → Bool) : Prop := p ' ' = false ∧ p ')' = false ∧ p ']' = false

theorem NoStop.not {p : Char → Bool} (h : NoStop p) {c : Char} (hc : IsStop c) : p c = false := by
  obtain ⟨hspace, hparen, hbracket⟩ := h
  rcases hc with rfl | rfl | rfl <;> assumption

theorem stops_nil : Stops [] := by simp [Stops]

theorem stops_cons {c : Char} {cs : List Char} : Stops (c :: cs) ↔ IsStop c := by simp [Stops]

theorem Stops.head?_ne {c : Char} {cs : List Char} (h : Stops cs)
    (hc : ¬IsStop c := by simp [IsStop]) : cs.head? ≠ some c := fun hcs => hc (h c hcs)

namespace Recogniser

/-- What is found does not depend on what stands behind it. -/
def Firm (r : Recogniser) : Prop :=
  ∀ ⦃cs m⦄, r cs = some m → ∀ u, r (m.1 ++ u) = some (m.1, u)

/-- What is found in a text that goes on with `v` behind `w`, and what is found where it goes on with
`u`: nothing if nothing was, and the same if it lies within `w`. -/
structure Clipped (w v u : List Char) (a b : Option (List Char × List Char)) : Prop where
  none : a = none → b = none
  some : ∀ {t x}, w = t ++ x → a = some (t, x ++ v) → b = some (t, x ++ u)

/-- From any place on, a text may be replaced by one that stops. -/
def Clips (r : Recogniser) : Prop :=
  ∀ (w v : List Char) {u : List Char}, Stops u → Clipped w v u (r (w ++ v)) (r (w ++ u))

/-- A recogniser behind one character. -/
def behind (p : Char → Bool) (r : Recogniser) : Recogniser
  | [] => none
  | c :: cs => if p c then (r cs).map (extend [c]) else none

/-- What is found starts with such a character. -/
def StartsWith (P : Char → Prop) (r : Recogniser) : Prop :=
  ∀ ⦃cs m⦄, r cs = some m → ∃ c cs', cs = c :: cs' ∧ P c

variable {r s : Recogniser} {P Q : Char → Prop}

/-! ### Firm recognisers -/

theorem Firm.byteMarked (hr : Firm r) (hsplits : Splits r) : Firm r.byteMarked := by
  intro cs m h u
  unfold Recogniser.byteMarked at h
  split at h
  · obtain ⟨n, hn, rfl⟩ := Option.map_eq_some_iff.1 h
    simp [Recogniser.byteMarked, hr hn u, extend]
  · rename_i hb
    obtain ⟨happ, hne⟩ := hsplits h
    obtain ⟨c, t, hm⟩ := List.exists_cons_of_ne_nil hne
    have hkeep := hr h u
    have hc : c ≠ 'b' := by
      rintro rfl
      exact hb (t ++ m.2) (by rw [← happ, hm, List.cons_append])
    rw [hm] at hkeep ⊢
    simpa [Recogniser.byteMarked, hc] using hkeep

theorem StartsWith.eq_none_of_not (hr : StartsWith P r) {c : Char} (hc : ¬P c) (cs : List Char) :
    r (c :: cs) = none := by
  cases h : r (c :: cs) with
  | none => rfl
  | some m =>
    obtain ⟨_, _, hcons, hP⟩ := hr h
    cases hcons
    exact absurd hP hc

theorem StartsWith.eq_none (hr : StartsWith P r) (hs : StartsWith Q s) (hPQ : ∀ c, P c → ¬Q c)
    {cs : List Char} {m : List Char × List Char} (h : s cs = some m) : r cs = none := by
  obtain ⟨c, cs', rfl, hQ⟩ := hs h
  exact hr.eq_none_of_not (fun hP => hPQ c hP hQ) cs'

theorem StartsWith.mono (hr : StartsWith P r) (hPQ : ∀ c, P c → Q c) : StartsWith Q r := by
  intro cs m h
  obtain ⟨c, cs', rfl, hc⟩ := hr h
  exact ⟨c, cs', rfl, hPQ c hc⟩

theorem StartsWith.orElse (hr : StartsWith P r) (hs : StartsWith P s) :
    StartsWith P (r.orElse s) := by
  intro cs m h
  rcases Option.or_eq_some_iff.1 h with h | ⟨-, h⟩
  · exact hr h
  · exact hs h

theorem StartsWith.byteMarked (hr : StartsWith P r) :
    StartsWith (fun c => c = 'b' ∨ P c) r.byteMarked := by
  intro cs m h
  unfold Recogniser.byteMarked at h
  split at h
  · exact ⟨_, _, rfl, .inl rfl⟩
  · exact hr.mono (fun _ => .inr) h

theorem StartsWith.byteMarked_eq_none (hr : StartsWith P r) (hs : StartsWith Q s)
    (hPQ : ∀ c, P c → ¬Q c) {cs : List Char} {m : List Char × List Char}
    (h : s.byteMarked cs = some m) : r.byteMarked cs = none := by
  unfold Recogniser.byteMarked at h ⊢
  split at h
  · obtain ⟨n, hn, -⟩ := Option.map_eq_some_iff.1 h
    simp [hr.eq_none hs hPQ hn]
  · exact hr.eq_none hs hPQ h

/-! ### Recognisers that can be clipped -/

theorem extend_comp (front front' : List Char) :
    extend front ∘ extend front' = extend (front ++ front') := by
  funext m
  simp [extend]

theorem Splits.behind (hr : Splits r) (p : Char → Bool) : Splits (r.behind p) := by
  intro cs m h
  unfold Recogniser.behind at h
  split at h
  · cases h
  · split at h
    · exact hr.extend h
    · cases h

namespace Clipped

variable {w v u : List Char} {a a' b b' : Option (List Char × List Char)}

theorem nothing : Clipped w v u .none .none := ⟨fun _ => rfl, fun _ h => nomatch h⟩

theorem map_extend (h : Clipped w v u a b) (front : List Char) :
    Clipped (front ++ w) v u (a.map (extend front)) (b.map (extend front)) where
  none hnone := by simp [h.none (Option.map_eq_none_iff.1 hnone)]
  some {t x} hw hsome := by
    obtain ⟨n, hn, heq⟩ := Option.map_eq_some_iff.1 hsome
    obtain ⟨rfl, hrest⟩ := Prod.mk.inj heq
    rw [List.append_assoc] at hw
    have hkeep := h.some (List.append_cancel_left hw)
      (hn.trans (congrArg Option.some (Prod.ext rfl hrest)))
    simp [hkeep, extend]

theorem or (h : Clipped w v u a b) (h' : Clipped w v u a' b') :
    Clipped w v u (a.or a') (b.or b') where
  none hnone := by
    obtain ⟨ha, ha'⟩ := Option.or_eq_none_iff.1 hnone
    simp [h.none ha, h'.none ha']
  some hw hsome := by
    rcases Option.or_eq_some_iff.1 hsome with ha | ⟨ha, ha'⟩
    · simp [h.some hw ha]
    · simp [h.none ha, h'.some hw ha']

end Clipped

/-- To clip behind the first character at the earliest is enough, if nothing starts with a stop. -/
theorem Clips.of_cons (hsplits : Splits r) (hstops : ∀ u, Stops u → r u = none)
    (h : ∀ c w v {u}, Stops u → Clipped (c :: w) v u (r (c :: (w ++ v))) (r (c :: (w ++ u)))) :
    Clips r := by
  intro w v u hu
  cases w with
  | cons c w => exact h c w v hu
  | nil =>
    refine ⟨fun _ => hstops u hu, fun hw hsome => ?_⟩
    obtain ⟨rfl, -⟩ := List.append_eq_nil_iff.1 hw.symm
    exact absurd rfl (hsplits hsome).2

theorem Clips.behind {p : Char → Bool} (hp : NoStop p) (hr : Clips r)
    (hsplits : Splits r) : Clips (r.behind p) := by
  refine .of_cons (hsplits.behind p) (fun u hu => ?_) fun c w v u hu => ?_
  · cases u with
    | nil => rfl
    | cons c u => simp [Recogniser.behind, hp.not (stops_cons.1 hu)]
  · unfold Recogniser.behind
    dsimp only
    split
    · exact (hr w v hu).map_extend [c]
    · exact .nothing

theorem Clips.orElse (hr : Clips r) (hs : Clips s) : Clips (r.orElse s) :=
  fun w v _ hu => (hr w v hu).or (hs w v hu)

theorem Clips.optionally (hr : Clips r) (hs : Clips s) (hsplits : Splits s) :
    Clips fun cs => (r cs).map s.optionally := by
  intro w v u hu
  refine ⟨fun hnone => ?_, fun {t x} hw hsome => ?_⟩
  · simp [(hr w v hu).none (Option.map_eq_none_iff.1 hnone)]
  · obtain ⟨m, hm, hopt⟩ := Option.map_eq_some_iff.1 hsome
    unfold Recogniser.optionally at hopt
    cases hn : s m.2 with
    | none =>
      obtain rfl : m = (t, x ++ v) := by simpa [hn] using hopt
      have hkeep := (hr w v hu).some hw hm
      simp [hkeep, Recogniser.optionally, (hs x v hu).none hn]
    | some n =>
      obtain ⟨rfl, hrest⟩ : m.1 ++ n.1 = t ∧ n.2 = x ++ v := by simpa [hn, extend] using hopt
      have hm₂ : m.2 = (n.1 ++ x) ++ v := by rw [← (hsplits hn).1, hrest, List.append_assoc]
      have hkeep := (hr w v hu).some (t := m.1) (x := n.1 ++ x) (by rw [hw, List.append_assoc])
        (hm.trans (congrArg some (Prod.ext rfl hm₂)))
      have hnkeep := (hs (n.1 ++ x) v hu).some (t := n.1) (x := x) rfl
        (by rw [← hm₂, hn]; exact congrArg some (Prod.ext rfl hrest))
      show (r (w ++ u)).map s.optionally = _
      rw [hkeep]
      simp only [Option.map_some, Recogniser.optionally, hnkeep, extend, Option.getD_some]

theorem Clips.keeps (hr : Clips r) (hsplits : Splits r) {cs u : List Char}
    {m : List Char × List Char} (h : r cs = some m) (hu : Stops u) :
    r (m.1 ++ u) = some (m.1, u) := by
  have happ := (hsplits h).1
  simpa using (hr m.1 m.2 hu).some (x := []) (List.append_nil _).symm (by rw [happ]; exact h)

end Recogniser

namespace Lexeme

open Recogniser Text

/-! ### Quoted literals -/

theorem stringTail?_firm : Firm stringTail? := by
  intro cs m h u
  fun_induction stringTail? cs generalizing m with
  | case1 => cases h
  | case2 cs =>
    cases h
    rfl
  | case3 => cases h
  | case4 c cs ih =>
    obtain ⟨n, hn, rfl⟩ := Option.map_eq_some_iff.1 h
    simp [stringTail?, ih hn, extend]
  | case5 c cs hquote hlast hslash ih =>
    obtain ⟨n, hn, rfl⟩ := Option.map_eq_some_iff.1 h
    have hc : c ≠ '\\' := by
      rintro rfl
      cases cs with
      | nil => exact hlast rfl rfl
      | cons d cs => exact hslash d cs rfl rfl
    show stringTail? (c :: (n.1 ++ u)) = _
    unfold stringTail?
    split <;> simp_all [extend]

theorem string?_firm : Firm string? := by
  intro cs m h u
  unfold string? at h
  split at h
  · obtain ⟨n, hn, rfl⟩ := Option.map_eq_some_iff.1 h
    simp [string?, stringTail?_firm hn u, extend]
  · cases h

theorem rawTail?_length {hashes cs : List Char} {m : List Char × List Char}
    (h : rawTail? hashes cs = some m) : hashes.length < m.1.length := by
  induction cs generalizing m with
  | nil => cases h
  | cons c cs ih =>
    rw [rawTail?] at h
    split at h
    · cases h
      exact Nat.lt_succ_self _
    · obtain ⟨n, hn, rfl⟩ := Option.map_eq_some_iff.1 h
      exact Nat.lt_succ_of_lt (ih hn)

theorem rawTail?_firm (hashes : List Char) : Firm (rawTail? hashes) := by
  intro cs m h u
  induction cs generalizing m with
  | nil => cases h
  | cons c cs ih =>
    rw [rawTail?] at h
    split at h
    · rename_i hc
      cases h
      simp [rawTail?, hc.1]
    · rename_i hc
      obtain ⟨n, hn, rfl⟩ := Option.map_eq_some_iff.1 h
      have hnot : ¬(c = '"' ∧ hashes.isPrefixOf (n.1 ++ u)) := by
        -- The closing quote in `n.1` has the hashes behind it, so they are not longer than `n.1`.
        rintro ⟨rfl, hprefix⟩
        refine hc ⟨rfl, List.isPrefixOf_iff_prefix.2 ?_⟩
        have hwithin : hashes <+: n.1 :=
          List.prefix_of_prefix_length_le (List.isPrefixOf_iff_prefix.1 hprefix)
            (List.prefix_append _ _) (Nat.le_of_lt (rawTail?_length hn))
        exact hwithin.trans ⟨n.2, (rawTail?_splits hashes hn).1⟩
      show rawTail? hashes (c :: (n.1 ++ u)) = _
      rw [rawTail?, if_neg hnot, ih hn]
      rfl

theorem takeWhile_append {p : Char → Bool} (cs : List Char) {u : List Char}
    (hu : ∀ c ∈ u.head?, p c = false) :
    (cs.takeWhile p ++ u).takeWhile p = cs.takeWhile p ∧
      (cs.takeWhile p ++ u).dropWhile p = u := by
  have hall : ∀ c ∈ cs.takeWhile p, p c = true := fun c hc => List.mem_takeWhile_imp hc
  rw [List.takeWhile_append_of_pos hall, List.dropWhile_append_of_pos hall]
  cases u with
  | nil => simp
  | cons c u => simp [hu c rfl]

theorem rawString?_firm : Firm rawString? := by
  intro cs m h u
  unfold rawString? at h
  split at h
  · rename_i cs
    dsimp only at h
    split at h
    · rename_i body hbody
      obtain ⟨n, hn, rfl⟩ := Option.map_eq_some_iff.1 h
      obtain ⟨htake, hdrop⟩ :=
        takeWhile_append (p := (· == '#')) cs (u := '"' :: (n.1 ++ u)) (by simp)
      simp [rawString?, htake, hdrop, rawTail?_firm _ hn u, extend]
    · cases h
  · cases h

theorem codePointEscape?_firm : Firm codePointEscape? := by
  intro cs m h u
  unfold codePointEscape? at h
  split at h
  · rename_i cs
    dsimp only at h
    split at h
    · rename_i hlength
      split at h
      · rename_i rest hrest
        cases h
        have hbrace : isHexDigit '\x7d' = false := by decide
        obtain ⟨htake, hdrop⟩ := takeWhile_append (p := isHexDigit) cs
          (u := '\x7d' :: '\'' :: u) (by simpa using hbrace)
        simp [codePointEscape?, htake, hdrop, hlength]
      · cases h
    · cases h
  · cases h

theorem hexEscape?_startsWith : StartsWith (· = 'x') hexEscape? := by
  intro cs m h
  unfold hexEscape? at h
  split at h
  · exact ⟨_, _, rfl, rfl⟩
  · cases h

theorem codePointEscape?_startsWith : StartsWith (· = 'u') codePointEscape? := by
  intro cs m h
  unfold codePointEscape? at h
  split at h
  · exact ⟨_, _, rfl, rfl⟩
  · cases h

theorem escape?_plain {c : Char} (hc : c ≠ '\n') (cs : List Char) :
    hexEscape?.orElse (codePointEscape?.orElse plainEscape?) (c :: '\'' :: cs) =
      some ([c, '\''], cs) := by
  have hx : hexEscape? (c :: '\'' :: cs) = none := by
    unfold hexEscape?
    split
    · rename_i h
      cases h
      simp [isHexDigit]
    · rfl
  have hbrace : codePointEscape? (c :: '\'' :: cs) = none := by
    unfold codePointEscape?
    split
    · rename_i h
      cases h
    · rfl
  simp [Recogniser.orElse, hx, hbrace, plainEscape?, hc]

theorem escape?_firm : Firm (hexEscape?.orElse (codePointEscape?.orElse plainEscape?)) := by
  intro cs m h u
  rcases Option.or_eq_some_iff.1 h with h | ⟨-, h⟩
  · unfold hexEscape? at h
    split at h
    · split at h
      · rename_i hdigits
        cases h
        simp [Recogniser.orElse, hexEscape?, hdigits]
      · cases h
    · cases h
  · rcases Option.or_eq_some_iff.1 h with h | ⟨-, h⟩
    · have hkeep := codePointEscape?_firm h u
      have hx := hexEscape?_startsWith.eq_none codePointEscape?_startsWith (by simp) hkeep
      simp [Recogniser.orElse, hkeep, hx]
    · unfold plainEscape? at h
      split at h
      · split at h
        · cases h
        · rename_i hc
          cases h
          exact escape?_plain hc u
      · cases h

theorem char?_firm : Firm char? := by
  intro cs m h u
  unfold char? at h
  split at h
  · obtain ⟨n, hn, rfl⟩ := Option.map_eq_some_iff.1 h
    simp only [extend_fst, List.cons_append, List.nil_append, char?, escape?_firm hn u]
    rfl
  · split at h
    · cases h
    · rename_i c cs hslash hc
      cases h
      show char? ('\'' :: c :: '\'' :: u) = _
      unfold char?
      split
      · rename_i h
        cases h
        exact absurd rfl hslash
      · rename_i h
        cases h
        rw [if_neg hc]
      · rename_i h
        exact absurd rfl (h _ _)
  · cases h

/-! ### Numbers and words -/

theorem run?_clips {first rest : Char → Bool} (hfirst : NoStop first) (hrest : NoStop rest) :
    Clips (run? first rest) := by
  refine .of_cons (run?_splits first rest) (fun u hu => ?_) fun c w v u hu => ⟨fun hnone => ?_, ?_⟩
  · cases u with
    | nil => rfl
    | cons c u => simp [run?, hfirst.not (stops_cons.1 hu)]
  · have hc : first c = false := by simpa [run?] using hnone
    simp [run?, hc]
  · intro t x hw hsome
    have hc : first c = true := by
      by_contra hc
      simp [run?, hc] at hsome
    obtain ⟨rfl, hdrop⟩ : c :: (w ++ v).takeWhile rest = t ∧ (w ++ v).dropWhile rest = x ++ v := by
      simpa [run?, hc] using hsome
    have htail : w = (w ++ v).takeWhile rest ++ x := (List.cons.inj hw).2
    have hstop : ∀ d ∈ (x ++ u).head?, rest d = false := by
      cases x with
      | nil => exact fun d hd => hrest.not (hu d hd)
      | cons e x =>
        have hnot := List.head?_dropWhile_not rest (w ++ v)
        rw [hdrop] at hnot
        simpa using hnot
    obtain ⟨htake, hdrop'⟩ := takeWhile_append (w ++ v) hstop
    rw [← List.append_assoc, ← htail] at htake hdrop'
    simp [run?, hc, htake, hdrop']

theorem digits?_clips : Clips digits? :=
  run?_clips (by decide) (by decide)

theorem word?_clips : Clips word? :=
  run?_clips (by decide) (by decide)

theorem fraction?_eq : fraction? = digits?.behind (· == '.') := by
  funext cs
  unfold fraction? behind
  split
  · simp
  · cases cs with
    | nil => rfl
    | cons c cs =>
      rename_i hdot
      have hc : c ≠ '.' := fun hc => hdot cs (by rw [hc])
      simp [hc]

theorem digits?_eq_none {c : Char} (hc : isDecimal c = false) (cs : List Char) :
    digits? (c :: cs) = none := by
  simp [digits?, run?, hc]

theorem exponent?_eq : exponent? =
    ((digits?.behind fun c => c == '+' || c == '-').orElse digits?).behind
      fun c => c == 'e' || c == 'E' := by
  funext cs
  match cs with
  | [] => rfl
  | [e] =>
    simp [exponent?, behind, Recogniser.orElse, digits?, run?]
  | e :: sign :: cs =>
    by_cases he : e = 'e' ∨ e = 'E'
    · by_cases hsign : sign = '+' ∨ sign = '-'
      · have hdigit : isDecimal sign = false := by rcases hsign with rfl | rfl <;> decide
        simp [exponent?, behind, Recogniser.orElse, he, hsign, digits?_eq_none hdigit,
          extend_comp]
      · simp [exponent?, behind, Recogniser.orElse, he, hsign]
    · simp [exponent?, behind, he]

/-- The digits of some base, all of one class, behind its letter. -/
def digitsOf (letter : Char) (digit : Char → Bool) : Recogniser :=
  (run? digit digit).behind (· == letter)

theorem radixNumber?_eq : radixNumber? =
    ((digitsOf 'x' fun c => isHexDigit c || c == '_').orElse
      ((digitsOf 'o' fun c => ('0' ≤ c && c ≤ '7') || c == '_').orElse
        (digitsOf 'b' fun c => c == '0' || c == '1' || c == '_'))).behind (· == '0') := by
  funext cs
  match cs with
  | [] => rfl
  | [z] => simp [radixNumber?, behind, Recogniser.orElse, digitsOf]
  | z :: base :: cs =>
    by_cases hz : z = '0'
    · subst hz
      by_cases hx : base = 'x'
      · subst hx
        simp [radixNumber?, radixDigit?, behind, Recogniser.orElse, digitsOf, extend_comp]
      by_cases ho : base = 'o'
      · subst ho
        simp [radixNumber?, radixDigit?, behind, Recogniser.orElse, digitsOf, extend_comp]
      by_cases hb : base = 'b'
      · subst hb
        simp [radixNumber?, radixDigit?, behind, Recogniser.orElse, digitsOf, extend_comp]
      simp [radixNumber?, radixDigit?, behind, Recogniser.orElse, digitsOf, hx, ho, hb]
    · simp [radixNumber?, behind, hz]

theorem rawIdent?_eq : rawIdent? = (word?.behind (· == '#')).behind (· == 'r') := by
  funext cs
  match cs with
  | [] => rfl
  | [r] => simp [rawIdent?, behind]
  | r :: hash :: cs =>
    unfold rawIdent?
    split
    · rename_i h
      cases h
      simp [behind, extend_comp]
    · rename_i h
      by_cases hr : r = 'r'
      · have hhash : hash ≠ '#' := fun hhash => h cs (by rw [hr, hhash])
        simp [behind, hhash]
      · simp [behind, hr]

theorem fraction?_clips : Clips fraction? := by
  rw [fraction?_eq]
  exact digits?_clips.behind (by decide) digits?_splits

theorem exponent?_clips : Clips exponent? := by
  rw [exponent?_eq]
  refine .behind (by decide) ?_
    ((digits?_splits.behind _).orElse digits?_splits)
  exact (digits?_clips.behind (by decide)
    digits?_splits).orElse digits?_clips

theorem digitsOf_splits (letter : Char) (digit : Char → Bool) : Splits (digitsOf letter digit) :=
  (run?_splits _ _).behind _

theorem digitsOf_clips {letter : Char} {digit : Char → Bool} (hletter : NoStop (· == letter))
    (hdigit : NoStop digit) : Clips (digitsOf letter digit) :=
  (run?_clips hdigit hdigit).behind hletter (run?_splits _ _)

theorem radixNumber?_clips : Clips radixNumber? := by
  rw [radixNumber?_eq]
  refine .behind (by decide) ?_
    ((digitsOf_splits _ _).orElse ((digitsOf_splits _ _).orElse (digitsOf_splits _ _)))
  exact (digitsOf_clips (by decide) (by decide)).orElse
    ((digitsOf_clips (by decide) (by decide)).orElse (digitsOf_clips (by decide) (by decide)))

theorem decimalNumber?_clips : Clips decimalNumber? := by
  have heq : decimalNumber? =
      fun cs => ((digits? cs).map fraction?.optionally).map exponent?.optionally := by
    funext cs
    simp [decimalNumber?, Function.comp_def]
  rw [heq]
  exact (digits?_clips.optionally fraction?_clips fraction?_splits).optionally exponent?_clips
    exponent?_splits

theorem number?_clips : Clips number? :=
  (radixNumber?_clips.orElse decimalNumber?_clips).optionally word?_clips word?_splits

theorem ident?_clips : Clips ident? := by
  have hraw : Clips rawIdent? := by
    rw [rawIdent?_eq]
    exact (word?_clips.behind (by decide)
      word?_splits).behind (by decide)
      (word?_splits.behind _)
  exact hraw.orElse word?_clips

end Lexeme

end TokenParsing
