import TokenParsing.Parser.Text
import TokenParsing.Proofs.Enclosing
import TokenParsing.Proofs.Simulation

/-!
# Parsing all of a text

A text is parsed as a whole exactly if the parser succeeds and has read every token, and otherwise
the error says what is left (`Parser.parseText_all`). It says so with a report, unless nothing but
closing delimiters is left, of groups the parser has entered; these come back as punctuation
(`Trailing.trees_of_ofInput?`).

A parser leaves behind an input that reading its trees can lead to (`Parser.run_reachable`), and such
an input is at its end exactly if all tokens are read. Without a report every token that is left closes
a group that opened before (`Leftover.unopened_of_ofTokens?`), since leaves are counted and a group
that opens in front of all leaves is shown.
-/

namespace TokenParsing

namespace Token

/-- The tokens at the two places are the delimiters of one group. -/
def Matching (ts : List Token) (j k : Nat) : Prop :=
  ∃ (d : Delimiter) (opener closer : Char) (span : Span), d.marks? = some (opener, closer) ∧
    ts[j]? = some (.delim opener.toString span) ∧ ts[k]? = some (.delim closer.toString span)

theorem Matching.within {ts : List Token} {j k : Nat} (h : Matching ts j k) (us vs : List Token) :
    Matching (us ++ (ts ++ vs)) (us.length + j) (us.length + k) := by
  have hget {i : Nat} {t : Token} (ht : ts[i]? = some t) :
      (us ++ (ts ++ vs))[us.length + i]? = some t := by
    rw [List.getElem?_append_right (Nat.le_add_right ..), Nat.add_sub_cancel_left,
      List.getElem?_append_left (List.getElem?_eq_some_iff.1 ht).1, ht]
  obtain ⟨d, opener, closer, span, hd, hj, hk⟩ := h
  exact ⟨d, opener, closer, span, hd, hget hj, hget hk⟩

end Token

mutual

theorem TokenTree.matching_openings {start j k : Nat} :
    ∀ t : TokenTree, (t.openings start)[k]? = some (some j) →
      start ≤ j ∧ Token.Matching t.flatten (j - start) k
  | .ident .., h | .literal .., h | .punct .., h => by
    cases k <;> simp [TokenTree.openings] at h
  | .group d trees span, h => by
    cases hd : d.marks? with
    | none =>
      simp only [TokenTree.openings, hd] at h
      simpa only [TokenTree.flatten, hd] using TokenStream.matching_openings trees h
    | some m =>
      obtain ⟨opener, closer⟩ := m
      have hlength := TokenStream.length_openings (start + 1) trees
      simp only [TokenTree.openings, hd] at h
      simp only [TokenTree.flatten, hd]
      rcases k with _ | k
      · simp at h
      · rw [List.getElem?_cons_succ] at h
        rcases Nat.lt_or_ge k (TokenStream.flatten trees).length with hlt | hge
        · rw [List.getElem?_append_left (hlength ▸ hlt)] at h
          obtain ⟨hle, hmatching⟩ := TokenStream.matching_openings trees h
          have hin := hmatching.within [.delim opener.toString span] [.delim closer.toString span]
          rw [List.length_singleton, Nat.add_comm 1 k,
            show 1 + (j - (start + 1)) = j - start by omega] at hin
          exact ⟨by omega, hin⟩
        · -- the closing delimiter of the group itself
          rw [List.getElem?_append_right (hlength ▸ hge), hlength] at h
          obtain ⟨hzero, hj⟩ := List.getElem?_eq_some_iff.1 h
          have hk : k = (TokenStream.flatten trees).length := by
            rw [List.length_singleton] at hzero
            omega
          subst hk
          obtain rfl : start = j := by simpa using hj
          refine ⟨Nat.le_refl _, d, opener, closer, span, hd, by simp, by simp⟩

theorem TokenStream.matching_openings {start j k : Nat} :
    ∀ ts : List TokenTree, (TokenStream.openings start ts)[k]? = some (some j) →
      start ≤ j ∧ Token.Matching (TokenStream.flatten ts) (j - start) k
  | [], h => by simp [TokenStream.openings] at h
  | t :: ts, h => by
    have hlength := t.length_openings start
    rw [TokenStream.openings] at h
    rw [TokenStream.flatten_cons]
    rcases Nat.lt_or_ge k t.flatten.length with hlt | hge
    · rw [List.getElem?_append_left (hlength ▸ hlt)] at h
      obtain ⟨hle, hmatching⟩ := TokenTree.matching_openings t h
      have hin := hmatching.within [] (TokenStream.flatten ts)
      rw [List.length_nil, Nat.zero_add, Nat.zero_add] at hin
      exact ⟨hle, hin⟩
    · rw [List.getElem?_append_right (hlength ▸ hge), hlength] at h
      obtain ⟨hle, hmatching⟩ := TokenStream.matching_openings ts h
      have hin := hmatching.within t.flatten []
      rw [List.append_nil, show t.flatten.length + (k - t.flatten.length) = k by omega,
        show t.flatten.length + (j - (start + t.flatten.length)) = j - start by omega] at hin
      exact ⟨by omega, hin⟩

end

theorem TokenStream.matching_opener? {trees : List TokenTree} {j n : Nat}
    (h : opener? trees n = some j) : Token.Matching (flatten trees) j n :=
  (TokenStream.matching_openings trees (Option.join_eq_some_iff.1 h)).2

/-! ### The input behind a parse -/

namespace Input

/-- Inputs with a property that reading keeps, each related to itself alone. -/
def holding (P : Input → Prop) (hnext : ∀ {i : Input}, P i → P i.next.2) :
    Simulation Input Input where
  rel i j := i = j ∧ P i
  marks _ _ m n := m = n ∧ P m
  lossy := False
  position h := h.1 ▸ rfl
  isEmpty h := h.1 ▸ rfl
  remaining h := h.1 ▸ rfl
  next := by
    rintro i _ ⟨rfl, hi⟩
    exact ⟨rfl, ⟨rfl, hnext hi⟩, id⟩
  peek := by
    rintro i _ ⟨rfl, hi⟩
    exact ⟨rfl, ⟨rfl, hi⟩, id⟩
  mark h := h
  restore _ hm := .inl ⟨_, _, rfl, rfl, hm, id⟩

end Input

namespace Simulation

variable {σ τ α : Type} [TokenSource σ] [TokenSource τ] {R : Simulation σ τ} {s : State σ}
  {t : State τ} {x : Result α × State σ} {y : Result α × State τ}

theorem Agrees.rel (h : R.Agrees s t x y) (hR : ¬R.lossy) : R.rel x.2.source y.2.source := by
  cases h with
  | refused hl => exact absurd hl hR
  | success _ _ h | failure _ h | abort _ _ h => exact h.later.rel

end Simulation

theorem Parser.run_reachable {trees : List TokenTree} (rules : Rules) (p : Parser)
    {s : State Input} (hs : (Stream.input s.source).Reachable trees) :
    (Stream.input (p.run rules s).2.source).Reachable trees := by
  let R := Input.holding (fun i => (Stream.input i).Reachable trees) (fun h => h.next)
  have hagree : R.Agrees s s (p.run rules s) (p.run rules s) := R.run rules p ⟨rfl, hs⟩ rfl
  exact (hagree.rel id).2

/-! ### What is left behind it -/

namespace Token

theorem length_unopened (depth : Nat) (ts : List Token) :
    (unopened depth ts).length = ts.length := by
  induction ts generalizing depth with
  | nil => rfl
  | cons t ts ih =>
    rw [unopened]
    split
    · rw [List.length_cons, ih, List.length_cons]
    · split <;> rw [List.length_cons, ih, List.length_cons]

theorem unopened_of_paired_eq_nil {depth : Nat} {ts : List Token} (h : paired depth ts = []) :
    unopened depth ts = List.replicate ts.length true := by
  refine List.eq_replicate_iff.2 ⟨length_unopened depth ts, fun b hb => ?_⟩
  rw [← List.map_snd_zip (Nat.le_of_eq (length_unopened depth ts))] at hb
  obtain ⟨x, hx, rfl⟩ := List.mem_map.1 hb
  have hdropped := List.filter_eq_nil_iff.1 (List.map_eq_nil_iff.1 h) x hx
  simpa using hdropped

end Token

theorem Leftover.unopened_of_ofTokens? {limit : Int} {ts : List Token} (hts : Token.Closes [] ts)
    (hlimit : 0 < limit) (h : ofTokens? limit ts = none) :
    Token.unopened 0 ts = List.replicate ts.length true := by
  obtain ⟨-, hfinish, htotal⟩ : ofTokens? limit ts = none ∧
      (ts.foldl (Draft.add limit) {}).finish = [] ∧ (ts.foldl (Draft.add limit) {}).total = 0 :=
    (ofTokens?_cases limit ts).resolve_right (by simp [h])
  have hleaves : ts.countP Token.isLeaf = 0 := by
    rw [Draft.total_foldl] at htotal
    omega
  -- No leaf stands in front of a group, so each group that opens would be shown.
  have hbefore : Token.OpensBefore limit ({} : Draft).total ts := by
    rintro front t back rfl -
    rw [List.countP_append] at hleaves
    have hfront : front.countP Token.isLeaf = 0 := by omega
    rw [hfront]
    exact hlimit
  have hshown := Draft.flatten_finish_foldl hts (d := {}) rfl
    (by rw [hleaves]; exact Int.le_of_lt hlimit) hbefore
  rw [hfinish] at hshown
  exact Token.unopened_of_paired_eq_nil hshown.symm

namespace Trailing

variable {trees ts : List TokenTree} {i : Input}

/-- Nothing is left exactly if every token is read. -/
theorem ofInput?_eq_none_iff (hi : (Stream.input i).Reachable trees) :
    ofInput? i = none ↔ i.ordinal = (TokenStream.flatten trees).length := by
  obtain ⟨n, hplace⟩ := hi.input_at
  have hempty : i.isEmpty = true ↔ i.ordinal = (TokenStream.flatten trees).length := by
    rw [hplace.isEmpty_eq, hplace.ordinal_eq, beq_iff_eq]
  rw [← hempty, ofInput?]
  split
  · simp [*]
  · split <;> simp [*]

/-- What is left and is not reported on: closing delimiters of groups whose opening ones are read,
each as punctuation. -/
theorem trees_of_ofInput? (hi : (Stream.input i).Reachable trees)
    (h : ofInput? i = some (.trees ts)) :
    i.ordinal < (TokenStream.flatten trees).length ∧
      (TokenStream.flatten ts).length = (TokenStream.flatten trees).length - i.ordinal ∧
      ∀ k t, (TokenStream.flatten ts)[k]? = some t →
        ∃ (j : Nat) (d : Delimiter) (opener closer : Char) (span : Span),
          t = .punct closer .alone span ∧ d.marks? = some (opener, closer) ∧ j < i.ordinal ∧
          TokenStream.opener? trees (i.ordinal + k) = some j ∧
          (TokenStream.flatten trees)[j]? = some (.delim opener.toString span) := by
  have hend := mt (ofInput?_eq_none_iff hi).2 (by rw [h]; exact Option.some_ne_none _)
  obtain ⟨n, hplace⟩ := hi.input_at
  have hn := hplace.ordinal_eq
  dsimp only at hn
  subst hn
  have hlt : i.ordinal < (TokenStream.flatten trees).length :=
    Nat.lt_of_le_of_ne hplace.index_le hend
  have hcloses := TokenStream.closes_drop trees hplace.index_le
  rw [← hplace.tokens_eq] at hcloses
  obtain ⟨hnone, rfl⟩ : Leftover.ofTokens? Leftover.defaultLimit i.tokens = none ∧
      i.intoTrees = ts := by
    have hdrain : (TokenSource.drain i).1 = i.tokens := hplace.drain.trans hplace.tokens_eq.symm
    rw [ofInput?] at h
    split at h
    · cases h
    · split at h
      · cases h
      · rename_i hreport
        rw [Leftover.ofSource?] at hreport
        rw [← hdrain]
        exact ⟨hreport, by simpa using h⟩
  have hunopened := Leftover.unopened_of_ofTokens? hcloses (by decide) hnone
  have hproper : Level.Proper i.levels :=
    hi.input_rec (P := fun i => Level.Proper i.levels) (Input.proper_ofTrees trees)
      Input.proper_next
  have hlength : i.tokens.length = (TokenStream.flatten trees).length - i.ordinal :=
    hplace.remaining_eq
  have hflatten : TokenStream.flatten i.intoTrees = i.tokens.map Token.loosen := by
    rw [Input.flatten_intoTrees hproper, hunopened]
    refine List.ext_getElem? fun k => ?_
    rw [List.getElem?_zipWith, List.getElem?_map]
    rcases Nat.lt_or_ge k i.tokens.length with hk | hk
    · rw [List.getElem?_eq_getElem hk, List.getElem?_replicate, if_pos hk]
      rfl
    · rw [List.getElem?_eq_none hk]
      rfl
  refine ⟨hlt, by rw [hflatten, List.length_map, hlength], fun k t ht => ?_⟩
  have hk : k < i.tokens.length := by
    have hk := (List.getElem?_eq_some_iff.1 ht).1
    rwa [hflatten, List.length_map] at hk
  -- What closes a group that did not open among the tokens, closes one that opened before.
  have hbefore : ((TokenStream.openings 0 trees)[i.ordinal + k]?.map (·.any (· < i.ordinal))) =
      some true := by
    rw [← List.getElem?_drop, ← List.getElem?_map, ← Input.unopened_tokens hplace, hunopened,
      List.getElem?_replicate, if_pos hk]
  obtain ⟨closed, hclosed, hany⟩ := Option.map_eq_some_iff.1 hbefore
  obtain ⟨j, rfl, hj⟩ : ∃ j, closed = some j ∧ decide (j < i.ordinal) = true := by
    cases closed with
    | none => cases hany
    | some j => exact ⟨j, rfl, hany⟩
  have hopener : TokenStream.opener? trees (i.ordinal + k) = some j :=
    Option.join_eq_some_iff.2 hclosed
  obtain ⟨d, opener, closer, span, hd, hopens, hcloser⟩ := TokenStream.matching_opener? hopener
  rw [hflatten, List.getElem?_map, hplace.tokens_eq, List.getElem?_drop, hcloser, Option.map_some,
    Token.loosen_delim, Option.some_inj] at ht
  exact ⟨j, d, opener, closer, span, ht.symm, hd, by simpa using hj, hopener, hopens⟩

end Trailing

namespace Parser

variable {file text : String} {trees : List TokenTree}

theorem parseText_of_tokenize (rules : Rules) (p : Parser) (h : tokenize file text = .ok trees) :
    p.parseText rules file text true =
      match p.run rules ⟨Input.ofTrees trees, {}⟩ with
      | (.failure e, _) => .error (.failure e)
      | (.abort f, _) => .error (.fault f)
      | (.success v _, s) =>
        match Trailing.ofInput? s.source with
        | some t => .error (.trailing t)
        | none => .ok v := by
  rw [parseText, h]
  rfl

/-- A text as a whole has the value that the parser comes to, exactly if the parser succeeds and has
read every token. If it succeeds and some are left, the error is about these; if the error has no
report on them, they are the closing delimiters of groups that the parser has entered, each as
punctuation. -/
theorem parseText_all (rules : Rules) (p : Parser) (h : tokenize file text = .ok trees) :
    let run := p.run rules ⟨Input.ofTrees trees, {}⟩
    let read := run.2.source.ordinal
    let tokens := TokenStream.flatten trees
    let result := p.parseText rules file text true
    (∀ v, result = .ok v ↔ (∃ hint, run.1 = .success v hint) ∧ read = tokens.length) ∧
    ((∃ t, result = .error (.trailing t)) ↔
      (∃ v hint, run.1 = .success v hint) ∧ read ≠ tokens.length) ∧
    ∀ ts, result = .error (.trailing (.trees ts)) →
      TokenStream.flatten ts ≠ [] ∧ (TokenStream.flatten ts).length = tokens.length - read ∧
      ∀ k t, (TokenStream.flatten ts)[k]? = some t →
        ∃ (j : Nat) (d : Delimiter) (opener closer : Char) (span : Span),
          t = .punct closer .alone span ∧ d.marks? = some (opener, closer) ∧ j < read ∧
          TokenStream.opener? trees (read + k) = some j ∧
          tokens[j]? = some (.delim opener.toString span) := by
  have hreachable : (Stream.input (p.run rules ⟨Input.ofTrees trees, {}⟩).2.source).Reachable trees :=
    run_reachable rules p .ofTrees
  have hend := Trailing.ofInput?_eq_none_iff hreachable
  simp only [parseText_of_tokenize rules p h]
  -- of the run only its outcome and the input it leaves behind matter
  generalize p.run rules ⟨Input.ofTrees trees, {}⟩ = run at hreachable hend ⊢
  obtain ⟨outcome, s⟩ := run
  dsimp only at hreachable hend ⊢
  cases outcome with
  | failure e => simp
  | abort f => simp
  | success v hint =>
    cases htrailing : Trailing.ofInput? s.source with
    | none =>
      have hread := hend.1 htrailing
      simp [htrailing, hread]
    | some t =>
      have hread := mt hend.2 (by rw [htrailing]; exact Option.some_ne_none t)
      refine ⟨by simp [htrailing, hread], by simp [htrailing, hread], fun ts hts => ?_⟩
      obtain rfl : t = .trees ts := by simpa [htrailing] using hts
      obtain ⟨hlt, hlength, hclosers⟩ := Trailing.trees_of_ofInput? hreachable htrailing
      refine ⟨fun hnil => ?_, hlength, hclosers⟩
      rw [hnil, List.length_nil] at hlength
      omega

/-- Of `( { a } )` a parser reads up to `a`: the brace and the parenthesis behind it are left. -/
theorem parseText_all_closers :
    let p : Parser :=
      .sequence [.token (.delim '('), .token (.delim '\x7b'), .token .ident]
    ∃ ts, p.parseText [] "f" "( \x7b a \x7d )" true = .error (.trailing (.trees ts)) ∧
      (TokenStream.flatten ts).length = 2 ∧
      ∀ t ∈ TokenStream.flatten ts, ∃ (closer : Char) (span : Span), t = .punct closer .alone span := by
  intro p
  let trees : List TokenTree := [.group .parenthesis [.group .brace [.ident "a" ⟨"f", 1, 5, 1, 6, "a"⟩]
    ⟨"f", 1, 3, 1, 8, "\x7b a \x7d"⟩] ⟨"f", 1, 1, 1, 10, "( \x7b a \x7d )"⟩]
  have h : tokenize "f" "( \x7b a \x7d )" = .ok trees := by
    dsimp only [trees]
    with_unfolding_all rfl
  have hread : (p.run [] ⟨Input.ofTrees trees, {}⟩).2.source.ordinal = 3 := by decide +kernel
  have hlength : (TokenStream.flatten trees).length = 5 := by decide +kernel
  have hkind : (match p.parseText [] "f" "( \x7b a \x7d )" true with
      | .error (.trailing (.trees _)) => true
      | _ => false) = true := by
    rw [parseText_of_tokenize [] p h]
    decide +kernel
  obtain ⟨ts, hts⟩ : ∃ ts, p.parseText [] "f" "( \x7b a \x7d )" true =
      .error (.trailing (.trees ts)) := by
    split at hkind
    · exact ⟨_, ‹_›⟩
    · cases hkind
  obtain ⟨-, -, hclosers⟩ := parseText_all [] p h
  obtain ⟨-, hleft, hclosers⟩ := hclosers ts hts
  rw [hlength, hread] at hleft
  refine ⟨ts, hts, hleft, fun t ht => ?_⟩
  obtain ⟨k, hk⟩ := List.mem_iff_getElem?.1 ht
  obtain ⟨_, _, _, closer, span, rfl, -⟩ := hclosers k t hk
  exact ⟨closer, span, rfl⟩

end Parser

end TokenParsing
