import TokenParsing.Proofs.Commitment
import TokenParsing.Proofs.StreamCursor

/-!
# A value holds the tokens that were read for it

The leaves of a value, read from left to right, are the tokens between the place where its parser
started and the place where it ended, in order (`Parser.run_leaves`), as long as no value is replaced
on the way. Whatever was tried before and given up has left no trace in the value, because it has
left none in the input (`Action.Tidy`).

`Input.Reads` is reading as a path from one input to another. Each combinator that keeps the values
of its parts puts paths together as it puts values together (`Action.collects_stable`).
-/

namespace TokenParsing

mutual

/-- The tokens that a value is made of, from left to right. -/
def Value.leaves : Value → List Token
  | .token t => [t]
  | .tree t => t.flatten
  | .tuple vs => Value.leavesOf vs
  | .list vs => Value.leavesOf vs
  | .null | .bool _ | .int _ | .text _ => []

def Value.leavesOf : List Value → List Token
  | [] => []
  | v :: vs => v.leaves ++ Value.leavesOf vs

end

/-- Reading the tokens leads from one input to the other. -/
inductive Input.Reads : List Token → Input → Input → Prop
  | refl (i : Input) : Reads [] i i
  | next {i j : Input} {t : Token} {ts : List Token} (ht : i.next.1 = some t)
    (h : Reads ts i.next.2 j) : Reads (t :: ts) i j

namespace Input.Reads

variable {i j k : Input} {ts us : List Token}

theorem append (h : Reads ts i j) (h' : Reads us j k) : Reads (ts ++ us) i k := by
  induction h with
  | refl => exact h'
  | next ht _ ih => exact .next ht (ih h')

theorem eq_extract (h : Reads ts i j) {tokens : List Token} {n : Nat} (hi : i.At ⟨tokens, n⟩) :
    ∃ m, j.At ⟨tokens, m⟩ ∧ n ≤ m ∧ ts = tokens.extract n m := by
  induction h generalizing n with
  | refl i => exact ⟨n, hi, Nat.le_refl n, by simp⟩
  | @next i j t ts ht _ ih =>
    rcases Nat.lt_or_ge n tokens.length with hn | hn
    · obtain ⟨htoken, hplace⟩ := hi.next_of_lt hn
      obtain ⟨m, hj, hm, hts⟩ := ih hplace
      obtain rfl : tokens[n] = t := Option.some.inj (htoken.symm.trans ht)
      refine ⟨m, hj, Nat.le_of_succ_le hm, ?_⟩
      rw [hts, List.extract_eq_take_drop, List.extract_eq_take_drop, List.drop_eq_getElem_cons hn,
        show m - n = m - (n + 1) + 1 by omega, List.take_succ_cons]
    · rw [hi.next_of_le hn] at ht
      cases ht

end Input.Reads

theorem Matcher.leaves_of_accept {m : Matcher} {t : Token} {v : Value} (h : m.accept t = some v) :
    v.leaves = [t] := by
  have hleaf {t : Token} {c : Prop} [Decidable c]
      (h : (if c then some (Value.token t) else none) = some v) : v.leaves = [t] := by
    obtain ⟨-, hv⟩ := Option.ite_none_right_eq_some.1 h
    rw [← Option.some.inj hv, Value.leaves]
  unfold Matcher.accept at h
  split at h
  · rw [← Option.some.inj h, Value.leaves, TokenTree.flatten]
  · rw [← Option.some.inj h, Value.leaves, TokenTree.flatten]
  · exact hleaf h
  · exact hleaf h
  · exact hleaf h
  · cases h

theorem Result.eq_success_of_map {α β : Type} {f : α → β} {r : Result α} {v : β} {hint : Hint}
    (h : r.map f = .success v hint) : ∃ u, r = .success u hint ∧ f u = v := by
  cases r <;> cases h
  exact ⟨_, rfl, rfl⟩

/-- The values of the parts are kept: none is replaced, and a default is no value. -/
def Parser.Collecting : Parser → Prop
  | .map .. => False
  | .opt default _ => default = .null
  | _ => True

namespace Action

variable {α : Type} {p : Action Input Value} {ps : List (Action Input Value)}

/-- A success holds in its value the tokens that were read for it. -/
def Collects (leaves : α → List Token) (a : Action Input α) : Prop :=
  ∀ ⦃s s' v hint⦄, a s = (.success v hint, s') → s.source.Reads (leaves v) s'.source

theorem collects_abort (f : Fault) : Collects Value.leaves (abort f) := by
  intro s s' v hint h
  cases h

theorem collects_token (m : Matcher) : Collects Value.leaves (token m) := by
  intro s s' v hint h
  simp only [token] at h
  split at h
  · rename_i u hu
    cases h
    obtain ⟨t, ht, hv⟩ := Option.bind_eq_some_iff.1 hu
    rw [m.leaves_of_accept hv]
    exact .next ht (.refl _)
  · cases h

theorem collects_eof : Collects Value.leaves eof := by
  intro s s' v hint h
  unfold eof at h
  split at h
  · cases h
    exact .refl _
  · cases h

theorem collects_sequenceFrom (hps : ∀ p ∈ ps, Collects Value.leaves p) (start : Int)
    (hint : Hint) : Collects Value.leavesOf (sequenceFrom start ps hint) := by
  induction ps generalizing hint with
  | nil =>
    intro s s' v hint h
    cases h
    exact .refl _
  | cons p ps ih =>
    obtain ⟨hp, hps⟩ := List.forall_mem_cons.1 hps
    intro s s' vs hint' h
    simp only [sequenceFrom] at h
    split at h
    · rename_i v new t ht
      obtain ⟨us, hus, rfl⟩ := Result.eq_success_of_map (congrArg Prod.fst h)
      cases congrArg Prod.snd h
      exact (hp ht).append (ih hps _ (Prod.ext hus rfl))
    · cases h
    · cases h

theorem collects_sequence (hps : ∀ p ∈ ps, Collects Value.leaves p) :
    Collects Value.leaves (sequence ps) := by
  intro s s' v hint h
  obtain ⟨us, hus, rfl⟩ := Result.eq_success_of_map (congrArg Prod.fst h)
  cases congrArg Prod.snd h
  exact collects_sequenceFrom hps _ none (Prod.ext hus rfl)

theorem collects_choiceFrom {p : Action Input Value} {ps : List (Action Input Value)}
    (hp : Tidy p ∧ Collects Value.leaves p) (hps : ∀ q ∈ ps, Tidy q ∧ Collects Value.leaves q)
    (start : Int) (missed : Hint) : Collects Value.leaves (choiceFrom start p ps missed) := by
  intro s s' v hint h
  unfold choiceFrom at h
  split at h
  · rename_i u new t ht
    cases h
    exact hp.2 ht
  · rename_i e t ht
    split at h
    · cases h
    · rename_i hc
      have hsame : t.source = s.source := hp.1.source_eq ht (Bool.not_eq_true _ ▸ hc)
      cases ps with
      | nil => cases h
      | cons q qs =>
        obtain ⟨hq, hqs⟩ := List.forall_mem_cons.1 hps
        rw [← hsame]
        exact collects_choiceFrom hq hqs start _ h
  · cases h

theorem collects_choice (hp : Tidy p ∧ Collects Value.leaves p)
    (hps : ∀ q ∈ ps, Tidy q ∧ Collects Value.leaves q) : Collects Value.leaves (choice p ps) :=
  fun s _ _ _ h => collects_choiceFrom hp hps s.ordinal none h

theorem collects_named (label : String) (hp : Collects Value.leaves p) :
    Collects Value.leaves (named label p) := by
  intro s s' v hint h
  simp only [named] at h
  split at h
  · rename_i u new t ht
    cases h
    exact hp ht
  · split at h <;> cases h
  · exact hp h

theorem collects_manyFrom (start minimum : Int) (hp : Tidy p ∧ Collects Value.leaves p)
    (limit count : Nat) (hint : Hint) :
    Collects Value.leavesOf (manyFrom start minimum p limit count hint) := by
  induction limit generalizing count hint with
  | zero =>
    intro s s' v hint h
    cases h
  | succ limit ih =>
    intro s s' vs hint' h
    simp only [manyFrom] at h
    split at h
    · rename_i v new t ht
      split at h
      · cases h
        simpa [Value.leavesOf] using hp.2 ht
      · obtain ⟨us, hus, rfl⟩ := Result.eq_success_of_map (congrArg Prod.fst h)
        cases congrArg Prod.snd h
        exact (hp.2 ht).append (ih _ _ (Prod.ext hus rfl))
    · rename_i e t ht
      split at h
      · cases h
      · rename_i hc
        simp only [not_or, Bool.not_eq_true] at hc
        -- the round that ends the repetition read nothing, so that no leaf is lost with it
        have hsame : t.source = s.source := hp.1.source_eq ht hc.1
        cases h
        rw [hsame]
        exact .refl _
    · cases h

theorem collects_many (minimum : Int) (limit : Nat) (hp : Tidy p ∧ Collects Value.leaves p) :
    Collects Value.leaves (many minimum limit p) := by
  intro s s' v hint h
  obtain ⟨us, hus, rfl⟩ := Result.eq_success_of_map (congrArg Prod.fst h)
  cases congrArg Prod.snd h
  exact collects_manyFrom _ minimum hp limit 0 none (Prod.ext hus rfl)

theorem collects_opt (hp : Tidy p ∧ Collects Value.leaves p) :
    Collects Value.leaves (opt .null p) := by
  intro s s' v hint h
  unfold opt at h
  split at h
  · rename_i e t ht
    split at h
    · cases h
    · rename_i hc
      have hsame : t.source = s.source := hp.1.source_eq ht (Bool.not_eq_true _ ▸ hc)
      cases h
      rw [hsame]
      exact .refl _
  · exact hp.2 h

theorem collects_afterNote (f : Journal → Journal) (hp : Collects Value.leaves p) :
    Collects Value.leaves (afterNote f p) := by
  intro s s' v hint h
  exact @hp { s with journal := f s.journal } s' v hint h

theorem collects_attempt (hp : Collects Value.leaves p) : Collects Value.leaves (attempt p) := by
  intro s s' v hint h
  simp only [attempt] at h
  split at h
  · cases h
  · exact hp h

/-- Every combinator that keeps the values of its parts collects what its parts do. -/
theorem collects_stable :
    StableOn Parser.Collecting fun a => Tidy a ∧ Collects Value.leaves a where
  abort f hf := ⟨tidy_stable.abort f hf, collects_abort f⟩
  token m _ := ⟨tidy_token m, collects_token m⟩
  eof _ := ⟨tidy_eof, collects_eof⟩
  sequence hps := ⟨tidy_sequence fun p hp => (hps p hp).1, collects_sequence fun p hp => (hps p hp).2⟩
  choice hp hps := ⟨tidy_choice hp.1 fun q hq => (hps q hq).1, collects_choice hp hps⟩
  map _ _ _ hf _ := hf.elim
  named label _ _ _ hp := ⟨tidy_named label hp.1, collects_named label hp.2⟩
  many minimum limit _ hp := ⟨tidy_many minimum limit hp.1, collects_many minimum limit hp⟩
  opt default _ _ hd hp := by
    obtain rfl : default = .null := hd
    exact ⟨tidy_opt .null hp.1, collects_opt hp⟩
  attempt _ hp := ⟨tidy_attempt hp.1, collects_attempt hp.2⟩
  afterNote f _ hp := ⟨tidy_stable.afterNote f hp.1, collects_afterNote f hp.2⟩

end Action

/-- If no value is replaced on the way, the leaves of the value of a success are the tokens between
the place where the parser started and the place where it ended, and no others. -/
theorem Parser.run_leaves {trees : List TokenTree} {rules : Rules} {p : Parser}
    (hp : p.Within rules Parser.Collecting) {s s' : State Input}
    (hs : (Stream.input s.source).Reachable trees) {v : Value} {hint : Hint}
    (h : p.run rules s = (.success v hint, s')) :
    s.source.ordinal ≤ s'.source.ordinal ∧
      s'.source.ordinal ≤ (TokenStream.flatten trees).length ∧
      v.leaves = (TokenStream.flatten trees).extract s.source.ordinal s'.source.ordinal := by
  have hreads : s.source.Reads v.leaves s'.source := (Action.collects_stable.action _ _ p hp).2 h
  obtain ⟨n, hi⟩ := hs.input_at
  obtain ⟨m, hj, hle, hleaves⟩ := hreads.eq_extract hi
  rw [hi.ordinal_eq, hj.ordinal_eq]
  exact ⟨hle, hj.index_le, hleaves⟩

/-- In `a ( b ( ) ) c`, behind `a`: an attempt that reads `( b` and gives up, and a rule for nested
parentheses that calls itself. -/
theorem Parser.run_leaves_nested :
    let parens (ts : List TokenTree) : TokenTree := .group .parenthesis ts .callSite
    let trees := [.ident "a" .callSite, parens [.ident "b" .callSite, parens []],
      .ident "c" .callSite]
    let tried : Parser := .sequence [.token (.delim '('), .token .ident, .token .literal]
    let inner : Parser := .sequence [.token (.delim '('), .many 0 (.rule "item"), .token (.delim ')')]
    let rules : Rules := [("item", .ok (.choice (.token .ident) [inner]))]
    let p : Parser := .sequence [.opt .null (.attempt tried), .many 1 (.rule "item"), .eof]
    let run := p.run rules ⟨(Input.ofTrees trees).next.2, {}⟩
    ∃ v hint, run.1 = .success v hint ∧ v.leaves = (TokenStream.flatten trees).extract 1 7 := by
  intro parens trees tried inner rules p run
  have hp : p.Within rules Parser.Collecting := by
    refine Parser.Within.of_children (L := fun q => q ∈ [p, .opt .null (.attempt tried),
      .attempt tried, tried, .token (.delim '('), .token .ident, .token .literal,
      .many 1 (.rule "item"), .rule "item", .choice (.token .ident) [inner], inner,
      .many 0 (.rule "item"), .token (.delim ')'), .eof]) ?_ ?_ (List.mem_cons_self ..)
    · simp [p, tried, inner, Parser.Collecting]
    · simp [p, tried, inner, rules, Parser.children]
  have hstart : (Stream.input (.ofTrees trees)).Reachable trees := .ofTrees
  have hbegin : (Input.ofTrees trees).next.2.ordinal = 1 := by decide +kernel
  have hend : run.2.source.ordinal = 7 := by decide +kernel
  have hsuccess : run.1.ctorIdx = 0 := by decide +kernel
  cases hrun : run.1 with
  | success v hint =>
    have hleaves : v.leaves = (TokenStream.flatten trees).extract
        (Input.ofTrees trees).next.2.ordinal run.2.source.ordinal :=
      (run_leaves hp hstart.next (Prod.ext hrun rfl)).2.2
    rw [hbegin, hend] at hleaves
    exact ⟨v, hint, rfl, hleaves⟩
  | _ => simp [hrun, Result.ctorIdx] at hsuccess

end TokenParsing
