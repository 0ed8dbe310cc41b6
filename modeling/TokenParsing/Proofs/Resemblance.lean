import TokenParsing.Proofs.Likeness
import TokenParsing.Proofs.Lookahead

/-!
# A parse depends on the tokens alone

Trees that read as the same tokens are parsed alike, however their tokens are grouped, spaced and
placed (`Parser.run_sameTokens`): the values are equal, or the failures tell the same, and the same
tokens are left. The functions that values are mapped with have to respect equality, as those of the
combinators do (`Value.respects_consList`).

Inputs on such trees have different levels all along, so they are compared at the same place of their
flat views (`Input.sameTokens`).
-/

namespace TokenParsing

open List (Forall₂)

mutual

/-- Are two values equal? Trees are compared without their spans and tokens by kind and text, and a
truth value equals the number one or zero. -/
def Value.same : Value → Value → Bool
  | .null, .null => true
  | .bool a, .bool b => a == b
  | .int m, .int n => m == n
  | .bool a, .int n => n == (if a then 1 else 0)
  | .int n, .bool a => n == (if a then 1 else 0)
  | .text a, .text b => a == b
  | .tree t, .tree u => t.same u
  | .token t, .token u => t.same u
  | .tuple vs, .tuple ws => Value.allSame vs ws
  | .list vs, .list ws => Value.allSame vs ws
  | _, _ => false

def Value.allSame : List Value → List Value → Bool
  | [], [] => true
  | v :: vs, w :: ws => v.same w && Value.allSame vs ws
  | _, _ => false

end

theorem Token.same_refl (t : Token) : t.same t = true := by simp [same]

mutual

theorem TokenTree.same_refl : ∀ t : TokenTree, t.same t = true
  | .ident .. | .literal .. | .punct .. => by simp [TokenTree.same]
  | .group d ts _ => by simp [TokenTree.same, TokenStream.same_refl ts]

theorem TokenStream.same_refl : ∀ ts : List TokenTree, TokenStream.same ts ts = true
  | [] => by simp [TokenStream.same]
  | t :: ts => by simp [TokenStream.same, t.same_refl, TokenStream.same_refl ts]

end

mutual

theorem Value.same_refl : ∀ v : Value, v.same v = true
  | .null | .bool _ | .int _ | .text _ => by simp [Value.same]
  | .tree t => by simp [Value.same, t.same_refl]
  | .token t => by simp [Value.same, t.same_refl]
  | .tuple vs | .list vs => by simp [Value.same, Value.allSame_refl vs]

theorem Value.allSame_refl : ∀ vs : List Value, Value.allSame vs vs = true
  | [] => by simp [Value.allSame]
  | v :: vs => by simp [Value.allSame, v.same_refl, Value.allSame_refl vs]

end

theorem Value.allSame_iff {vs ws : List Value} :
    allSame vs ws = true ↔ Forall₂ (fun v w => v.same w) vs ws := by
  induction vs generalizing ws with
  | nil => cases ws <;> simp [allSame]
  | cons v vs ih => cases ws <;> simp [allSame, ih]

/-! ### Functions that respect equality -/

namespace Value

/-- Equal values go to equal values, or for both the function raises the same. -/
def Respects (f : Value → Except ValueError Value) : Prop :=
  ∀ {v w : Value}, v.same w → (∃ v' w', f v = .ok v' ∧ f w = .ok w' ∧ v'.same w') ∨
    ∃ e, f v = .error e ∧ f w = .error e

variable {v w : Value}

theorem elements?_same (h : v.same w) :
    Option.Rel (Forall₂ fun v w => v.same w) v.elements? w.elements? := by
  unfold same at h
  split at h <;> first | exact .none | exact .some (allSame_iff.1 h) | cases h

theorem respects_element (n : Nat) : Respects (element n) := by
  intro v w h
  have helements : Forall₂ (fun v w => v.same w) (v.elements?.getD []) (w.elements?.getD []) := by
    match v.elements?, w.elements?, elements?_same h with
    | _, _, .none => exact .nil
    | _, _, .some h => exact h
  unfold element
  match (v.elements?.getD [])[n]?, (w.elements?.getD [])[n]?, rel_getElem? helements n with
  | _, _, .none => exact .inr ⟨_, rfl, rfl⟩
  | _, _, .some h => exact .inl ⟨_, _, rfl, rfl, h⟩

theorem respects_consList : Respects consList := by
  intro v w h
  unfold consList
  rcases respects_element 0 h with ⟨v₀, w₀, hv, hw, h₀⟩ | ⟨e, hv, hw⟩
  · rcases respects_element 1 h with ⟨v₁, w₁, hv', hw', h₁⟩ | ⟨e, hv', hw'⟩
    · rw [hv, hw, hv', hw']
      unfold same at h₁
      split at h₁
      case h_10 vs ws =>
        exact .inl ⟨_, _, rfl, rfl, by simpa [same, allSame] using ⟨h₀, h₁⟩⟩
      all_goals first | exact .inr ⟨_, rfl, rfl⟩ | cases h₁
    · rw [hv, hw, hv', hw']
      exact .inr ⟨_, rfl, rfl⟩
  · rw [hv, hw]
    exact .inr ⟨_, rfl, rfl⟩

theorem respects_orEmpty : Respects (.ok ·.orEmpty) := by
  intro v w h
  refine .inl ⟨_, _, rfl, rfl, ?_⟩
  unfold same at h
  split at h
  case h_1 => exact same_refl _
  all_goals first | exact h | cases h

end Value

/-- The function of a parser that maps values respects equality. -/
def Parser.Respectful : Parser → Prop
  | .map f _ => Value.Respects f
  | _ => True

/-! ### Failures and ends of runs that tell the same -/

/-- The failures are at the same place, and tell the same but for spans. -/
structure Failure.Alike (e f : Failure) : Prop where
  ordinal : e.ordinal = f.ordinal
  unexpected : Option.Rel (fun t u => t.same u) e.unexpected f.unexpected
  expected : e.expected = f.expected
  committed : e.committed = f.committed

theorem Failure.Alike.merge {e f e' f' : Failure} (h : e.Alike f) (h' : e'.Alike f') :
    (e.merge e').Alike (f.merge f') := by
  unfold Failure.merge
  rw [h.ordinal, h'.ordinal, h.expected, h'.expected, h.committed, h'.committed]
  split
  · exact h'
  · split
    · exact h
    · exact ⟨h.ordinal, h.unexpected, rfl, rfl⟩

/-- Equal values with like hints, like failures, or the same abort. -/
inductive Result.Alike : Result Value → Result Value → Prop
  | success {v w : Value} {h k : Hint} (hv : v.same w) (hk : Option.Rel Failure.Alike h k) :
    Alike (.success v h) (.success w k)
  | failure {e f : Failure} (h : e.Alike f) : Alike (.failure e) (.failure f)
  | abort (f : Fault) : Alike (.abort f) (.abort f)

/-- What two runs leave to be seen is the same but for spans, spacing and grouping. -/
structure Observation.Alike (x y : Observation Value) : Prop where
  result : x.result.Alike y.result
  journal : x.journal = y.journal
  ordinal : x.position.ordinal = y.position.ordinal
  tokens : Forall₂ (fun t u => t.same u) x.tokens y.tokens

/-! ### Inputs with the same tokens -/

theorem Matcher.accept_same (m : Matcher) {t u : Token} (h : t.same u) :
    Option.Rel (fun v w => v.same w) (m.accept t) (m.accept u) := by
  have hif {c : Prop} [Decidable c] : Option.Rel (fun v w : Value => v.same w)
      (if c then some (.token t) else none) (if c then some (.token u) else none) := by
    split
    · exact .some (by simpa [Value.same] using h)
    · exact .none
  -- Tokens that are the same are of one kind and read the same, which is all a matcher looks at.
  cases t <;> cases u <;> simp [Token.same, Token.kind, Token.text] at h <;> subst h <;> cases m <;>
    first
    | exact .none
    | exact hif
    | exact .some (by simp [Value.same, TokenTree.same])

namespace Input

variable {T U : List Token} {i j : Input} {n : Nat}

theorem At.next_rel (hTU : Forall₂ (fun t u => t.same u) T U) (hi : i.At ⟨T, n⟩)
    (hj : j.At ⟨U, n⟩) : Option.Rel (fun t u => t.same u) i.next.1 j.next.1 := by
  rw [hi.next.1, hj.next.1, Cursor.next_fst, Cursor.next_fst]
  exact rel_getElem? hTU n

/-- Inputs at the same place of token lists that are the same. -/
def sameTokens (hTU : Forall₂ (fun t u => t.same u) T U) : Likeness where
  inputs i j := ∃ n, i.At ⟨T, n⟩ ∧ j.At ⟨U, n⟩
  values v w := v.same w
  failures := Failure.Alike
  ordinal_eq := by
    rintro i j ⟨n, hi, hj⟩
    rw [hi.ordinal_eq, hj.ordinal_eq]
  isEmpty_eq := by
    rintro i j ⟨n, hi, hj⟩
    rw [hi.isEmpty_eq, hj.isEmpty_eq, hTU.length_eq]
  remaining_eq := by
    rintro i j ⟨n, hi, hj⟩
    rw [hi.remaining_eq, hj.remaining_eq, hTU.length_eq]
  next := by
    rintro i j ⟨n, hi, hj⟩
    rcases Nat.lt_or_ge n T.length with hn | hn
    · exact ⟨n + 1, (hi.next_of_lt hn).2, (hj.next_of_lt (hTU.length_eq ▸ hn)).2⟩
    · rw [hi.next_of_le hn, hj.next_of_le (hTU.length_eq ▸ hn)]
      exact ⟨n, hi, hj⟩
  accept := by
    rintro i j ⟨n, hi, hj⟩ m
    match i.next.1, j.next.1, hi.next_rel hTU hj with
    | _, _, .none => exact .none
    | _, _, .some h => exact m.accept_same h
  refuse := by
    rintro i j ⟨n, hi, hj⟩ label
    refine ⟨?_, hi.next_rel hTU hj, rfl, rfl⟩
    rw [Failure.ordinal, Failure.ordinal, hi.position_eq, hj.position_eq]
    rfl
  refl := Value.same_refl
  tuple h := by
    rw [Value.same]
    exact Value.allSame_iff.2 h
  list h := by
    rw [Value.same]
    exact Value.allSame_iff.2 h
  place_eq h := h.ordinal
  committed_eq h := h.committed
  merge h h' := h.merge h'
  withCommitted h _ := ⟨h.ordinal, h.unexpected, h.expected, rfl⟩
  excused _ := False

variable {hTU : Forall₂ (fun t u => t.same u) T U}

/-- Every combinator keeps runs on the same tokens alike, as far as functions respect equality. -/
theorem sameTokens_congruence :
    Action.Congruence Parser.Respectful ((sameTokens hTU).Lifts (sameTokens hTU).values) where
  abort f _ _ _ hst := .abort f hst
  token m _ := .token m
  eof _ := .eof
  sequence := .sequence
  choice := .choice
  map _ _ _ _ hf := .map hf
  named label _ _ _ _ := .named label fun h => ⟨h.ordinal, h.unexpected, rfl, h.committed⟩
  many minimum limit _ _ := .many minimum limit
  opt default _ _ _ _ := .opt default
  attempt _ := .attempt
  afterNote note _ _ := .afterNote note

theorem sameTokens_observe (hTU : Forall₂ (fun t u => t.same u) T U)
    {x y : Result Value × State Input}
    (h : (sameTokens hTU).Agrees (sameTokens hTU).values x y) : (observe x).Alike (observe y) := by
  have hrest {s t : State Input} (hst : (sameTokens hTU).Beside s t) {r r' : Result Value}
      (hr : r.Alike r') : (observe (r, s)).Alike (observe (r', t)) := by
    obtain ⟨n, hi, hj⟩ := hst.inputs
    refine ⟨hr, hst.journal, hst.ordinal_eq, ?_⟩
    show Forall₂ _ (TokenSource.drain s.source).1 (TokenSource.drain t.source).1
    rw [hi.drain, hj.drain]
    exact List.forall₂_drop n hTU
  cases h with
  | success hv hk hst => exact hrest hst (.success hv hk)
  | failure hf hst => exact hrest hst (.failure hf)
  | abort f hst => exact hrest hst (.abort f)
  | excused hf => exact hf.elim

end Input

/-- On trees with the same tokens a parser leaves the same to be seen, but for spans, spacing and
grouping, if the functions it maps values with respect equality. -/
theorem Parser.run_sameTokens {trees₁ trees₂ : List TokenTree}
    (h : Forall₂ (fun t u => t.same u) (TokenStream.flatten trees₁) (TokenStream.flatten trees₂))
    {rules : Rules} {p : Parser} (hp : p.Within rules Parser.Respectful) (journal : Journal) :
    (observe (p.run rules ⟨Input.ofTrees trees₁, journal⟩)).Alike
      (observe (p.run rules ⟨Input.ofTrees trees₂, journal⟩)) := by
  have hinputs : (Input.sameTokens h).inputs (Input.ofTrees trees₁) (Input.ofTrees trees₂) :=
    ⟨0, Input.at_ofTrees trees₁, Input.at_ofTrees trees₂⟩
  have hlimit : TokenSource.remaining (Input.ofTrees trees₁) =
      TokenSource.remaining (Input.ofTrees trees₂) := (Input.sameTokens h).remaining_eq hinputs
  refine Input.sameTokens_observe h ?_
  simp only [Parser.run, hlimit]
  exact Input.sameTokens_congruence.action (Input.sameTokens_congruence.call _ _) _ p hp
    ⟨hinputs, rfl⟩

/-- The list of `a` and `b` is read from `[ a , b ] c`, once without invisible groups and once with many of
them, empty ones among them, and with other spans and another spacing. -/
theorem Parser.run_sameTokens_list :
    let brackets : Span := ⟨"<input>", 1, 1, 1, 7, ""⟩
    let hidden (ts : List TokenTree) : TokenTree := .group .invisible ts .callSite
    let trees₁ : List TokenTree := [.group .bracket [.ident "a" brackets, .punct ',' .joint brackets,
      .ident "b" brackets] brackets, .ident "c" brackets]
    let trees₂ : List TokenTree := [hidden [], hidden [.group .bracket [hidden [.ident "a" .callSite,
      hidden [hidden []]], .punct ',' .alone .callSite, hidden [.ident "b" .callSite]] .callSite],
      .ident "c" .callSite, hidden []]
    let rules : Rules := [("item", .ok (.choice (.token .ident) [.token .literal]))]
    let p : Parser := .between (.token (.delim '[')) (.token (.delim ']'))
      (.sepBy (.rule "item") (.token (.punct ',')))
    Forall₂ (fun t u => t.same u) (TokenStream.flatten trees₁) (TokenStream.flatten trees₂) ∧
      (∃ v hint, (p.run rules ⟨Input.ofTrees trees₁, {}⟩).1 = .success v hint ∧
        v.same (.list [.tree (.ident "a" brackets), .tree (.ident "b" brackets)]) = true) ∧
      (observe (p.run rules ⟨Input.ofTrees trees₁, {}⟩)).Alike
        (observe (p.run rules ⟨Input.ofTrees trees₂, {}⟩)) := by
  intro brackets hidden trees₁ trees₂ rules p
  have hvalue : (match (p.run rules ⟨Input.ofTrees trees₁, {}⟩).1 with
      | .success v _ => v.same (.list [.tree (.ident "a" brackets), .tree (.ident "b" brackets)])
      | .failure _ => false
      | .abort _ => false) = true := by decide +kernel
  obtain ⟨v, hint, hrun, hv⟩ : ∃ v hint, (p.run rules ⟨Input.ofTrees trees₁, {}⟩).1 = .success v hint ∧
      v.same (.list [.tree (.ident "a" brackets), .tree (.ident "b" brackets)]) = true := by
    split at hvalue
    · exact ⟨_, _, ‹_›, hvalue⟩
    · cases hvalue
    · cases hvalue
  have h : Forall₂ (fun t u => t.same u) (TokenStream.flatten trees₁)
      (TokenStream.flatten trees₂) := by
    simp [trees₁, trees₂, hidden, TokenTree.flatten, Delimiter.marks?, Token.same, Token.kind,
      Token.text]
  have hp : p.Within rules Parser.Respectful := by
    let item : Parser := .rule "item"
    let later : Parser := .andThen (.token (.punct ',')) item
    let items : Parser := .sequence [item, .many 0 later]
    refine Parser.Within.of_children (L := fun q => q ∈ [p, .sequence [.token (.delim '['),
      .sepBy item (.token (.punct ',')), .token (.delim ']')], .token (.delim '['),
      .token (.delim ']'), .sepBy item (.token (.punct ',')), .opt .null (.map Value.consList items),
      .map Value.consList items, items, item, .choice (.token .ident) [.token .literal], .token .ident,
      .token .literal, .many 0 later, later, .sequence [.token (.punct ','), item],
      .token (.punct ',')]) ?_ ?_ (List.mem_cons_self ..)
    · simp [p, later, items, item, Parser.Respectful, Parser.between, Parser.sepBy, Parser.andThen,
        Value.respects_element, Value.respects_consList, Value.respects_orEmpty]
    · simp [p, later, items, item, rules, Parser.children, Parser.between, Parser.sepBy,
        Parser.andThen, Parser.append]
  exact ⟨h, ⟨v, hint, hrun, hv⟩, run_sameTokens h hp {}⟩

end TokenParsing
