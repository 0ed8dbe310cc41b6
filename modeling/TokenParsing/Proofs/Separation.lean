import TokenParsing.Proofs.Juxtaposition

/-!
# Parsers with separators between them

A separated parser is built from an option, a repetition, a sequence and two functions on their values.
What it does is one thing all the same: the body, and then a separator and a body as often as they
succeed (`Action.Separated`, `Parser.run_sepBy`). No separator is read behind the last body, since the
failure of a body behind a separator that has read something is committed, and neither the repetition
nor the option goes on after it.

A sequence as the body gives its values to the sequence that it becomes a part of, and so does one in
front of what stands between two parsers. What is taken out of these sequences is then some other value
(`Parser.run_between_sepBy`).
-/

namespace TokenParsing

namespace Action

variable {tokens : List Token} {n : Nat} {body separator : Action Input Value} {s s' : State Input}

/-! ### The rounds of a repetition -/

theorem Repeats.exists_at (hbody : Steady tokens body) {vs : List Value} (h : Repeats body vs s s')
    (hs : s.source.At ⟨tokens, n⟩) : ∃ m, n + vs.length ≤ m ∧ s'.source.At ⟨tokens, m⟩ := by
  induction h generalizing n with
  | nil s => exact ⟨n, Nat.le_refl n, hs⟩
  | @cons v vs hint s s₁ s' h hread _ ih =>
    rcases hbody.success hs h with heq | ⟨k, hlt, hk⟩
    · simp only [State.ordinal, heq, lt_irrefl] at hread
    · obtain ⟨m, hle, hm⟩ := ih hk
      exact ⟨m, by rw [List.length_cons]; omega, hm⟩

theorem exists_repeats (hbody : Steady tokens body) (hs : s.source.At ⟨tokens, n⟩) :
    ∃ vs s₁, Repeats body vs s s₁ ∧ Idles body s₁ := by
  induction hleft : tokens.length - n using Nat.strong_induction_on generalizing n s with
  | _ left ih =>
    by_cases hidle : body.Idles s
    · exact ⟨[], s, .nil s, hidle⟩
    · simp only [Idles, not_forall] at hidle
      obtain ⟨v, new, s₁, h, hne⟩ := hidle
      rcases hbody.success hs h with heq | ⟨m, hlt, hm⟩
      · exact absurd (by simp only [State.ordinal, heq]) hne
      · have hle : m ≤ tokens.length := hm.index_le
        obtain ⟨vs, s₂, hrepeats, hidle⟩ := ih _ (by omega) hm rfl
        exact ⟨v :: vs, s₂, .cons h ((hbody.tidy.ordinal_cases h).resolve_right hne) hrepeats, hidle⟩

/-- Rounds that read and an idle one behind them are all that a repetition does. -/
theorem manyFrom_of_repeats (start minimum : Int) {vs : List Value} (h : Repeats body vs s s')
    (hidle : Idles body s') {limit : Nat} (hlimit : vs.length < limit) (count : Nat) (hint : Hint) :
    ∃ hint', manyFrom start minimum body limit count hint s =
      let last := lastRound start minimum (count + vs.length) hint' (body s')
      (last.1.map (vs ++ ·), last.2) := by
  induction h generalizing limit count hint with
  | nil s =>
    obtain ⟨limit, rfl⟩ := Nat.exists_eq_succ_of_ne_zero (Nat.ne_of_gt hlimit)
    refine ⟨hint, ?_⟩
    rw [manyFrom_of_idles hidle]
    generalize lastRound _ _ _ _ _ = last
    obtain ⟨_ | _ | _, t⟩ := last <;> rfl
  | @cons v vs new s s₁ s' h hread _ ih =>
    rw [List.length_cons] at hlimit
    obtain ⟨limit, rfl⟩ := Nat.exists_eq_succ_of_ne_zero (Nat.ne_of_gt (Nat.zero_lt_of_lt hlimit))
    obtain ⟨hint', heq⟩ := ih hidle (show vs.length < limit by omega) (count + 1) new
    refine ⟨hint', ?_⟩
    rw [manyFrom_of_reads h (by omega), heq, List.length_cons, Nat.add_right_comm, Nat.add_assoc]
    generalize lastRound _ _ _ _ _ = last
    obtain ⟨_ | _ | _, t⟩ := last <;> rfl

/-! ### A separator and a body -/

/-- An action and another one behind it, for the value of the second. -/
def andThen (first second : Action Input Value) : Action Input Value :=
  map (Value.element 1) (sequence [first, second])

theorem andThen_run (hsep : Tidy separator) (body : Action Input Value) (s : State Input) :
    andThen separator body s = behind (fun _ v => v) separator body s := by
  simp only [andThen, Action.map, sequence, sequenceFrom, behind]
  generalize h : separator s = first
  obtain ⟨w | e | f, s₁⟩ := first
  · simp only [Hint.none_merge, ite_self]
    generalize body s₁ = second
    obtain ⟨v | e | f, s₂⟩ := second <;> rfl
  · simp only [Failure.withHint_none, hsep.commitIf_eq h, Result.map]
  · rfl

/-- The separator and the body take turns, as often as there are values of the body. The tokens are those
that both of them read. -/
inductive Separated (body separator : Action Input Value) :
    List Token → List Value → State Input → State Input → Prop
  | nil (s : State Input) : Separated body separator [] [] s s
  | cons {us ts rest : List Token} {w v : Value} {vs : List Value} {s s₁ s₂ s' : State Input}
    (hsep : separator.Takes us w s s₁) (hbody : body.Takes ts v s₁ s₂)
    (hrest : Separated body separator rest vs s₂ s') :
    Separated body separator (us ++ ts ++ rest) (v :: vs) s s'

theorem Separated.tokens_eq {ts : List Token} {vs : List Value}
    (h : Separated body separator ts vs s s') : s.source.tokens = ts ++ s'.source.tokens := by
  induction h with
  | nil => rfl
  | cons hsep hbody _ ih =>
    rw [hsep.tokens_eq, hbody.tokens_eq, ih, List.append_assoc, List.append_assoc]

theorem Separated.append {ts us : List Token} {vs ws : List Value} {s'' : State Input}
    (h : Separated body separator ts vs s s') (h' : Separated body separator us ws s' s'') :
    Separated body separator (ts ++ us) (vs ++ ws) s s'' := by
  induction h with
  | nil => exact h'
  | cons hsep hbody _ ih =>
    rw [List.append_assoc, List.cons_append]
    exact .cons hsep hbody (ih h')

theorem separated_of_andThen (hsep : Steady tokens separator) (hbody : Steady tokens body)
    (hs : s.source.At ⟨tokens, n⟩) {v : Value} {hint : Hint}
    (h : andThen separator body s = (.success v hint, s')) :
    ∃ ts m, n ≤ m ∧ s'.source.At ⟨tokens, m⟩ ∧ Separated body separator ts [v] s s' := by
  rw [andThen_run hsep.tidy] at h
  obtain ⟨us, w, s₁, ts, v, m, htakes, htakes', rfl, hm, hplace⟩ := behind_takes hsep hbody hs h
  exact ⟨_, m, hm, hplace, .cons htakes htakes' (.nil s')⟩

theorem Repeats.separated (hsep : Steady tokens separator) (hbody : Steady tokens body)
    {vs : List Value} (h : Repeats (andThen separator body) vs s s') (hs : s.source.At ⟨tokens, n⟩) :
    ∃ ts m, n ≤ m ∧ s'.source.At ⟨tokens, m⟩ ∧ Separated body separator ts vs s s' := by
  induction h generalizing n with
  | nil s => exact ⟨[], n, Nat.le_refl n, hs, .nil s⟩
  | cons h _ _ ih =>
    obtain ⟨ts, k, hk, hplace, hfirst⟩ := separated_of_andThen hsep hbody hs h
    obtain ⟨us, m, hm, hplace', hrest⟩ := ih hplace
    exact ⟨ts ++ us, m, Nat.le_trans hk hm, hplace', hfirst.append hrest⟩

/-- What a repetition of the two comes to. -/
theorem many_andThen (hsep : Steady tokens separator) (hbody : Steady tokens body)
    (hround : Steady tokens (andThen separator body)) (hs : s.source.At ⟨tokens, n⟩) {limit : Nat}
    (hlimit : tokens.length < n + limit) :
    match many 0 limit (andThen separator body) s with
    | (.success v _, s') =>
      ∃ ts vs s₁, v = .list vs ∧ Separated body separator ts vs s s₁ ∧ s'.source = s₁.source
    | (.failure e, _) => e.committed = true
    | (.abort f, s') =>
      ∃ ts vs s₁, Separated body separator ts vs s s₁ ∧ Interrupts separator body f s₁ s' := by
  obtain ⟨vs, s₁, hrepeats, hidle⟩ := exists_repeats hround hs
  obtain ⟨k, hle, hk⟩ := hrepeats.exists_at hround hs
  have hbound : k ≤ tokens.length := hk.index_le
  obtain ⟨ts, m, -, hplace, hseparated⟩ := Repeats.separated hsep hbody hrepeats hs
  obtain ⟨hint, heq⟩ := manyFrom_of_repeats s.ordinal 0 hrepeats hidle
    (show vs.length < limit by omega) 0 none
  simp only [many, heq]
  -- all rounds so far have read something; what the last one comes to decides the rest
  generalize h : andThen separator body s₁ = last
  obtain ⟨⟨v, new⟩ | e | f, s₂⟩ := last
  · obtain ⟨us, -, -, -, hlast⟩ := separated_of_andThen hsep hbody hplace h
    exact ⟨_, _, s₂, rfl, hseparated.append hlast, rfl⟩
  · have hcount : ¬((0 + vs.length : Nat) : Int) < 0 := by omega
    by_cases hc : e.committed = true
    · simp only [lastRound, if_pos (show e.committed = true ∨ _ from .inl hc), Result.map,
        Failure.commitIf_of_committed hc]
      exact hc
    · simp only [lastRound, if_neg (not_or.2 ⟨hc, hcount⟩), Result.map, List.append_nil]
      exact ⟨ts, vs, s₁, rfl, hseparated, hround.tidy.source_eq h (by simpa using hc)⟩
  · exact ⟨ts, vs, s₁, hseparated, interrupts_of_behind hsep hplace (andThen_run hsep.tidy body s₁ ▸ h)⟩

end Action

namespace Value

theorem element_tuple (n : Nat) (vs : List Value) :
    (tuple vs).element n = match vs[n]? with | some v => .ok v | none => .error .missingElement := rfl

theorem consList_eq_ok {vs : List Value} {u : Value} :
    (tuple vs).consList = .ok u ↔ ∃ first others,
      vs[0]? = some first ∧ vs[1]? = some (.list others) ∧ u = .list (first :: others) := by
  constructor
  · intro h
    simp only [consList, element_tuple] at h
    rcases h₀ : vs[0]? with _ | first
    · rw [h₀] at h
      cases h
    · rw [h₀] at h
      rcases h₁ : vs[1]? with _ | second
      · rw [h₁] at h
        cases h
      · rw [h₁] at h
        cases second <;> cases h
        exact ⟨_, _, rfl, rfl, rfl⟩
  · rintro ⟨first, others, h₀, h₁, rfl⟩
    simp only [consList, element_tuple, h₀, h₁]
    rfl

end Value

namespace Parser

variable {rules : Rules} {source : Input} {body separator : Parser} {s s₁ s₂ : State Input}

theorem actionFrom_andThen (first second : Parser) :
    (first.andThen second).actionFrom rules source =
      Action.andThen (first.actionFrom rules source) (second.actionFrom rules source) := rfl

theorem actionFrom_sepBy (body separator : Parser) (s : State Input) :
    (body.sepBy separator).actionFrom rules source s =
      Action.map (.ok ·.orEmpty) (Action.opt .null (Action.map Value.consList
        ((body.append (.many 0 (separator.andThen body))).actionFrom rules source))) s := rfl

/-! ### What becomes of a separated parser -/

section

variable {v : Value} {hint : Hint} (h : body.actionFrom rules source s = (.success v hint, s₁))
include h

theorem sepBy_of_success {w : Value} {new : Hint}
    (hrest : (many 0 (separator.andThen body)).actionFrom rules source s₁ = (.success w new, s₂)) :
    ∃ hint', (body.sepBy separator).actionFrom rules source s =
      match (Value.tuple (body.spread v ++ [w])).consList with
      | .ok u => (.success u hint', s₂)
      | .error e => (.abort (.value e), s₂) := by
  refine ⟨if s₁.ordinal < s₂.ordinal then new else hint.merge new, ?_⟩
  simp only [actionFrom_sepBy, Action.map, Action.opt, append_run, Action.behind, h, hrest]
  rcases hcons : (Value.tuple (body.spread v ++ [w])).consList with e | u
  · rfl
  · obtain ⟨first, others, -, -, rfl⟩ := Value.consList_eq_ok.1 hcons
    rfl

theorem sepBy_of_rest_failure {e : Failure}
    (hrest : (many 0 (separator.andThen body)).actionFrom rules source s₁ = (.failure e, s₂))
    (hc : e.committed = true) :
    (body.sepBy separator).actionFrom rules source s = (.failure e, s₂) := by
  simp only [actionFrom_sepBy, Action.map, Action.opt, append_run, Action.behind, h, hrest,
    Failure.withHint_of_committed hc, Failure.commitIf_of_committed hc, hc, if_true]

theorem sepBy_of_rest_abort {f : Fault}
    (hrest : (many 0 (separator.andThen body)).actionFrom rules source s₁ = (.abort f, s₂)) :
    (body.sepBy separator).actionFrom rules source s = (.abort f, s₂) := by
  simp only [actionFrom_sepBy, Action.map, Action.opt, append_run, Action.behind, h, hrest]

end

theorem sepBy_of_failure {e : Failure} (h : body.actionFrom rules source s = (.failure e, s₁)) :
    (body.sepBy separator).actionFrom rules source s =
      if e.committed then (.failure e, s₁) else (.success (.list []) (some e), s₁) := by
  simp only [actionFrom_sepBy, Action.map, Action.opt, append_run, Action.behind, h]
  by_cases hc : e.committed = true
  · simp only [hc, if_true]
  · simp only [if_neg hc]
    rfl

theorem sepBy_of_abort {f : Fault} (h : body.actionFrom rules source s = (.abort f, s₁)) :
    (body.sepBy separator).actionFrom rules source s = (.abort f, s₁) := by
  simp only [actionFrom_sepBy, Action.map, Action.opt, append_run, Action.behind, h]

/-- What a separated parser comes to. -/
theorem sepBy_cases (rules : Rules) (body separator : Parser) {s : State Input} {tokens : List Token}
    {n : Nat} (hs : s.source.At ⟨tokens, n⟩) :
    let act (p : Parser) := p.actionFrom rules s.source
    match (body.sepBy separator).run rules s with
    | (.success v _, s') =>
      (v = .list [] ∧ s'.source = s.source ∧ ∃ e, act body s = (.failure e, s')) ∨
        ∃ ts₀ v₀ s₁ ts vs s₂, (act body).Takes ts₀ v₀ s s₁ ∧
          Action.Separated (act body) (act separator) ts vs s₁ s₂ ∧ s'.source = s₂.source ∧
          (Value.tuple (body.spread v₀ ++ [.list vs])).consList = .ok v
    | (.failure e, _) => e.committed = true
    | (.abort f, s') =>
      act body s = (.abort f, s') ∨
        ∃ ts₀ v₀ s₁ ts vs s₂, (act body).Takes ts₀ v₀ s s₁ ∧
          Action.Separated (act body) (act separator) ts vs s₁ s₂ ∧
          (Action.Interrupts (act separator) (act body) f s₂ s' ∨
            ∃ e, f = .value e ∧
              (Value.tuple (body.spread v₀ ++ [.list vs])).consList = .error e) := by
  intro act
  have hsteady (p : Parser) : Action.Steady tokens (act p) := p.steady_action rules _ _ tokens
  rw [run_eq]
  rcases hfirst : act body s with ⟨v₀ | e | f, s₁⟩
  · obtain ⟨m, hm, hplace, htakes⟩ := (hsteady body).takes hs hfirst
    -- more repetitions are allowed than tokens are left, so the limit is never met
    have hlimit : tokens.length < m + (TokenSource.remaining s.source + 1) := by
      have hremaining : TokenSource.remaining s.source = tokens.length - n := hs.remaining_eq
      omega
    have hrest := Action.many_andThen (hsteady separator) (hsteady body)
      (hsteady (separator.andThen body)) hplace hlimit
    rw [← actionFrom_andThen, ← actionFrom_many] at hrest
    rcases hmany : (many 0 (separator.andThen body)).actionFrom rules s.source s₁ with
      ⟨w | e | f, s₂⟩
    · rw [hmany] at hrest
      obtain ⟨ts, vs, s₃, rfl, hseparated, heq⟩ := hrest
      obtain ⟨hint, hrun⟩ := sepBy_of_success hfirst hmany
      rcases hcons : (Value.tuple (body.spread v₀ ++ [.list vs])).consList with e | u
      · rw [hrun, hcons]
        exact .inr ⟨_, v₀, s₁, ts, vs, s₃, htakes, hseparated, .inr ⟨e, rfl, hcons⟩⟩
      · rw [hrun, hcons]
        exact .inr ⟨_, v₀, s₁, ts, vs, s₃, htakes, hseparated, heq, hcons⟩
    · rw [hmany] at hrest
      rw [sepBy_of_rest_failure hfirst hmany hrest]
      exact hrest
    · rw [hmany] at hrest
      obtain ⟨ts, vs, s₃, hseparated, hinterrupts⟩ := hrest
      rw [sepBy_of_rest_abort hfirst hmany]
      exact .inr ⟨_, v₀, s₁, ts, vs, s₃, htakes, hseparated, .inl hinterrupts⟩
  · rw [sepBy_of_failure hfirst]
    by_cases hc : e.committed = true
    · rw [if_pos hc]
      exact hc
    · rw [if_neg hc]
      exact .inl ⟨rfl, (hsteady body).tidy.source_eq hfirst (by simpa using hc), e, rfl⟩
  · rw [sepBy_of_abort hfirst]
    exact .inl rfl

/-- Behind some rounds a separator reads something, and then the body fails. -/
theorem sepBy_of_trailing {tokens : List Token} {n : Nat} (hs : s.source.At ⟨tokens, n⟩)
    {v₀ w : Value} {vs : List Value} {hint₀ hint : Hint} {e : Failure} {s₁ s₂ s₃ s₄ : State Input}
    (hfirst : body.actionFrom rules s.source s = (.success v₀ hint₀, s₁))
    (hrounds : ((separator.andThen body).actionFrom rules s.source).Repeats vs s₁ s₂)
    (hsep : separator.actionFrom rules s.source s₂ = (.success w hint, s₃))
    (hread : s₂.ordinal < s₃.ordinal)
    (hlast : body.actionFrom rules s.source s₃ = (.failure e, s₄)) :
    (body.sepBy separator).run rules s = (.failure ((e.withHint hint).withCommitted true), s₄) := by
  have hsteady (p : Parser) : Action.Steady tokens (p.actionFrom rules s.source) :=
    p.steady_action rules _ _ tokens
  obtain ⟨m, hm, hplace, -⟩ := (hsteady body).takes hs hfirst
  obtain ⟨k, hk, hplace'⟩ := hrounds.exists_at (hsteady _) hplace
  -- the separator has read something, so the failure of the body is committed in its round
  have hround : (separator.andThen body).actionFrom rules s.source s₂ =
      (.failure ((e.withHint hint).withCommitted true), s₄) := by
    have hle : s₃.ordinal ≤ s₄.ordinal := by
      rcases (hsteady body).tidy.committed_cases hlast with ⟨-, hlt⟩ | ⟨-, heq⟩
      · exact hlt.le
      · exact heq.ge
    rw [actionFrom_andThen, Action.andThen_run (hsteady separator).tidy]
    simp only [Action.behind, hsep, hlast, Failure.commitIf, decide_eq_true (hread.trans_le hle), if_true]
  have hidle : ((separator.andThen body).actionFrom rules s.source).Idles s₂ := by
    intro v hint s' h
    rw [hround] at h
    cases h
  have hlength : vs.length < TokenSource.remaining s.source + 1 := by
    have hremaining : TokenSource.remaining s.source = tokens.length - n := hs.remaining_eq
    have hbound : k ≤ tokens.length := hplace'.index_le
    omega
  have hmany : (many 0 (separator.andThen body)).actionFrom rules s.source s₁ =
      (.failure ((e.withHint hint).withCommitted true), s₄) := by
    obtain ⟨hint', heq⟩ := Action.manyFrom_of_repeats s₁.ordinal 0 hrounds hidle hlength 0 none
    rw [hround, Action.lastRound, if_pos (.inl rfl)] at heq
    simp only [actionFrom_many, Action.many, heq, Result.map]
    rw [Failure.commitIf_of_committed rfl]
  rw [run_eq, sepBy_of_rest_failure hfirst hmany rfl]

/-- A separated parser takes no separator behind the last body. If it succeeds with values, it has read
what one body and then a separator and a body for each further value read, and the values are those of
the bodies. If it succeeds without values it has read nothing. And if, behind some rounds, a separator
reads something and the body fails, it fails committed. -/
theorem run_sepBy (rules : Rules) {body : Parser} (hbody : ∀ ps, body ≠ .sequence ps)
    (separator : Parser) {trees : List TokenTree} {s : State Input}
    (hs : (Stream.input s.source).Reachable trees) :
    let act (p : Parser) := p.actionFrom rules s.source
    (∀ v hint s', (body.sepBy separator).run rules s = (.success v hint, s') →
      (v = .list [] ∧ s'.source = s.source) ∨
        ∃ ts₀ v₀ s₁ ts vs s₂, v = .list (v₀ :: vs) ∧ (act body).Takes ts₀ v₀ s s₁ ∧
          Action.Separated (act body) (act separator) ts vs s₁ s₂ ∧ s'.source = s₂.source ∧
          s.source.tokens = ts₀ ++ ts ++ s'.source.tokens) ∧
      ∀ v₀ hint₀ s₁ vs s₂ w hint s₃ e s₄, act body s = (.success v₀ hint₀, s₁) →
        (act (separator.andThen body)).Repeats vs s₁ s₂ →
        act separator s₂ = (.success w hint, s₃) → s₂.ordinal < s₃.ordinal →
        act body s₃ = (.failure e, s₄) →
        ∃ e', (body.sepBy separator).run rules s = (.failure e', s₄) ∧ e'.committed = true ∧
          e'.ordinal = e.ordinal := by
  intro act
  obtain ⟨n, hs⟩ := hs.input_at
  refine ⟨fun v hint s' h => ?_, fun v₀ hint₀ s₁ vs s₂ w hint s₃ e s₄ hfirst hrounds hsep hread
    hlast => ⟨_, sepBy_of_trailing hs hfirst hrounds hsep hread hlast, rfl,
      Failure.ordinal_withHint⟩⟩
  have hcases := sepBy_cases rules body separator hs
  rw [h] at hcases
  rcases hcases with ⟨hv, heq, -⟩ | ⟨ts₀, v₀, s₁, ts, vs, s₂, hfirst, hrest, heq, hcons⟩
  · exact .inl ⟨hv, heq⟩
  · rw [spread_eq_singleton hbody] at hcons
    cases hcons
    refine .inr ⟨ts₀, v₀, s₁, ts, vs, s₂, rfl, hfirst, hrest, heq, ?_⟩
    rw [hfirst.tokens_eq, hrest.tokens_eq, heq, List.append_assoc]

/-- Identifiers with commas between them: `a , b` is split, and on `a , b ,` they fail committed. -/
theorem run_sepBy_trailing :
    let front : List TokenTree :=
      [.ident "a" .callSite, .punct ',' .alone .callSite, .ident "b" .callSite]
    let s : State Input := ⟨Input.ofTrees front, {}⟩
    let t : State Input := ⟨Input.ofTrees (front ++ [.punct ',' .alone .callSite]), {}⟩
    let body : Parser := .token .ident
    let separator : Parser := .token (.punct ',')
    (∃ ts₀ v₀ s₁ ts v₁ s₂, s.source.tokens = ts₀ ++ ts ∧
      (body.actionFrom [] s.source).Takes ts₀ v₀ s s₁ ∧
      (body.actionFrom [] s.source).Separated (separator.actionFrom [] s.source) ts [v₁] s₁ s₂) ∧
      ∃ e t', (body.sepBy separator).run [] t = (.failure e, t') ∧ e.committed = true := by
  intro front s t body separator
  have hbody (ps : List Parser) : body ≠ .sequence ps := by simp [body]
  refine ⟨?_, ?_⟩
  · have hs : (Stream.input s.source).Reachable front := .ofTrees
    obtain ⟨s', hrun, hend⟩ : ∃ s', (body.sepBy separator).run [] s =
          (.success (.list [.tree (.ident "a" .callSite), .tree (.ident "b" .callSite)]) _, s') ∧
        s'.source.tokens = [] := ⟨_, by with_unfolding_all rfl, by with_unfolding_all rfl⟩
    obtain ⟨hv, -⟩ | ⟨ts₀, v₀, s₁, ts, vs, s₂, hv, hfirst, hrest, -, hsplit⟩ :=
      (run_sepBy [] hbody separator hs).1 _ _ _ hrun
    · cases hv
    · cases hv
      rw [hend, List.append_nil] at hsplit
      exact ⟨ts₀, _, s₁, ts, _, s₂, hsplit, hfirst, hrest⟩
  · have ht : (Stream.input t.source).Reachable _ := .ofTrees
    obtain ⟨e, hrun, hc, -⟩ := (run_sepBy [] hbody separator ht).2 _ _ _ _ _ _ _ _ _ _
      (by with_unfolding_all rfl)
      (.cons (by with_unfolding_all rfl) (by with_unfolding_all decide) (.nil _))
      (by with_unfolding_all rfl) (by with_unfolding_all decide) (by with_unfolding_all rfl)
    exact ⟨e, _, hrun, hc⟩

/-! ### What becomes of a parser between two others -/

/-- Two values behind those of the parser in front, so there is always a second one. It is the first
of the two if the parser in front has one value. -/
theorem between_cases {tokens : List Token} {n : Nat} (hs : s.source.At ⟨tokens, n⟩)
    (opening closing body : Parser) :
    let act (p : Parser) := p.actionFrom rules s.source
    match (between opening closing body).run rules s with
    | (.success v _, s') =>
      ∃ us u s₁ ts w s₂ xs x, (act opening).Takes us u s s₁ ∧ (act body).Takes ts w s₁ s₂ ∧
        (act closing).Takes xs x s₂ s' ∧ (opening.spread u ++ [w, x])[1]? = some v ∧
        (opening.parts.length = 1 → v = w)
    | (.failure _, _) => True
    | (.abort f, s') =>
      act opening s = (.abort f, s') ∨
        ∃ us u s₁, (act opening).Takes us u s s₁ ∧
          (act body s₁ = (.abort f, s') ∨
            ∃ ts w s₂, (act body).Takes ts w s₁ s₂ ∧ act closing s₂ = (.abort f, s')) := by
  intro act
  have hsteady (p : Parser) : Action.Steady tokens (act p) := p.steady_action rules _ _ tokens
  have happend (p q : Parser) (s : State Input) : act (p.append q) s =
      Action.behind (fun v w => .tuple (p.spread v ++ [w])) (act p) (act q) s := append_run p q s
  have hrun : (between opening closing body).run rules s =
      Action.map (Value.element 1) (act ((opening.append body).append closing)) s := rfl
  rw [hrun, Action.map]
  rcases hall : act ((opening.append body).append closing) s with ⟨y | e | f, s'⟩
  · rw [happend] at hall
    obtain ⟨_, _, s₂, xs, x, _, ⟨⟨_, hfront⟩, -⟩, hclosing, rfl, -, -⟩ :=
      Action.behind_takes (hsteady _) (hsteady closing) hs hall
    rw [happend] at hfront
    obtain ⟨us, u, s₁, ts, w, _, hopening, hbody, rfl, -, -⟩ :=
      Action.behind_takes (hsteady opening) (hsteady body) hs hfront
    have hlength : (opening.spread u).length = opening.parts.length :=
      length_spread hopening.succeeds.choose_spec
    obtain ⟨v, hv⟩ : ∃ v, (opening.spread u ++ [w, x])[1]? = some v :=
      ⟨_, List.getElem?_eq_getElem (by simp)⟩
    have helement : (Value.tuple (opening.spread u ++ [w, x])).element 1 = .ok v := by
      rw [Value.element_tuple, hv]
    simp only [spread_append, List.append_assoc, List.singleton_append, helement]
    refine ⟨us, u, s₁, ts, w, s₂, xs, x, hopening, hbody, hclosing, hv, fun hone => ?_⟩
    rw [List.getElem?_append_right (by omega), hlength, hone] at hv
    exact (Option.some.inj hv).symm
  · trivial
  · rw [happend] at hall
    rcases Action.interrupts_of_behind (hsteady _) hs hall with
      hfront | ⟨_, _, s₂, ⟨⟨_, hfront⟩, -⟩, hclosing⟩
    · rw [happend] at hfront
      refine (Action.interrupts_of_behind (hsteady opening) hs hfront).imp_right ?_
      rintro ⟨us, u, s₁, hopening, hbody⟩
      exact ⟨us, u, s₁, hopening, .inl hbody⟩
    · rw [happend] at hfront
      obtain ⟨us, u, s₁, ts, w, _, hopening, hbody, -, -, -⟩ :=
        Action.behind_takes (hsteady opening) (hsteady body) hs hfront
      exact .inr ⟨us, u, s₁, hopening, .inr ⟨ts, w, s₂, hbody, hclosing⟩⟩

/-- A parser between two others gives the second of their values, where a sequence in front of it counts
with all of its own; this is the value of the parser in the middle if what stands in front of it has one.
A separated parser gives the values of its bodies, but a body that is a sequence gives the first value of
its first run and takes the second, if that is a list, for the values of the later runs. So these end in
errors of their own only for such a body, and for one with a number of parts other than one. -/
theorem run_between_sepBy (rules : Rules) {trees : List TokenTree} {s : State Input}
    (hs : (Stream.input s.source).Reachable trees) :
    let act (p : Parser) := p.actionFrom rules s.source
    (∀ opening closing body,
      match (between opening closing body).run rules s with
      | (.success v _, s') =>
        ∃ us u s₁ ts w s₂ xs x, (act opening).Takes us u s s₁ ∧ (act body).Takes ts w s₁ s₂ ∧
          (act closing).Takes xs x s₂ s' ∧ (opening.spread u ++ [w, x])[1]? = some v ∧
          (opening.parts.length = 1 → v = w)
      | (.failure _, _) => True
      | (.abort f, s') =>
        act opening s = (.abort f, s') ∨
          ∃ us u s₁, (act opening).Takes us u s s₁ ∧
            (act body s₁ = (.abort f, s') ∨
              ∃ ts w s₂, (act body).Takes ts w s₁ s₂ ∧ act closing s₂ = (.abort f, s'))) ∧
      ∀ body separator,
        match (sepBy body separator).run rules s with
        | (.success v _, s') =>
          (v = .list [] ∧ s'.source = s.source ∧ ∃ e, act body s = (.failure e, s')) ∨
            ∃ ts₀ v₀ s₁ ts vs s₂, (act body).Takes ts₀ v₀ s s₁ ∧
              Action.Separated (act body) (act separator) ts vs s₁ s₂ ∧ s'.source = s₂.source ∧
              (∃ first others, v = .list (first :: others) ∧
                (body.spread v₀ ++ [.list vs])[0]? = some first ∧
                (body.spread v₀ ++ [.list vs])[1]? = some (.list others)) ∧
              ((∀ ps, body ≠ .sequence ps) → v = .list (v₀ :: vs))
        | (.failure e, _) => e.committed = true
        | (.abort f, s') =>
          act body s = (.abort f, s') ∨
            ∃ ts₀ v₀ s₁ ts vs s₂, (act body).Takes ts₀ v₀ s s₁ ∧
              Action.Separated (act body) (act separator) ts vs s₁ s₂ ∧
              (Action.Interrupts (act separator) (act body) f s₂ s' ∨
                (∃ e, f = .value e) ∧ body.parts.length ≠ 1) := by
  intro act
  obtain ⟨n, hs⟩ := hs.input_at
  refine ⟨between_cases hs, fun body separator => ?_⟩
  have hcases := sepBy_cases rules body separator hs
  rcases hrun : (sepBy body separator).run rules s with ⟨v | e | f, s'⟩
  · rw [hrun] at hcases
    refine hcases.imp_right ?_
    rintro ⟨ts₀, v₀, s₁, ts, vs, s₂, hfirst, hrest, heq, hcons⟩
    refine ⟨ts₀, v₀, s₁, ts, vs, s₂, hfirst, hrest, heq, ?_, fun hbody => ?_⟩
    · obtain ⟨first, others, h₀, h₁, hv⟩ := Value.consList_eq_ok.1 hcons
      exact ⟨first, others, hv, h₀, h₁⟩
    · rw [spread_eq_singleton hbody] at hcons
      cases hcons
      rfl
  · rw [hrun] at hcases
    exact hcases
  · rw [hrun] at hcases
    refine hcases.imp_right ?_
    rintro ⟨ts₀, v₀, s₁, ts, vs, s₂, hfirst, hrest, hends⟩
    refine ⟨ts₀, v₀, s₁, ts, vs, s₂, hfirst, hrest, hends.imp_right ?_⟩
    rintro ⟨e, rfl, hcons⟩
    refine ⟨⟨e, rfl⟩, fun hone => ?_⟩
    have hlength := length_spread hfirst.succeeds.choose_spec
    rw [hone] at hlength
    obtain ⟨w, hw⟩ := List.length_eq_one_iff.1 hlength
    rw [hw] at hcons
    cases hcons

/-- On `< a >`, what stands between is the value of the middle one. -/
theorem run_between_sepBy_middle :
    let trees : List TokenTree :=
      [.punct '<' .alone .callSite, .ident "a" .callSite, .punct '>' .alone .callSite]
    let s : State Input := ⟨Input.ofTrees trees, {}⟩
    ∃ v hint s',
      (between (.token (.punct '<')) (.token (.punct '>')) (.token .ident)).run [] s =
        (.success v hint, s') ∧
      ∃ ts s₁ s₂, (actionFrom [] s.source (.token .ident)).Takes ts v s₁ s₂ := by
  intro trees s
  have hrun : (between (.token (.punct '<')) (.token (.punct '>')) (.token .ident)).run [] s =
      (.success (.tree (.ident "a" .callSite)) none, ⟨s.source.next.2.next.2.next.2, {}⟩) := by
    with_unfolding_all rfl
  have hs : (Stream.input s.source).Reachable trees := .ofTrees
  have hbetween := (run_between_sepBy [] hs).1 (.token (.punct '<')) (.token (.punct '>'))
    (.token .ident)
  rw [hrun] at hbetween
  obtain ⟨us, u, s₁, ts, w, s₂, xs, x, -, hbody, -, -, hv⟩ := hbetween
  exact ⟨_, _, _, hrun, ts, s₁, s₂, hv rfl ▸ hbody⟩

/-- In `< < a >`, what stands between the sequence of `<` and `<` and a `>` is the second `<`. On `a 1`,
a separated sequence of an identifier and a literal takes the literal for a list. -/
theorem run_between_sepBy_bare :
    (∃ hint s', (between (.sequence [.token (.punct '<'), .token (.punct '<')]) (.token (.punct '>'))
        (.token .ident)).run []
        ⟨Input.ofTrees [.punct '<' .alone .callSite, .punct '<' .alone .callSite, .ident "a" .callSite,
          .punct '>' .alone .callSite], {}⟩ =
      (.success (.token (.punct '<' .alone .callSite)) hint, s')) ∧
    ∃ s', (sepBy (.sequence [.token .ident, .token .literal]) (.token (.punct ','))).run []
        ⟨Input.ofTrees [.ident "a" .callSite, .literal "1" .callSite], {}⟩ =
      (.abort (.value .notAList), s') :=
  ⟨⟨_, _, by with_unfolding_all rfl⟩, _, by with_unfolding_all rfl⟩

end Parser

end TokenParsing
