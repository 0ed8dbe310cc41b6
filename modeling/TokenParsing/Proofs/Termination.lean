import TokenParsing.Proofs.Lookahead
import TokenParsing.Proofs.Nullability

/-!
# Parsing comes to an end

The parsers of a well-founded grammar end on every stream (`Parser.run_ends`): the depth of calls and
the length of repetitions that a run allows for are never used up.

The measure is the number of tokens that are left and, at one place, the rank of a rule. An attempt
goes back only when it has failed, and what comes next starts where the attempt did. So it is enough
to know how an action ends from a given place on (`Action.EndsAt`), from the rules it can use there and
from all rules at the places behind it.
-/

namespace TokenParsing

namespace Parser

/-- The body may succeed with the value on some input. -/
def Yields (rules : Rules) (body : Parser) (v : Value) : Prop :=
  ∃ (limit depth : Nat) (s s' : State Input) (hint : Hint),
    body.action (rules.call limit depth) limit s = (.success v hint, s')

/-- The parser itself, and no part of it, may abort: it has a function with no value for a value of
its body, or it is something that could not be built. -/
inductive Raises (rules : Rules) : Parser → Fault → Prop
  | map {f : Value → Except ValueError Value} {body : Parser} {v : Value} {e : ValueError}
    (hv : body.Yields rules v) (h : f v = .error e) : Raises rules (.map f body) (.value e)
  | invalid {e : GrammarError} : Raises rules (.invalid e) (.grammar e)
  | broken {name : String} {e : GrammarError} (h : rules.lookup name = some (.error e)) :
    Raises rules (.rule name) (.grammar e)
  | unknown {name : String} (h : rules.lookup name = none) :
    Raises rules (.rule name) (.grammar (.unknownRule name))

/-- All parts of the parser are built, and the functions in it have a value for every value of their
bodies. -/
def Faultless (rules : Rules) (p : Parser) : Prop :=
  p.Within rules fun q => ∀ f, ¬q.Raises rules f

end Parser

namespace Action

variable {α : Type} {tokens : List Token} {n : Nat} {F : Fault → Prop} {p : Action Input Value}
  {ps : List (Action Input Value)}

/-! ### How a run ends from a place on -/

/-- The action goes from places of the tokens to places of them, and is tidy about it. -/
structure Steady (tokens : List Token) (a : Action Input α) : Prop where
  tidy : Tidy a
  stays : ∀ ⦃s n⦄, s.source.At ⟨tokens, n⟩ → ∃ m, (a s).2.source.At ⟨tokens, m⟩

theorem Steady.success {a : Action Input α} (ha : Steady tokens a) {s s' : State Input} {v : α}
    {hint : Hint} (hs : s.source.At ⟨tokens, n⟩) (h : a s = (.success v hint, s')) :
    s'.source = s.source ∨ ∃ m, n < m ∧ s'.source.At ⟨tokens, m⟩ := by
  obtain ⟨m, hm⟩ := ha.stays hs
  rw [h] at hm
  refine (ha.tidy.success h).1.imp_right fun hlt => ⟨m, ?_, hm⟩
  rwa [hs.ordinal_eq, hm.ordinal_eq] at hlt

/-- At the `n`-th place of the tokens the action aborts for the reasons in `F` alone. -/
def EndsAt (F : Fault → Prop) (tokens : List Token) (n : Nat) (a : Action Input α) : Prop :=
  ∀ ⦃s⦄, s.source.At ⟨tokens, n⟩ → ∀ ⦃f⦄, (a s).1 = .abort f → F f

namespace EndsAt

theorem abort {f : Fault} (h : F f) : EndsAt F tokens n (abort f : Action Input α) := by
  rintro s - g hg
  cases hg
  exact h

theorem of_eq {a : Action Input α} (ha : EndsAt F tokens n a) {s s' : State Input} {f : Fault}
    (hs : s.source.At ⟨tokens, n⟩) (h : a s = (.abort f, s')) : F f :=
  ha hs (by rw [h])

theorem afterNote (f : Journal → Journal) {a : Action Input α} (ha : EndsAt F tokens n a) :
    EndsAt F tokens n (Action.afterNote f a) :=
  fun s hs _ hf => @ha { s with journal := f s.journal } hs _ hf

theorem of_length_lt {a : Action Input α} (h : tokens.length < n) : EndsAt F tokens n a :=
  fun _ hs => absurd hs.index_le (Nat.not_le.2 h)

theorem token (m : Matcher) : EndsAt F tokens n (Action.token m) := by
  intro s _ f hf
  simp only [Action.token] at hf
  split at hf <;> cases hf

theorem eof : EndsAt F tokens n Action.eof := by
  intro s _ f hf
  simp only [Action.eof] at hf
  split at hf <;> cases hf

/-- The parts of a sequence end if they do further on, and each ends here behind parts that pass. -/
theorem sequenceFrom (hps : ∀ p ∈ ps, Steady tokens p)
    (hhere : ∀ front p back, ps = front ++ p :: back → (∀ q ∈ front, Passes q) →
      EndsAt F tokens n p)
    (hlater : ∀ m, n < m → ∀ p ∈ ps, EndsAt F tokens m p) (start : Int) (hint : Hint) :
    EndsAt F tokens n (Action.sequenceFrom start ps hint) := by
  induction ps generalizing hint n with
  | nil =>
    intro s _ f hf
    cases hf
  | cons p ps ih =>
    intro s hs f hf
    obtain ⟨hp, hps⟩ := List.forall_mem_cons.1 hps
    simp only [Action.sequenceFrom] at hf
    split at hf
    · rename_i v new s₁ h₁
      generalize hrest : Action.sequenceFrom start ps _ s₁ = rest at hf
      obtain ⟨_ | _ | g, s₂⟩ := rest <;> cases hf
      have hlater' : ∀ m, n < m → ∀ q ∈ ps, EndsAt F tokens m q := fun m hm q hq =>
        hlater m hm q (List.mem_cons_of_mem _ hq)
      rcases hp.success hs h₁ with hs₁ | ⟨m, hlt, hs₁⟩
      · -- The part passes, so it belongs in front of the parts that may end here.
        have hpass : Passes p := ⟨s, s₁, v, new, h₁, hs₁⟩
        refine (ih hps (fun front q back hsplit hfront => ?_) hlater' _).of_eq (hs₁ ▸ hs) hrest
        exact hhere (p :: front) q back (by rw [hsplit, List.cons_append])
          (List.forall_mem_cons.2 ⟨hpass, hfront⟩)
      · refine (ih hps (fun front q back hsplit _ => ?_) (fun k hk => hlater' k (by omega)) _).of_eq
          hs₁ hrest
        exact hlater' m hlt q (by simp [hsplit])
    · cases hf
    · rename_i g s₁ h₁
      cases hf
      exact (hhere [] p ps rfl (by simp)).of_eq hs h₁

theorem sequence (hps : ∀ p ∈ ps, Steady tokens p)
    (hhere : ∀ front p back, ps = front ++ p :: back → (∀ q ∈ front, Passes q) →
      EndsAt F tokens n p)
    (hlater : ∀ m, n < m → ∀ p ∈ ps, EndsAt F tokens m p) :
    EndsAt F tokens n (Action.sequence ps) := by
  intro s hs f hf
  simp only [Action.sequence] at hf
  generalize hfrom : Action.sequenceFrom s.ordinal ps none s = x at hf
  obtain ⟨_ | _ | g, s'⟩ := x <;> cases hf
  exact (sequenceFrom hps hhere hlater _ _).of_eq hs hfrom

theorem choiceFrom {p : Action Input Value} {ps : List (Action Input Value)} (hp : Tidy p)
    (hps : ∀ q ∈ ps, Tidy q) (hends : EndsAt F tokens n p)
    (hothers : ∀ q ∈ ps, EndsAt F tokens n q) (start : Int) (missed : Hint) :
    EndsAt F tokens n (Action.choiceFrom start p ps missed) := by
  intro s hs f hf
  unfold Action.choiceFrom at hf
  split at hf
  · cases hf
  · rename_i e s₁ h₁
    split at hf
    · cases hf
    · rename_i hc
      cases ps with
      | nil => cases hf
      | cons q qs =>
        have hs₁ : s₁.source = s.source := hp.source_eq h₁ (by simpa using hc)
        obtain ⟨hq, hqs⟩ := List.forall_mem_cons.1 hps
        obtain ⟨hend, hends⟩ := List.forall_mem_cons.1 hothers
        exact choiceFrom hq hqs hend hends start _ (hs₁ ▸ hs) hf
  · rename_i g s₁ h₁
    cases hf
    exact hends.of_eq hs h₁

theorem choice (hp : Tidy p) (hps : ∀ q ∈ ps, Tidy q) (hends : EndsAt F tokens n p)
    (hothers : ∀ q ∈ ps, EndsAt F tokens n q) : EndsAt F tokens n (Action.choice p ps) :=
  fun _ hs _ hf => choiceFrom hp hps hends hothers _ none hs hf

theorem map {f : Value → Except ValueError Value} (hends : EndsAt F tokens n p)
    (hf : ∀ {s s' v hint e}, p s = (.success v hint, s') → f v = .error e → F (.value e)) :
    EndsAt F tokens n (Action.map f p) := by
  intro s hs g hg
  unfold Action.map at hg
  split at hg
  · rename_i v hint s₁ h₁
    split at hg
    · cases hg
    · rename_i e he
      cases hg
      exact hf h₁ he
  · exact hends hs hg

theorem named (label : String) (hends : EndsAt F tokens n p) :
    EndsAt F tokens n (Action.named label p) := by
  intro s hs f hf
  simp only [Action.named] at hf
  split at hf
  · cases hf
  · split at hf <;> cases hf
  · exact hends hs hf

theorem opt (default : Value) (hends : EndsAt F tokens n p) :
    EndsAt F tokens n (Action.opt default p) := by
  intro s hs f hf
  unfold Action.opt at hf
  split at hf
  · split at hf <;> cases hf
  · exact hends hs hf

theorem attempt (hends : EndsAt F tokens n p) : EndsAt F tokens n (Action.attempt p) := by
  intro s hs f hf
  simp only [Action.attempt] at hf
  split at hf
  · cases hf
  · exact hends hs hf

/-- Every repetition but the last reads a token, so they end before more are tried than tokens are
left. -/
theorem manyFrom (hp : Steady tokens p) (start minimum : Int) (limit count : Nat) (hint : Hint)
    (hlimit : tokens.length < n + limit) (hends : ∀ m, n ≤ m → EndsAt F tokens m p) :
    EndsAt F tokens n (Action.manyFrom start minimum p limit count hint) := by
  induction limit generalizing n count hint with
  | zero =>
    intro s hs
    have hle : n ≤ tokens.length := hs.index_le
    omega
  | succ limit ih =>
    intro s hs f hf
    simp only [Action.manyFrom] at hf
    split at hf
    · rename_i v new s₁ h₁
      split at hf
      · cases hf
      · rename_i hne
        rcases hp.success hs h₁ with hs₁ | ⟨m, hlt, hs₁⟩
        · -- A round that leaves the input as it was ends the loop.
          exact absurd (by simp only [State.ordinal, hs₁]) hne
        · generalize hrest : Action.manyFrom start minimum p limit _ new s₁ = rest at hf
          obtain ⟨_ | _ | g, s₂⟩ := rest <;> cases hf
          exact (ih _ _ (by omega) fun k hk => hends k (by omega)).of_eq hs₁ hrest
    · split at hf <;> cases hf
    · rename_i g s₁ h₁
      cases hf
      exact (hends n (Nat.le_refl n)).of_eq hs h₁

theorem many (hp : Steady tokens p) (minimum : Int) {limit : Nat}
    (hlimit : tokens.length < n + limit) (hends : ∀ m, n ≤ m → EndsAt F tokens m p) :
    EndsAt F tokens n (Action.many minimum limit p) := by
  intro s hs f hf
  simp only [Action.many] at hf
  generalize hfrom : Action.manyFrom s.ordinal minimum p limit 0 none s = x at hf
  obtain ⟨_ | _ | g, s'⟩ := x <;> cases hf
  exact (manyFrom hp _ minimum limit 0 none hlimit hends).of_eq hs hfrom

end EndsAt

end Action

namespace Parser

variable {rules : Rules} {F : Fault → Prop} {limit depth n : Nat} {tokens : List Token}

/-! ### The parsers of a well-founded grammar -/

theorem steady_action (rules : Rules) (limit depth : Nat) (tokens : List Token) (p : Parser) :
    Action.Steady tokens (p.action (rules.call limit depth) limit) where
  tidy := p.tidy_action rules limit depth
  stays s n hs := by
    have hcongruence := (Input.cursors tokens).congruence
    have hlifts : (Input.cursors tokens).Lifts (p.action (rules.call limit depth) limit)
        (p.action (rules.call limit depth) limit) :=
      hcongruence.action (hcongruence.call limit depth) limit p fun _ _ => trivial
    have hagree := @hlifts s ⟨⟨tokens, n⟩, s.journal⟩ ⟨rfl, hs⟩ rfl
    have hfollow := (hagree.of_not_refused (hagree.not_refused id)).2
    obtain ⟨⟨_, m⟩, rfl, hplace⟩ : ∃ c : Cursor, c.tokens = tokens ∧ Input.At _ c :=
      ⟨_, hfollow.later.rel⟩
    exact ⟨m, hplace⟩

theorem steady_actions (rules : Rules) (limit depth : Nat) (tokens : List Token)
    (ps : List Parser) :
    ∀ a ∈ Parser.actions (rules.call limit depth) limit ps, Action.Steady tokens a := by
  rintro a ha
  obtain ⟨p, -, rfl⟩ := mem_actions.1 ha
  exact p.steady_action rules limit depth tokens

/-- What aborts a part of the parser by itself is in the set. -/
abbrev RaisesOnly (rules : Rules) (F : Fault → Prop) (p : Parser) : Prop :=
  p.Within rules fun q => ∀ f, q.Raises rules f → F f

/-- The rules that the parser may use at the `n`-th place of the tokens, and all rules further on, end
with one call less. -/
def Ready (rules : Rules) (F : Fault → Prop) (tokens : List Token) (limit depth n : Nat)
    (p : Parser) : Prop :=
  ∀ m name, n ≤ m → (m = n → p.Calls rules name) → RaisesOnly rules F (.rule name) →
    Action.EndsAt F tokens m (rules.call limit depth name)

theorem Ready.part {p q : Parser} (h : p.Ready rules F tokens limit depth n)
    (hq : ∀ {name}, q.Calls rules name → p.Calls rules name) :
    q.Ready rules F tokens limit depth n :=
  fun m name hm hcalls => h m name hm fun heq => hq (hcalls heq)

theorem Ready.later {p : Parser} (h : p.Ready rules F tokens limit depth n) (q : Parser) {m : Nat}
    (hm : n < m) : q.Ready rules F tokens limit depth m :=
  fun k name hk _ => h k name (by omega) fun heq => absurd heq (by omega)

mutual

theorem endsAt_action (rules : Rules) (F : Fault → Prop) (tokens : List Token) (limit depth : Nat) :
    ∀ (p : Parser) (n : Nat), p.RaisesOnly rules F → tokens.length < n + limit →
      p.Ready rules F tokens limit depth n →
      Action.EndsAt F tokens n (p.action (rules.call limit depth) limit)
  | .token m, _, _, _, _ => .token m
  | .eof, _, _, _, _ => .eof
  | .sequence ps, n, hp, hlimit, hready => by
    have hparts := endsAt_of_mem rules F tokens limit depth ps
    refine .sequence (steady_actions rules limit depth tokens ps) ?_ ?_
    · intro front a back hsplit hfront
      rw [actions_eq_map, List.map_eq_append_iff] at hsplit
      obtain ⟨qs, rest, rfl, rfl, hrest⟩ := hsplit
      obtain ⟨q, qs', rfl, rfl, -⟩ := List.map_eq_cons_iff.1 hrest
      have hq : q ∈ qs ++ q :: qs' := by simp
      -- a part is reached at this place only behind nullable ones
      have hnullable : ∀ r ∈ qs, r.Nullable rules := fun r hr =>
        nullable_of_passes (nullable_rule rules limit depth) r
          (hfront _ (List.mem_map_of_mem hr))
      exact hparts q hq n (hp.child hq) hlimit (hready.part fun h => .sequence hnullable h)
    · intro m hm a ha
      obtain ⟨q, hq, rfl⟩ := mem_actions.1 ha
      exact hparts q hq m (hp.child hq) (by omega) (hready.later q hm)
  | .choice p ps, n, hp, hlimit, hready => by
    have hends : ∀ a ∈ Parser.actions (rules.call limit depth) limit (p :: ps),
        Action.EndsAt F tokens n a := by
      intro a ha
      obtain ⟨q, hq, rfl⟩ := mem_actions.1 ha
      exact endsAt_of_mem rules F tokens limit depth (p :: ps) q hq n (hp.child hq) hlimit
        (hready.part (.choice hq))
    have htidy := List.forall_mem_cons.1 (tidy_actions rules limit depth (p :: ps))
    obtain ⟨hfirst, hothers⟩ := List.forall_mem_cons.1 hends
    exact .choice htidy.1 htidy.2 hfirst hothers
  | .map f p, n, hp, hlimit, hready =>
    .map (endsAt_action rules F tokens limit depth p n (hp.only rfl) hlimit (hready.part .map))
      fun hv he => hp.self _ (.map ⟨limit, depth, _, _, _, hv⟩ he)
  | .named label p, n, hp, hlimit, hready =>
    .named label
      (endsAt_action rules F tokens limit depth p n (hp.only rfl) hlimit (hready.part .named))
  | .many minimum p, n, hp, hlimit, hready =>
    .many (p.steady_action rules limit depth tokens) minimum hlimit fun m hm =>
      endsAt_action rules F tokens limit depth p m (hp.only rfl) (by omega) <|
        (Nat.eq_or_lt_of_le hm).elim (fun heq => heq ▸ hready.part .many) (hready.later p)
  | .opt default p, n, hp, hlimit, hready =>
    .opt default
      (endsAt_action rules F tokens limit depth p n (hp.only rfl) hlimit (hready.part .opt))
  | .attempt p, n, hp, hlimit, hready =>
    .attempt
      (endsAt_action rules F tokens limit depth p n (hp.only rfl) hlimit (hready.part .attempt))
  | .delayed _ p, n, hp, hlimit, hready =>
    endsAt_action rules F tokens limit depth p n (hp.only rfl) hlimit (hready.part .delayed)
  | .rule name, n, hp, _, hready => hready n name (Nat.le_refl n) (fun _ => .rule) hp
  | .invalid e, _, hp, _, _ => .abort (hp.self _ .invalid)

theorem endsAt_of_mem (rules : Rules) (F : Fault → Prop) (tokens : List Token)
    (limit depth : Nat) :
    ∀ (ps : List Parser), ∀ p ∈ ps, ∀ (n : Nat), p.RaisesOnly rules F → tokens.length < n + limit →
      p.Ready rules F tokens limit depth n →
      Action.EndsAt F tokens n (p.action (rules.call limit depth) limit)
  | [] => by simp
  | p :: ps =>
    List.forall_mem_cons.2
      ⟨endsAt_action rules F tokens limit depth p, endsAt_of_mem rules F tokens limit depth ps⟩

end

/-- A rule ends if more calls within calls are allowed than the measure says. -/
theorem endsAt_call (hrules : rules.WellFounded) (depth n : Nat) (name : String)
    (hdepth : (tokens.length - n) * (rules.length + 1) + rules.rank name < depth)
    (hlimit : tokens.length < n + limit) (hname : RaisesOnly rules F (.rule name)) :
    Action.EndsAt F tokens n (rules.call limit depth name) := by
  induction depth generalizing n name with
  | zero => exact absurd hdepth (Nat.not_lt_zero _)
  | succ depth ih =>
    rw [Rules.call_succ]
    split
    · rename_i p hlookup
      have hp : p.RaisesOnly rules F := hname.child (by simp [children, hlookup])
      refine .afterNote _ (endsAt_action rules F tokens limit depth p n hp hlimit ?_)
      intro m name' hm hcalls hname'
      -- Before a token is read the rank goes down. Behind one it may be anything again, but not more
      -- than the token has paid for.
      rcases Nat.eq_or_lt_of_le hm with rfl | hlt
      · have hrank := hrules.rank_lt ⟨p, hlookup, hcalls rfl⟩
        exact ih n name' (by omega) hlimit hname'
      · rcases Nat.lt_or_ge tokens.length m with hout | hle
        · exact .of_length_lt hout
        · have hrank := rules.rank_le name'
          have hmul : (tokens.length - m + 1) * (rules.length + 1) ≤
              (tokens.length - n) * (rules.length + 1) := Nat.mul_le_mul_right _ (by omega)
          rw [Nat.succ_mul] at hmul
          exact ih m name' (by omega) (by omega) hname'
    · rename_i e hlookup
      exact .afterNote _ (.abort (hname.self _ (.broken hlookup)))
    · rename_i hlookup
      exact .abort (hname.self _ (.unknown hlookup))

/-- A parser of a well-founded grammar aborts on no input, unless it is one of its parts that does. -/
theorem raises_of_run_eq_abort (hrules : rules.WellFounded) (p : Parser) {s : State Input}
    (hs : s.source.At ⟨tokens, n⟩) {f : Fault} (hf : (p.run rules s).1 = .abort f) :
    ∃ q, p.Part rules q ∧ q.Raises rules f := by
  have hremaining : TokenSource.remaining s.source = tokens.length - n := hs.remaining_eq
  have hp : p.RaisesOnly rules fun f => ∃ q, p.Part rules q ∧ q.Raises rules f :=
    fun q hq f hf => ⟨q, hq, hf⟩
  simp only [run, hremaining] at hf
  refine endsAt_action rules _ tokens _ _ p n hp (by omega) ?_ hs hf
  intro m name hm _ hname
  refine endsAt_call hrules _ m name ?_ (by omega) hname
  have hrank := rules.rank_le name
  have hmul : (tokens.length - m) * (rules.length + 1) ≤
      (tokens.length - n) * (rules.length + 1) := Nat.mul_le_mul_right _ (by omega)
  rw [Nat.mul_comm (rules.length + 1), Nat.succ_mul (tokens.length - n)]
  omega

end Parser

/-! ### Functions that have a value for every sequence -/

theorem Action.length_sequenceFrom {ps : List (Action Input Value)} {start : Int}
    {hint hint' : Hint} {s s' : State Input} {vs : List Value}
    (h : sequenceFrom start ps hint s = (.success vs hint', s')) : vs.length = ps.length := by
  induction ps generalizing hint s vs with
  | nil =>
    cases h
    rfl
  | cons p ps ih =>
    simp only [sequenceFrom] at h
    split at h
    · generalize hrest : sequenceFrom start ps _ _ = rest at h
      obtain ⟨_ | _ | _, s₂⟩ := rest <;> cases h
      rw [List.length_cons, ih hrest, List.length_cons]
    · cases h
    · cases h

namespace Parser

variable {rules : Rules} {ps : List Parser} {v : Value}

theorem Yields.sequence (h : (Parser.sequence ps).Yields rules v) :
    ∃ vs, v = .tuple vs ∧ vs.length = ps.length := by
  obtain ⟨limit, depth, s, s', hint, h⟩ := h
  simp only [action, Action.sequence] at h
  generalize hfrom : Action.sequenceFrom _ _ _ s = x at h
  obtain ⟨vs | _ | _, s'⟩ := x <;> cases h
  refine ⟨vs, rfl, ?_⟩
  rw [Action.length_sequenceFrom hfrom, actions_eq_map, List.length_map]

theorem not_raises_element {n : Nat} (hn : n < ps.length) (f : Fault) :
    ¬(Parser.map (Value.element n) (.sequence ps)).Raises rules f := by
  rintro ⟨hv, he⟩
  obtain ⟨vs, rfl, hlength⟩ := hv.sequence
  have hget : vs[n]? = some vs[n] := List.getElem?_eq_getElem (hlength ▸ hn)
  simp [Value.element, Value.elements?, hget] at he

end Parser

/-! ### Streams -/

namespace Stream

/-- Inputs taken as streams. -/
def inputs : Simulation Stream Input where
  rel s i := s = .input i
  marks _ _ m i := m = .input i
  lossy := False
  position := by rintro _ _ rfl; rfl
  isEmpty := by rintro _ _ rfl; rfl
  remaining := by rintro _ _ rfl; rfl
  next := by rintro _ _ rfl; exact ⟨rfl, rfl, id⟩
  peek := by rintro _ _ rfl; exact ⟨rfl, rfl, id⟩
  mark := by rintro _ _ rfl; rfl
  restore := by rintro _ _ _ _ rfl rfl; exact .inl ⟨_, _, rfl, rfl, rfl, id⟩

/-- A stream is simulated by an input, and refuses to go back only if it is a window. -/
theorem Reachable.exists_simulation {trees : List TokenTree} {s : Stream} (h : s.Reachable trees) :
    ∃ (R : Simulation Stream Input) (i : Input) (n : Nat), R.rel s i ∧
      i.At ⟨TokenStream.flatten trees, n⟩ ∧ (R.lossy → ∃ w source, s = .lookahead w source) := by
  obtain ⟨⟨_, n⟩, rfl, hs⟩ := h.exists_at
  obtain ⟨i, -, hi⟩ := exists_input_at trees hs.index_le
  generalize hc : (⟨TokenStream.flatten trees, n⟩ : Cursor) = c at hs hi
  cases hs with
  | @input i _ h => exact ⟨inputs, i, n, rfl, hc ▸ h, False.elim⟩
  | @lookahead w source c hw hs =>
    exact ⟨windows c w.horizon, i, n, ⟨rfl, ⟨hw, hs⟩, hi⟩, hc ▸ hi, fun _ => ⟨w, source, rfl⟩⟩

end Stream

/-- A parser of a well-founded grammar succeeds or fails, or it is refused to go back, which only a
window does. -/
theorem Parser.run_ends {rules : Rules} {p : Parser} {trees : List TokenTree} {source : Stream}
    (hrules : rules.WellFounded) (hp : p.Faultless rules) (hsource : source.Reachable trees)
    (journal : Journal) :
    let r := (p.run rules ⟨source, journal⟩).1
    (∃ v hint, r = .success v hint) ∨ (∃ e, r = .failure e) ∨
      r.IsRefused ∧ ∃ w s, source = .lookahead w s := by
  intro r
  obtain ⟨R, i, n, hrel, hplace, hlossy⟩ := hsource.exists_simulation
  have hagree : R.Agrees ⟨source, journal⟩ ⟨i, journal⟩ _ _ := R.run rules p hrel rfl
  by_cases hr : r.IsRefused
  · have hwindow : R.lossy := by_contra fun hR => hagree.not_refused hR hr
    exact .inr (.inr ⟨hr, hlossy hwindow⟩)
  · have heq : r = (p.run rules ⟨i, journal⟩).1 := (hagree.of_not_refused hr).1
    rw [heq]
    cases hresult : (p.run rules ⟨i, journal⟩).1 with
    | success v hint => exact .inl ⟨v, hint, rfl⟩
    | failure e => exact .inr (.inl ⟨e, rfl⟩)
    | abort f =>
      obtain ⟨q, hq, hraises⟩ := raises_of_run_eq_abort hrules p hplace hresult
      exact absurd hraises (hp q hq f)

/-- Behind a window of horizon 1, on `( a ( ) )`: rules that use each other inside of groups, and a
repetition that reads nothing the last time. -/
theorem Parser.run_ends_nested :
    let item : Parser := .choice (.token .ident)
      [.between (.token (.delim '(')) (.token (.delim ')')) (.rule "list")]
    let rules : Rules := [("item", .ok item), ("list", .ok (.many 0 (.rule "item")))]
    let p : Parser := .many 0 (.opt .null (.attempt (.rule "list")))
    let source := Stream.lookahead (.empty 1) (.input (.ofTrees
      [.group .parenthesis [.ident "a" .callSite, .group .parenthesis [] .callSite] .callSite]))
    let r := (p.run rules ⟨source, {}⟩).1
    rules.WellFounded ∧ p.Faultless rules ∧
      ((∃ v hint, r = .success v hint) ∨ (∃ e, r = .failure e) ∨
        r.IsRefused ∧ ∃ w s, source = .lookahead w s) := by
  intro item rules p source r
  have hlookup : ∀ {name q}, rules.lookup name = some (.ok q) →
      name = "item" ∧ q = item ∨ name = "list" ∧ q = .many 0 (.rule "item") := by
    intro name q h
    obtain ⟨front, back, heq, -⟩ := List.lookup_eq_some_iff.1 h
    have hmem : (name, .ok q) ∈ rules := by simp [heq]
    simpa [rules] using hmem
  have hrules : rules.WellFounded := by
    refine .of_measure (fun name => if name = "list" then 1 else 0) ?_
    rintro name name' ⟨q, hq, hcalls⟩
    rcases hlookup hq with ⟨rfl, rfl⟩ | ⟨rfl, rfl⟩
    · -- An item starts with a token.
      obtain ⟨r, hr, h⟩ := calls_choice.1 hcalls
      rcases List.mem_pair.1 hr with rfl | rfl
      · cases h
      · cases h with
        | map h =>
          cases h with
          | first h => cases h
          | behind hp _ => cases hp
    · cases hcalls with
      | many h =>
        cases h
        decide
  have hp : p.Faultless rules := by
    let parts : List Parser := [p, .opt .null (.attempt (.rule "list")), .attempt (.rule "list"),
      .rule "list", .many 0 (.rule "item"), .rule "item", item, .token .ident,
      .between (.token (.delim '(')) (.token (.delim ')')) (.rule "list"),
      .sequence [.token (.delim '('), .rule "list", .token (.delim ')')],
      .token (.delim '('), .token (.delim ')')]
    have hitem : rules.lookup "item" = some (.ok item) := rfl
    have hlist : rules.lookup "list" = some (.ok (.many 0 (.rule "item"))) := rfl
    refine .of_children (fun r hr f hraises => ?_) (fun r hr => ?_) (show p ∈ parts by simp [parts])
    · simp only [parts, p, item, List.mem_cons, List.not_mem_nil, or_false] at hr
      rcases hr with rfl | rfl | rfl | rfl | rfl | rfl | rfl | rfl | rfl | rfl | rfl | rfl
      case inr.inr.inr.inr.inr.inr.inr.inr.inl => exact not_raises_element (by decide) f hraises
      all_goals cases hraises
      all_goals
        rename_i h
        simp [hitem, hlist] at h
    · simp only [parts, List.mem_cons, List.not_mem_nil, or_false] at hr
      rcases hr with rfl | rfl | rfl | rfl | rfl | rfl | rfl | rfl | rfl | rfl | rfl | rfl
      all_goals simp [children, hitem, hlist, parts, item, between, append, p]
  have hsource : source.Reachable _ := .lookahead (by decide) .ofTrees
  exact ⟨hrules, hp, run_ends hrules hp hsource {}⟩

end TokenParsing
