import TokenParsing.Proofs.Announcing
import TokenParsing.Proofs.Grouping
import TokenParsing.Proofs.Induction
import TokenParsing.Proofs.Repetition

/-!
# Labels foretold

A parser tells what it can be asked for with before it is run. If it then fails where it starts and has
read nothing, it has run everything it starts with, and all of that has failed there too
(`Parser.gathers`). So its failure has the labels that it was to have (`Parser.run_foretold`), and the
rules that it had to follow for them can all be built.

This is so as long as a sequence fails in its first part. Behind a first part that reads nothing it may
also fail in the second one, whose labels it does not tell (`Parser.run_foretold_behind`).
-/

namespace TokenParsing

/-- None of some failures is nearer than a place. Then the furthest stands there only if they all do, and
it has the labels of all. -/
theorem Hint.elim_merge {missed : Hint} {e : Failure} {n : Int} (hmissed : ∀ f ∈ missed, n ≤ f.ordinal)
    (he : n ≤ e.ordinal) :
    n ≤ (missed.elim e (·.merge e)).ordinal ∧
      ((missed.elim e (·.merge e)).ordinal = n → (∀ f ∈ missed, f.ordinal = n) ∧ e.ordinal = n ∧
        ∀ label, label ∈ (missed.elim e (·.merge e)).expected ↔
          (∃ f ∈ missed, label ∈ f.expected) ∨ label ∈ e.expected) := by
  cases missed with
  | none => exact ⟨he, fun heq => ⟨by simp, heq, by simp⟩⟩
  | some f =>
    have hf : n ≤ f.ordinal := hmissed f rfl
    simp only [Option.elim_some, Failure.ordinal_merge, Option.mem_some_iff, forall_eq',
      exists_eq_left']
    refine ⟨by omega, fun heq => ⟨by omega, by omega, fun label => ?_⟩⟩
    exact Failure.mem_merge_of_eq (by omega)

namespace Action

variable {i : Input} {a : Action Input Value} {as : List (Action Input Value)} {e : Failure}
  {K : Parser → Prop} {tokens : List Token} {n : Nat}

/-- The action fails on the input where it stands, without reading. -/
structure FailsOn (a : Action Input Value) (i : Input) (e : Failure) : Prop where
  fails : ∃ s s' : State Input, s.source = i ∧ a s = (.failure e, s')
  uncommitted : e.committed = false
  place : e.ordinal = i.ordinal

/-- The action succeeds on the input without reading. -/
def PassesOn (a : Action Input Value) (i : Input) : Prop :=
  ∃ (s s' : State Input) (v : Value) (hint : Hint),
    s.source = i ∧ a s = (.success v hint, s') ∧ s'.source = i

theorem Truthful.le_ordinal (ha : Truthful K tokens a) {s s' : State Input}
    (hs : s.source.At ⟨tokens, n⟩) (h : a s = (.failure e, s')) :
    (s'.source.ordinal : Int) ≤ e.ordinal := by
  obtain ⟨m, -, hplace, he⟩ := ha.of_eq hs h
  obtain ⟨k, hle, htrue⟩ := he e rfl
  rw [hplace.ordinal_eq, htrue.ordinal_eq]
  exact Int.ofNat_le.2 hle

namespace FailsOn

theorem not_abort {f : Fault} : ¬FailsOn (abort f) i e := by
  rintro ⟨⟨s, s', -, h⟩, -, -⟩
  cases h

theorem of_afterNote {f : Journal → Journal} (h : FailsOn (afterNote f a) i e) : FailsOn a i e := by
  obtain ⟨⟨s, s', hs, h⟩, hc, hplace⟩ := h
  exact ⟨⟨{ s with journal := f s.journal }, s', hs, h⟩, hc, hplace⟩

theorem token {m : Matcher} (h : FailsOn (token m) i e) : e.expected = [m.label] := by
  obtain ⟨⟨s, s', -, h⟩, -, -⟩ := h
  simp only [Action.token] at h
  split at h
  · cases h
  · cases h
    rfl

theorem eof (h : FailsOn eof i e) : e.expected = [Parser.eofLabel] := by
  obtain ⟨⟨s, s', -, h⟩, -, -⟩ := h
  simp only [Action.eof] at h
  split at h
  · cases h
  · cases h
    rfl

theorem of_map {f : Value → Except ValueError Value} (h : FailsOn (map f a) i e) : FailsOn a i e := by
  obtain ⟨⟨s, s', hs, h⟩, hc, hplace⟩ := h
  refine ⟨⟨s, s', hs, ?_⟩, hc, hplace⟩
  unfold Action.map at h
  split at h
  · split at h <;> cases h
  · exact h

theorem not_opt {default : Value} : ¬FailsOn (opt default a) i e := by
  rintro ⟨⟨s, s', -, h⟩, hc, -⟩
  unfold Action.opt at h
  split at h
  · split at h
    · rename_i hc'
      cases h
      rw [hc] at hc'
      cases hc'
    · cases h
  · rename_i hnot
    exact hnot _ _ h

theorem named {label : String} (h : FailsOn (named label a) i e) : e.expected = [label] := by
  obtain ⟨⟨s, s', rfl, h⟩, hc, hplace⟩ := h
  simp only [Action.named] at h
  split at h
  · cases h
  · split at h
    · rename_i hstop
      cases h
      rcases hstop with hc' | hne
      · rw [hc] at hc'
        cases hc'
      · exact absurd hplace hne
    · cases h
      rfl
  · rename_i hnot
    exact absurd h (hnot _ _)

theorem of_attempt (htidy : Tidy a) (ha : Truthful K tokens a) (hi : i.At ⟨tokens, n⟩)
    (h : FailsOn (attempt a) i e) : FailsOn a i e := by
  obtain ⟨⟨s, s', rfl, h⟩, hc, hplace⟩ := h
  simp only [Action.attempt] at h
  split at h
  · rename_i f s₁ h₁
    cases h
    have hle := ha.le_ordinal hi h₁
    rcases htidy.committed_cases h₁ with ⟨-, hlt⟩ | ⟨hf, -⟩
    · have hf : f.ordinal = s.source.ordinal := hplace
      have hlt : s.source.ordinal < s₁.source.ordinal := Int.ofNat_lt.1 hlt
      omega
    · have heq : f.withCommitted false = f := by rw [← hf]; rfl
      exact ⟨⟨s, s₁, rfl, by rw [h₁, heq]⟩, hc, hplace⟩
  · rename_i hnot
    exact absurd h (hnot _ _)

theorem of_many (htidy : Tidy a) {minimum : Int} {limit : Nat}
    (h : FailsOn (many minimum limit a) i e) : FailsOn a i e := by
  obtain ⟨⟨s, s', rfl, h⟩, hc, hplace⟩ := h
  simp only [Action.many] at h
  rcases manyFrom_last htidy s.ordinal minimum limit 0 none s with
    hexhausted | ⟨vs, s₁, hint, hrounds, -, heq⟩
  · rw [hexhausted] at h
    cases h
  rw [heq] at h
  rcases hround : a s₁ with ⟨v | f | f, s₂⟩
  · rw [hround] at h
    cases h
  · rw [hround, lastRound] at h
    split at h
    · cases h
      rw [Failure.ordinal_commitIf] at hplace
      have hstay : ¬s.ordinal < s₂.ordinal := by
        intro hlt
        rw [decide_eq_true hlt] at hc
        cases hc
      have hsame : f.commitIf (s.ordinal < s₂.ordinal) = f := by
        rw [decide_eq_false hstay]
        rfl
      rw [hsame] at hc ⊢
      -- behind a round that read something the failure would stand further on than the start
      cases hrounds with
      | nil => exact ⟨⟨s, s₂, rfl, hround⟩, hc, hplace⟩
      | cons _ hread hrest =>
        have hle := hrest.le
        rcases htidy.committed_cases hround with ⟨hc', -⟩ | ⟨-, heq⟩
        · rw [hc'] at hc
          cases hc
        · omega
    · cases h
  · rw [hround] at h
    cases h

/-- A sequence fails where it starts if its first part does, or behind a first part that reads
nothing. -/
theorem of_sequence (htidy : ∀ p ∈ as, Tidy p) (has : ∀ p ∈ as, Truthful K tokens p)
    (hi : i.At ⟨tokens, n⟩) (h : FailsOn (sequence as) i e) :
    ∃ p ps, as = p :: ps ∧ (FailsOn p i e ∨ ps ≠ [] ∧ PassesOn p i) := by
  obtain ⟨⟨s, s', rfl, h⟩, hc, hplace⟩ := h
  have hend : s'.source = s.source := (tidy_sequence htidy).source_eq h hc
  cases as with
  | nil => cases h
  | cons p ps =>
    refine ⟨p, ps, rfl, ?_⟩
    obtain ⟨hp, hps⟩ := List.forall_mem_cons.1 has
    simp only [sequence, sequenceFrom] at h
    rcases hfirst : p s with ⟨⟨v, hint⟩ | f | f, s₁⟩
    · -- The rest cannot have gone back, so a first part that read something leaves a committed failure.
      have hrest : sequenceFrom s.ordinal ps hint s₁ = (.failure e, s') := by
        simp only [hfirst, Hint.none_merge, ite_self] at h
        generalize sequenceFrom s.ordinal ps hint s₁ = rest at h
        obtain ⟨_ | _ | _, s₂⟩ := rest <;> cases h
        rfl
      refine .inr ⟨?_, s, s₁, v, hint, rfl, hfirst, ?_⟩
      · rintro rfl
        cases hrest
      · obtain ⟨m, -, hplace₁, hhint⟩ : ∃ m, n ≤ m ∧ s₁.source.At ⟨tokens, m⟩ ∧
            hint.Truthful K tokens m := hp.of_eq hi hfirst
        obtain ⟨k, hk, hplace', -⟩ := truthful_sequenceFrom hps s.ordinal hplace₁ hhint
        rw [hrest, hend] at hplace'
        refine ((htidy p (List.mem_cons_self ..)).success hfirst).1.eq_of_le ?_
        rw [hplace₁.ordinal_eq, hplace'.ordinal_eq]
        exact hk
    · rw [hfirst] at h
      simp only [Failure.withHint_none, (htidy p (List.mem_cons_self ..)).commitIf_eq hfirst,
        Result.map] at h
      cases h
      exact .inl ⟨⟨s, s', rfl, hfirst⟩, hc, hplace⟩
    · rw [hfirst] at h
      cases h

theorem of_choiceFrom {start : Int} {missed : Hint} {s s' : State Input} {p : Action Input Value}
    {ps : List (Action Input Value)} (htidy : ∀ q ∈ p :: ps, Tidy q)
    (hps : ∀ q ∈ p :: ps, Truthful K tokens q) (hi : i.At ⟨tokens, n⟩) (hs : s.source = i)
    (hmissed : ∀ f ∈ missed, (i.ordinal : Int) ≤ f.ordinal)
    (h : choiceFrom start p ps missed s = (.failure e, s')) (hc : e.committed = false)
    (hplace : e.ordinal = i.ordinal) :
    (∀ f ∈ missed, f.ordinal = i.ordinal ∧ ∀ label ∈ f.expected, label ∈ e.expected) ∧
      (∀ q ∈ p :: ps, ∃ f, FailsOn q i f ∧ ∀ label ∈ f.expected, label ∈ e.expected) ∧
      ∀ label ∈ e.expected, (∃ f ∈ missed, label ∈ f.expected) ∨
        ∃ q ∈ p :: ps, ∃ f, FailsOn q i f ∧ label ∈ f.expected := by
  obtain ⟨hp, hothers⟩ := List.forall_mem_cons.1 hps
  obtain ⟨htidy, htidys⟩ := List.forall_mem_cons.1 htidy
  unfold choiceFrom at h
  split at h
  · cases h
  · rename_i f s₁ h₁
    split at h
    · rename_i hc'
      cases h
      rw [hc] at hc'
      cases hc'
    · rename_i hc'
      have hf : f.committed = false := by simpa using hc'
      have hs₁ : s₁.source = i := (htidy.source_eq h₁ hf).trans hs
      have hle : (i.ordinal : Int) ≤ f.ordinal := hs₁ ▸ hp.le_ordinal (hs ▸ hi) h₁
      obtain ⟨hfurthest, hall⟩ := Hint.elim_merge hmissed hle
      -- What the alternatives so far have missed stands here as well, whether others follow or not.
      obtain ⟨⟨heq, hsub⟩, hparts, hlabels⟩ :
          ((missed.elim f (·.merge f)).ordinal = i.ordinal ∧
            ∀ label ∈ (missed.elim f (·.merge f)).expected, label ∈ e.expected) ∧
          (∀ q ∈ ps, ∃ f, FailsOn q i f ∧ ∀ label ∈ f.expected, label ∈ e.expected) ∧
          ∀ label ∈ e.expected, label ∈ (missed.elim f (·.merge f)).expected ∨
            ∃ q ∈ ps, ∃ f, FailsOn q i f ∧ label ∈ f.expected := by
        cases ps with
        | nil =>
          cases h
          exact ⟨⟨hplace, fun _ => id⟩, by simp, fun _ => .inl⟩
        | cons q qs =>
          have hnext := of_choiceFrom htidys hothers hi hs₁ (by simpa using hfurthest) h hc hplace
          simpa using hnext
      obtain ⟨hmissed, heq, hunion⟩ := hall heq
      have hfails : FailsOn p i f := ⟨⟨s, s₁, hs, h₁⟩, hf, heq⟩
      refine ⟨fun g hg => ⟨hmissed g hg, fun label hl => ?_⟩, List.forall_mem_cons.2 ⟨?_, hparts⟩,
        fun label hl => ?_⟩
      · exact hsub label ((hunion label).2 (.inl ⟨g, hg, hl⟩))
      · exact ⟨f, hfails, fun label hl => hsub label ((hunion label).2 (.inr hl))⟩
      · rcases hlabels label hl with hl | ⟨q, hq, g, hg, hl⟩
        · exact ((hunion label).1 hl).imp_right fun hl => ⟨p, List.mem_cons_self .., f, hfails, hl⟩
        · exact .inr ⟨q, List.mem_cons_of_mem _ hq, g, hg, hl⟩
  · cases h

theorem of_choice {p : Action Input Value} {ps : List (Action Input Value)}
    (htidy : ∀ q ∈ p :: ps, Tidy q) (hps : ∀ q ∈ p :: ps, Truthful K tokens q)
    (hi : i.At ⟨tokens, n⟩) (h : FailsOn (choice p ps) i e) :
    (∀ q ∈ p :: ps, ∃ f, FailsOn q i f ∧ ∀ label ∈ f.expected, label ∈ e.expected) ∧
      ∀ label ∈ e.expected, ∃ q ∈ p :: ps, ∃ f, FailsOn q i f ∧ label ∈ f.expected := by
  obtain ⟨⟨s, s', hs, h⟩, hc, hplace⟩ := h
  obtain ⟨-, hparts, hlabels⟩ := of_choiceFrom htidy hps hi hs (by simp) h hc hplace
  exact ⟨hparts, fun label hl => (hlabels label hl).resolve_left (by simp)⟩

end FailsOn

end Action

namespace Parser

variable {rules : Rules} {limit depth n : Nat} {i : Input} {p q : Parser} {e : Failure}
  {tokens : List Token}

/-- The parser may succeed on the input without reading. -/
def PassesOn (rules : Rules) (p : Parser) (i : Input) : Prop :=
  ∃ limit depth, Action.PassesOn (p.action (rules.call limit depth) limit) i

/-- The labels of the parser are not told too early on the input: it has no further parts behind a first
one that may read nothing there, and its name is not empty. -/
def Foretells (rules : Rules) (i : Input) : Parser → Prop
  | .sequence (p :: _ :: _) => ¬p.PassesOn rules i
  | .named label _ => label.isEmpty = false
  | _ => True

theorem Front.of_fronts {K L : Parser → Prop} (hK : ∀ r, L r → K r)
    (hL : ∀ r, L r → ∀ q ∈ r.fronts rules, L q) (hp : L p) : ∀ q, p.Front rules q → K q := by
  intro q hq
  refine hK q ?_
  induction hq with
  | refl => exact hp
  | tail _ hr ih => exact hL _ ih _ hr

theorem PassesOn.nullable (h : p.PassesOn rules i) : p.Nullable rules := by
  obtain ⟨limit, depth, s, s', v, hint, hs, h, hs'⟩ := h
  exact nullable_of_passes (nullable_rule rules limit depth) p
    ⟨s, s', v, hint, h, hs'.trans hs.symm⟩

theorem truthful_action (rules : Rules) (limit depth : Nat) (tokens : List Token) (p : Parser) :
    Action.Truthful (fun _ => True) tokens (p.action (rules.call limit depth) limit) :=
  Action.truthful_stable.action limit depth p fun _ _ => trivial

theorem truthful_actions (rules : Rules) (limit depth : Nat) (tokens : List Token) (ps : List Parser) :
    ∀ a ∈ Parser.actions (rules.call limit depth) limit ps,
      Action.Truthful (fun _ => True) tokens a := by
  rintro a ha
  obtain ⟨p, -, rfl⟩ := mem_actions.1 ha
  exact p.truthful_action rules limit depth tokens

/-- A failure of the parser on the input, as it comes from what the parser starts with: from a label of
the parser itself, or from failures on the input with the same labels together. -/
structure Gathers (rules : Rules) (act : Parser → Action Input Value) (i : Input) (p : Parser)
    (e : Failure) : Prop where
  built : ∀ f, p ≠ .invalid f
  own : ∀ label, p.ownLabel? = some label → label ∈ e.expected
  fronts : ∀ q ∈ p.fronts rules, ∃ f, (act q).FailsOn i f ∧ ∀ label ∈ f.expected, label ∈ e.expected
  labels : ∀ label ∈ e.expected, p.ownLabel? = some label ∨
    ∃ q ∈ p.fronts rules, ∃ f, (act q).FailsOn i f ∧ label ∈ f.expected

theorem Gathers.of_front {act : Parser → Action Input Value} (hown : p.ownLabel? = none)
    (hfronts : p.fronts rules = [q]) (h : (act q).FailsOn i e) : p.Gathers rules act i e where
  built := by
    rintro f rfl
    cases hfronts
  own := by simp [hown]
  fronts := by simpa [hfronts] using ⟨e, h, fun _ => id⟩
  labels label hl := .inr ⟨q, by simp [hfronts], e, h, hl⟩

theorem Gathers.of_own {act : Parser → Action Input Value} {label : String}
    (hown : p.ownLabel? = some label) (hfronts : p.fronts rules = []) (h : e.expected = [label]) :
    p.Gathers rules act i e where
  built := by
    rintro f rfl
    cases hown
  own := by simp [hown, h]
  fronts := by simp [hfronts]
  labels := by simp [hown, h]

/-- What fails on an input without reading is not to be run any further than what it starts with. -/
theorem gathers (hi : i.At ⟨tokens, n⟩) (hrule : ∀ name, p ≠ .rule name) (hp : p.Foretells rules i)
    (h : (p.action (rules.call limit depth) limit).FailsOn i e) :
    p.Gathers rules (·.action (rules.call limit depth) limit) i e := by
  have htidy := tidy_action rules limit depth
  cases p with
  | token m => exact .of_own rfl rfl h.token
  | eof => exact .of_own rfl rfl h.eof
  | sequence ps =>
    obtain ⟨a, as, hparts, hfirst⟩ := Action.FailsOn.of_sequence (tidy_actions rules limit depth ps)
      (truthful_actions rules limit depth tokens ps) hi h
    cases ps with
    | nil => cases hparts
    | cons p ps =>
      cases hparts
      rcases hfirst with hfirst | ⟨hne, hpass⟩
      · exact .of_front rfl rfl hfirst
      · cases ps with
        | nil => exact absurd rfl hne
        | cons q qs => exact absurd ⟨limit, depth, hpass⟩ hp
  | choice p ps =>
    obtain ⟨hparts, hlabels⟩ := Action.FailsOn.of_choice (tidy_actions rules limit depth (p :: ps))
      (truthful_actions rules limit depth tokens (p :: ps)) hi h
    refine ⟨by simp, by simp [ownLabel?], fun q hq => hparts _ (mem_actions.2 ⟨q, hq, rfl⟩),
      fun label hl => ?_⟩
    obtain ⟨a, ha, f, hf, hl⟩ := hlabels label hl
    rw [← Parser.actions] at ha
    obtain ⟨q, hq, rfl⟩ := mem_actions.1 ha
    exact .inr ⟨q, hq, f, hf, hl⟩
  | map f p => exact .of_front rfl rfl h.of_map
  | named label p =>
    refine .of_own ?_ rfl h.named
    rw [ownLabel?, if_neg (by rw [hp]; exact Bool.false_ne_true)]
  | many minimum p => exact .of_front rfl rfl (h.of_many (htidy p))
  | opt default p => exact absurd h Action.FailsOn.not_opt
  | attempt p =>
    exact .of_front rfl rfl
      (h.of_attempt (htidy p) (p.truthful_action rules limit depth tokens) hi)
  | delayed label p => exact .of_front rfl rfl h
  | rule name => exact absurd rfl (hrule name)
  | invalid f => exact absurd h Action.FailsOn.not_abort

/-- Induction on what a parser starts with. -/
theorem fronts_induction (rules : Rules) {motive : Parser → Prop}
    (rule : ∀ name, motive (.rule name))
    (step : ∀ p, (∀ name, p ≠ .rule name) → (∀ q ∈ p.fronts rules, motive q) → motive p)
    (p : Parser) : motive p := by
  induction p using Parser.induction with
  | sequence ps ih =>
    exact step (.sequence ps) (by simp) fun q hq => ih q (List.mem_of_mem_take hq)
  | choice p ps ih => exact step (.choice p ps) (by simp) ih
  | rule name => exact rule name
  | map f p ih => exact step (.map f p) (by simp) (List.forall_mem_singleton.2 ih)
  | many minimum p ih => exact step (.many minimum p) (by simp) (List.forall_mem_singleton.2 ih)
  | opt default p ih => exact step (.opt default p) (by simp) (List.forall_mem_singleton.2 ih)
  | attempt p ih => exact step (.attempt p) (by simp) (List.forall_mem_singleton.2 ih)
  | delayed label p ih => exact step (.delayed label p) (by simp) (List.forall_mem_singleton.2 ih)
  | token m => exact step (.token m) (by simp) (by simp [fronts])
  | eof => exact step .eof (by simp) (by simp [fronts])
  | named label p => exact step (.named label p) (by simp) (by simp [fronts])
  | invalid e => exact step (.invalid e) (by simp) (by simp [fronts])

/-- The failure has the labels that the parser announces, and so has a survey that goes no deeper. -/
structure Agrees (rules : Rules) (depth : Nat) (p : Parser) (e : Failure) : Prop where
  expected : ∀ label, label ∈ e.expected ↔ p.Announces rules depth label
  lists : ∀ d ≤ depth, (p.labels (rules.labels d)).Lists (p.Announces rules d)

theorem Gathers.agrees {act : Parser → Action Input Value} (h : p.Gathers rules act i e)
    (hrule : ∀ name, p ≠ .rule name)
    (hfronts : ∀ q ∈ p.fronts rules, ∀ f, (act q).FailsOn i f → q.Agrees rules depth f) :
    p.Agrees rules depth e where
  expected label := by
    rw [announces_iff hrule]
    constructor
    · intro hl
      refine (h.labels label hl).imp_right ?_
      rintro ⟨q, hq, f, hf, hl⟩
      exact ⟨q, hq, ((hfronts q hq f hf).expected label).1 hl⟩
    · rintro (hown | ⟨q, hq, hannounces⟩)
      · exact h.own label hown
      · obtain ⟨f, hf, hsub⟩ := h.fronts q hq
        exact hsub label (((hfronts q hq f hf).expected label).2 hannounces)
  lists d hd := by
    refine (lists_labels hrule h.built fun q hq => ?_).congr fun label => (announces_iff hrule).symm
    obtain ⟨f, hf, -⟩ := h.fronts q hq
    exact (hfronts q hq f hf).lists d hd

theorem Agrees.rule {name : String} (hname : rules.lookup name = some (.ok p))
    (h : p.Agrees rules depth e) : (Parser.rule name).Agrees rules (depth + 1) e where
  expected label := by simp [h.expected, announces_rule_succ, hname]
  lists d hd := by
    cases d with
    | zero =>
      exact (Survey.Lists.pure []).congr fun label => iff_of_false (by simp) not_announces_rule_zero
    | succ d =>
      have hlists := (h.lists d (Nat.le_of_succ_le_succ hd)).afterNote (·.use name)
      have hlabels : (Parser.rule name).labels (rules.labels (d + 1)) =
          (do modify (·.use name); p.labels (rules.labels d)) := by
        change rules.labels (d + 1) name = _
        rw [Rules.labels, hname]
      rw [hlabels]
      exact hlists.congr fun label => by simp [announces_rule_succ, hname]

theorem agrees_of_rules (hi : i.At ⟨tokens, n⟩)
    (hcall : ∀ name f, (∀ q, (Parser.rule name).Front rules q → q.Foretells rules i) →
      (rules.call limit depth name).FailsOn i f → (Parser.rule name).Agrees rules depth f)
    (hp : ∀ q, p.Front rules q → q.Foretells rules i)
    (h : (p.action (rules.call limit depth) limit).FailsOn i e) : p.Agrees rules depth e := by
  induction p using fronts_induction rules generalizing e with
  | rule name => exact hcall name e hp h
  | step p hrule ih =>
    exact (gathers hi hrule (hp p .refl) h).agrees hrule fun q hq f hf =>
      ih q hq (fun r hr => hp r (hr.head hq)) hf

theorem agrees_of_call (hi : i.At ⟨tokens, n⟩) (name : String) {f : Failure}
    (hname : ∀ q, (Parser.rule name).Front rules q → q.Foretells rules i)
    (h : (rules.call limit depth name).FailsOn i f) : (Parser.rule name).Agrees rules depth f := by
  induction depth generalizing name f with
  | zero => exact absurd h Action.FailsOn.not_abort
  | succ depth ih =>
    rw [Rules.call_succ] at h
    split at h
    · rename_i p hlookup
      have hfront : p ∈ (Parser.rule name).fronts rules := by simp [fronts, hlookup]
      exact (agrees_of_rules hi (fun name f => ih name) (fun q hq => hname q (hq.head hfront))
        h.of_afterNote).rule hlookup
    · exact absurd h.of_afterNote Action.FailsOn.not_abort
    · exact absurd h Action.FailsOn.not_abort

/-- The labels of a parser are those of the failure that it ends in where it starts, without reading, if
nothing that it starts with is a sequence whose first part may read nothing there and which has further
parts, or has an empty name. -/
theorem run_foretold (rules : Rules) {p : Parser} {trees : List TokenTree} {s s' : State Input}
    (hs : (Stream.input s.source).Reachable trees) {e : Failure}
    (h : p.run rules s = (.failure e, s')) (hc : e.committed = false) (hplace : e.ordinal = s.ordinal)
    (hp : ∀ q, p.Front rules q → q.Foretells rules s.source) (j : Journal) :
    ∃ labels j', p.expected rules j = (.ok labels, j') ∧
      ∀ label, label ∈ labels ↔ label ∈ e.expected := by
  obtain ⟨n, hi⟩ := hs.input_at
  have hagrees := agrees_of_rules hi (fun name f => agrees_of_call hi name) hp
    ⟨⟨s, s', rfl, h⟩, hc, hplace⟩
  have hdepth : rules.length + 1 ≤ (rules.length + 1) * (TokenSource.remaining s.source + 1) :=
    Nat.le_mul_of_pos_right _ (Nat.succ_pos _)
  obtain ⟨labels, j', hrun, hlabels⟩ := hagrees.lists (rules.length + 1) hdepth j
  refine ⟨labels, j', hrun, fun label => ?_⟩
  rw [hlabels, hagrees.expected, announces_iff_length (Nat.le_succ _),
    announces_iff_length ((Nat.le_succ _).trans hdepth)]

/-- Behind `a` in `a -`: a rule, a name, an attempt and a repetition fail in front of `-`. -/
theorem run_foretold_alternatives :
    let rules : Rules := [("word", .ok (.token .ident))]
    let pair : Parser := .sequence [.token (.punct '+'), .token .ident]
    let p : Parser := .choice (.rule "word")
      [.named "string" (.token .literal), .attempt pair, .many 1 (.token (.keyword "let"))]
    let s : State Input :=
      ⟨(Input.ofTrees [.ident "a" .callSite, .punct '-' .alone .callSite]).next.2, {}⟩
    let run := p.run rules s
    ∃ e labels j', run.1 = .failure e ∧ p.expected rules {} = (.ok labels, j') ∧
      labels = ["IDENT", "string", "+", "let"] ∧ ∀ label, label ∈ labels ↔ label ∈ e.expected := by
  intro rules pair p s run
  have hs : (Stream.input s.source).Reachable _ := Stream.Reachable.ofTrees.next
  have hplus : ¬(Parser.token (.punct '+')).PassesOn rules s.source := fun h => nomatch h.nullable
  have hforetells : ∀ q, p.Front rules q → q.Foretells rules s.source := by
    refine Front.of_fronts (L := fun q => q ∈ [p, .rule "word", .token .ident,
      .named "string" (.token .literal), .attempt pair, pair, .token (.punct '+'),
      .many 1 (.token (.keyword "let")), .token (.keyword "let")]) ?_ ?_ (List.mem_cons_self ..)
    · simp only [List.mem_cons, List.not_mem_nil, or_false, forall_eq_or_imp, forall_eq]
      simp [p, pair, Foretells, hplus]
    · simp [p, pair, rules, fronts]
  have hfailure : run.1.ctorIdx = 1 := by decide +kernel
  have hview : run.1.report.map (fun e => (e.committed, e.ordinal)) = some (false, s.ordinal) := by
    decide +kernel
  obtain ⟨e, he⟩ := Result.exists_failure hfailure
  simp only [he, Result.report, Option.map_some, Option.some.injEq, Prod.mk.injEq] at hview
  obtain ⟨labels, j', hlabels, hsame⟩ := run_foretold rules hs
    (Prod.ext he rfl : run = (.failure e, run.2)) hview.1 hview.2 hforetells {}
  refine ⟨e, labels, j', he, hlabels, ?_, hsame⟩
  have hvalue : (p.expected rules {}).1 = .ok ["IDENT", "string", "+", "let"] := by
    with_unfolding_all rfl
  rw [hlabels] at hvalue
  exact Except.ok.inj hvalue

/-- On `1`, an option in front of `+` fails for want of both, and foretells only what the option asks
for. An empty name is asked for, but not foretold. -/
theorem run_foretold_behind :
    let s : State Input := ⟨Input.ofTrees [.literal "1" .callSite], {}⟩
    let signed : Parser := .sequence [.opt .null (.token .ident), .token (.punct '+')]
    (∃ e s' j', signed.run [] s = (.failure e, s') ∧ e.committed = false ∧ e.ordinal = s.ordinal ∧
      e.expected = ["+", "IDENT"] ∧ signed.expected [] {} = (.ok ["IDENT"], j')) ∧
    ∃ e s' j', (named "" (.token .ident)).run [] s = (.failure e, s') ∧ e.committed = false ∧
      e.ordinal = s.ordinal ∧ e.expected = [""] ∧
      (named "" (.token .ident)).expected [] {} = (.ok [], j') := by
  intro s signed
  exact ⟨⟨_, _, _, by with_unfolding_all rfl, by with_unfolding_all rfl, by with_unfolding_all rfl,
      by with_unfolding_all rfl, by with_unfolding_all rfl⟩,
    _, _, _, by with_unfolding_all rfl, by with_unfolding_all rfl, by with_unfolding_all rfl,
    by with_unfolding_all rfl, by with_unfolding_all rfl⟩

end Parser

end TokenParsing
