import Mathlib.Data.Finset.Card
import TokenParsing.Proofs.Commitment

/-!
# Reading nothing, and calling in circles

Whether a parser can succeed without reading is told from its term (`Parser.Nullable`), and from it
which rules it can use before it has read anything (`Parser.Calls`). A grammar is well-founded if no
rule can come to use itself again in this way (`Rules.WellFounded`); then at each place the rules rank
by how many others they can come to use there (`Rules.rank`).

The terms are right about the runs: what does succeed without reading is nullable
(`Parser.nullable_of_passes`).
-/

namespace TokenParsing

theorem Input.ordinal_lt_next {i : Input} {t : Token} (h : i.next.1 = some t) :
    i.ordinal < i.next.2.ordinal := by
  unfold Input.next at h ⊢
  split
  · exact Nat.lt_succ_self _
  · rename_i hn
    rw [hn] at h
    cases h

/-! ### Well-founded grammars -/

namespace Parser

/-- The parser may succeed without reading. -/
inductive Nullable (rules : Rules) : Parser → Prop
  | eof : Nullable rules .eof
  | sequence {ps : List Parser} (h : ∀ p ∈ ps, Nullable rules p) : Nullable rules (.sequence ps)
  | choice {p q : Parser} {ps : List Parser} (hq : q ∈ p :: ps) (h : Nullable rules q) :
    Nullable rules (.choice p ps)
  | map {f : Value → Except ValueError Value} {p : Parser} (h : Nullable rules p) :
    Nullable rules (.map f p)
  | named {label : String} {p : Parser} (h : Nullable rules p) : Nullable rules (.named label p)
  | many_of_le {minimum : Int} {p : Parser} (h : minimum ≤ 0) : Nullable rules (.many minimum p)
  | many {minimum : Int} {p : Parser} (h : Nullable rules p) : Nullable rules (.many minimum p)
  | opt {default : Value} {p : Parser} : Nullable rules (.opt default p)
  | attempt {p : Parser} (h : Nullable rules p) : Nullable rules (.attempt p)
  | delayed {label : String} {p : Parser} (h : Nullable rules p) : Nullable rules (.delayed label p)
  | rule {name : String} {p : Parser} (hname : rules.lookup name = some (.ok p))
    (h : Nullable rules p) : Nullable rules (.rule name)

/-- The parser may use the rule before it has read anything. -/
inductive Calls (rules : Rules) : Parser → String → Prop
  | rule {name : String} : Calls rules (.rule name) name
  | first {p : Parser} {ps : List Parser} {name : String} (h : Calls rules p name) :
    Calls rules (.sequence (p :: ps)) name
  | behind {p : Parser} {ps : List Parser} {name : String} (hp : p.Nullable rules)
    (h : Calls rules (.sequence ps) name) : Calls rules (.sequence (p :: ps)) name
  | choice {p q : Parser} {ps : List Parser} {name : String} (hq : q ∈ p :: ps)
    (h : Calls rules q name) : Calls rules (.choice p ps) name
  | map {f : Value → Except ValueError Value} {p : Parser} {name : String}
    (h : Calls rules p name) : Calls rules (.map f p) name
  | named {label : String} {p : Parser} {name : String} (h : Calls rules p name) :
    Calls rules (.named label p) name
  | many {minimum : Int} {p : Parser} {name : String} (h : Calls rules p name) :
    Calls rules (.many minimum p) name
  | opt {default : Value} {p : Parser} {name : String} (h : Calls rules p name) :
    Calls rules (.opt default p) name
  | attempt {p : Parser} {name : String} (h : Calls rules p name) : Calls rules (.attempt p) name
  | delayed {label : String} {p : Parser} {name : String} (h : Calls rules p name) :
    Calls rules (.delayed label p) name

theorem calls_choice {rules : Rules} {p : Parser} {ps : List Parser} {name : String} :
    (choice p ps).Calls rules name ↔ ∃ q ∈ p :: ps, q.Calls rules name := by
  constructor
  · rintro (_ | _ | _ | ⟨hq, h⟩)
    exact ⟨_, hq, h⟩
  · rintro ⟨q, hq, h⟩
    exact .choice hq h

theorem Calls.sequence {rules : Rules} {front back : List Parser} {p : Parser} {name : String}
    (hfront : ∀ q ∈ front, q.Nullable rules) (h : p.Calls rules name) :
    (Parser.sequence (front ++ p :: back)).Calls rules name := by
  induction front with
  | nil => exact .first h
  | cons q front ih =>
    obtain ⟨hq, hfront⟩ := List.forall_mem_cons.1 hfront
    exact .behind hq (ih hfront)

end Parser

namespace Rules

/-- The first rule may use the second before it has read anything. -/
def Leads (rules : Rules) (name name' : String) : Prop :=
  ∃ p, rules.lookup name = some (.ok p) ∧ p.Calls rules name'

/-- No rule can come to use itself again before a token is read. -/
def WellFounded (rules : Rules) : Prop := ∀ name, ¬Relation.TransGen rules.Leads name name

variable {rules : Rules} {name name' : String}

/-- The names of the rules. -/
def names (rules : Rules) : Finset String := (rules.map (·.1)).toFinset

theorem mem_names_of_lookup {r : Except GrammarError Parser} (h : rules.lookup name = some r) :
    name ∈ rules.names := by
  obtain ⟨front, back, hrules, -⟩ := List.lookup_eq_some_iff.1 h
  simp [names, hrules]

theorem Leads.mem_names (h : rules.Leads name name') : name ∈ rules.names := by
  obtain ⟨p, hp, -⟩ := h
  exact mem_names_of_lookup hp

open Classical in
/-- The number of rules that a rule may come to use before a token is read, itself included. -/
noncomputable def rank (rules : Rules) (name : String) : Nat :=
  (rules.names.filter (Relation.ReflTransGen rules.Leads name)).card

theorem rank_le (rules : Rules) (name : String) : rules.rank name ≤ rules.length := by
  classical
  calc rules.rank name ≤ rules.names.card := Finset.card_filter_le ..
    _ ≤ (rules.map (·.1)).length := List.toFinset_card_le _
    _ = rules.length := List.length_map _

theorem WellFounded.rank_lt (hrules : rules.WellFounded) (h : rules.Leads name name') :
    rules.rank name' < rules.rank name := by
  classical
  -- What is reached from `name'` is reached from `name`, but `name` is not reached from `name'`.
  refine Finset.card_lt_card (Finset.ssubset_iff_of_subset ?_ |>.2 ⟨name, ?_, ?_⟩)
  · exact Finset.monotone_filter_right _ fun _ _ hreach => hreach.head h
  · exact Finset.mem_filter.2 ⟨h.mem_names, .refl⟩
  · intro hmem
    exact hrules name (.head' h (Finset.mem_filter.1 hmem).2)

/-- A grammar is well-founded if some number of a rule gets smaller with each rule it leads to. -/
theorem WellFounded.of_measure (measure : String → Nat)
    (h : ∀ name name', rules.Leads name name' → measure name' < measure name) :
    rules.WellFounded := by
  have hlt : ∀ name name', Relation.TransGen rules.Leads name name' →
      measure name' < measure name := by
    intro name name' hreach
    induction hreach with
    | single hleads => exact h _ _ hleads
    | tail _ hleads ih => exact Nat.lt_trans (h _ _ hleads) ih
  exact fun name hcircle => Nat.lt_irrefl _ (hlt name name hcircle)

end Rules

namespace Action

variable {α : Type} {p : Action Input Value} {ps : List (Action Input Value)}

/-! ### What succeeds without reading -/

/-- The action succeeds on some input and leaves it as it was. -/
def Passes (a : Action Input α) : Prop :=
  ∃ (s s' : State Input) (v : α) (hint : Hint),
    a s = (.success v hint, s') ∧ s'.source = s.source

theorem not_passes_abort (f : Fault) : ¬Passes (abort f : Action Input α) := by
  rintro ⟨s, s', v, hint, h, -⟩
  cases h

theorem passes_afterNote {f : Journal → Journal} {a : Action Input α}
    (h : Passes (afterNote f a)) : Passes a := by
  obtain ⟨s, s', v, hint, h, hs⟩ := h
  exact ⟨{ s with journal := f s.journal }, s', v, hint, h, hs⟩

theorem not_passes_token (m : Matcher) : ¬Passes (token m) := by
  rintro ⟨s, s', v, hint, h, hs⟩
  simp only [token] at h
  split at h
  · rename_i u hu
    obtain ⟨t, ht, -⟩ := Option.bind_eq_some_iff.1 hu
    cases h
    have hlt : s.source.ordinal < (TokenSource.next s.source).2.ordinal := Input.ordinal_lt_next ht
    exact Nat.ne_of_gt hlt (congrArg Input.ordinal hs)
  · cases h

theorem sequenceFrom_success (hps : ∀ p ∈ ps, Tidy p) {start : Int} {hint hint' : Hint}
    {s s' : State Input} {vs : List Value}
    (h : sequenceFrom start ps hint s = (.success vs hint', s')) :
    s.source.Onward s'.source ∧ (s'.source = s.source → ∀ p ∈ ps, Passes p) := by
  induction ps generalizing hint s vs with
  | nil =>
    cases h
    exact ⟨.refl _, fun _ => by simp⟩
  | cons p ps ih =>
    obtain ⟨hp, hps⟩ := List.forall_mem_cons.1 hps
    simp only [sequenceFrom] at h
    split at h
    · rename_i v new s₁ h₁
      generalize hrest : sequenceFrom start ps _ s₁ = rest at h
      obtain ⟨_ | _ | _, s₂⟩ := rest <;> cases h
      obtain ⟨hon, hpass⟩ := ih hps hrest
      have hon₁ := (hp.success h₁).1
      refine ⟨hon₁.trans hon, fun heq => ?_⟩
      have hs₁ : s₁.source = s.source := hon₁.eq_of_le (heq ▸ hon.le)
      exact List.forall_mem_cons.2 ⟨⟨s, s₁, v, new, h₁, hs₁⟩, hpass (heq.trans hs₁.symm)⟩
    · cases h
    · cases h

theorem passes_sequence (hps : ∀ p ∈ ps, Tidy p) (h : Passes (sequence ps)) :
    ∀ p ∈ ps, Passes p := by
  obtain ⟨s, s', v, hint, h, hs⟩ := h
  simp only [sequence] at h
  generalize hfrom : sequenceFrom s.ordinal ps none s = x at h
  obtain ⟨_ | _ | _, s'⟩ := x <;> cases h
  exact (sequenceFrom_success hps hfrom).2 hs

theorem passes_choiceFrom {p : Action Input Value} {ps : List (Action Input Value)} (hp : Tidy p)
    (hps : ∀ q ∈ ps, Tidy q) {start : Int} {missed hint : Hint} {s s' : State Input} {v : Value}
    (h : choiceFrom start p ps missed s = (.success v hint, s')) (hs : s'.source = s.source) :
    ∃ q ∈ p :: ps, Passes q := by
  unfold choiceFrom at h
  split at h
  · rename_i u new s₁ h₁
    cases h
    exact ⟨p, List.mem_cons_self .., s, _, _, _, h₁, hs⟩
  · rename_i e s₁ h₁
    split at h
    · cases h
    · rename_i hc
      cases ps with
      | nil => cases h
      | cons q qs =>
        have hs₁ : s₁.source = s.source := hp.source_eq h₁ (by simpa using hc)
        obtain ⟨hq, hqs⟩ := List.forall_mem_cons.1 hps
        obtain ⟨r, hr, hpass⟩ := passes_choiceFrom hq hqs h (hs.trans hs₁.symm)
        exact ⟨r, List.mem_cons_of_mem _ hr, hpass⟩
  · cases h

theorem passes_choice (hp : Tidy p) (hps : ∀ q ∈ ps, Tidy q) (h : Passes (choice p ps)) :
    ∃ q ∈ p :: ps, Passes q := by
  obtain ⟨s, s', v, hint, h, hs⟩ := h
  exact passes_choiceFrom hp hps h hs

theorem passes_map {f : Value → Except ValueError Value} (h : Passes (map f p)) : Passes p := by
  obtain ⟨s, s', v, hint, h, hs⟩ := h
  unfold map at h
  split at h
  · rename_i u new s₁ h₁
    split at h <;> cases h
    exact ⟨s, _, _, _, h₁, hs⟩
  · exact ⟨s, s', v, hint, h, hs⟩

theorem passes_named {label : String} (h : Passes (named label p)) : Passes p := by
  obtain ⟨s, s', v, hint, h, hs⟩ := h
  simp only [named] at h
  split at h
  · rename_i u new s₁ h₁
    cases h
    exact ⟨s, _, _, _, h₁, hs⟩
  · split at h <;> cases h
  · exact ⟨s, s', v, hint, h, hs⟩

theorem passes_attempt (h : Passes (attempt p)) : Passes p := by
  obtain ⟨s, s', v, hint, h, hs⟩ := h
  simp only [attempt] at h
  split at h
  · cases h
  · exact ⟨s, s', v, hint, h, hs⟩

theorem onward_manyFrom (hp : Tidy p) {start minimum : Int} {limit count : Nat} {hint hint' : Hint}
    {s s' : State Input} {vs : List Value}
    (h : manyFrom start minimum p limit count hint s = (.success vs hint', s')) :
    s.source.Onward s'.source := by
  induction limit generalizing count hint s vs with
  | zero => cases h
  | succ limit ih =>
    simp only [manyFrom] at h
    split at h
    · rename_i v new s₁ h₁
      have hon := (hp.success h₁).1
      split at h
      · cases h
        exact hon
      · generalize hrest : manyFrom start minimum p limit _ new s₁ = rest at h
        obtain ⟨_ | _ | _, s₂⟩ := rest <;> cases h
        exact hon.trans (ih hrest)
    · rename_i e s₁ h₁
      split at h
      · cases h
      · rename_i hc
        simp only [not_or, Bool.not_eq_true] at hc
        cases h
        exact .inl (hp.source_eq h₁ hc.1)
    · cases h

theorem passes_many (hp : Tidy p) {minimum : Int} {limit : Nat} (h : Passes (many minimum limit p)) :
    minimum ≤ 0 ∨ Passes p := by
  obtain ⟨s, s', v, hint, h, hs⟩ := h
  cases limit with
  | zero => cases h
  | succ limit =>
    simp only [many, manyFrom] at h
    split at h
    · rename_i u new s₁ h₁
      have hon := (hp.success h₁).1
      have hs₁ : s₁.source = s.source := by
        split at h
        · cases h
          exact hs
        · generalize hrest : manyFrom _ minimum p limit _ new s₁ = rest at h
          obtain ⟨_ | _ | _, s₂⟩ := rest <;> cases h
          exact hon.eq_of_le (hs ▸ (onward_manyFrom hp hrest).le)
      exact .inr ⟨s, s₁, u, new, h₁, hs₁⟩
    · split at h
      · cases h
      · rename_i hc
        exact .inl (by omega)
    · cases h

end Action

namespace Parser

variable {rules : Rules} {limit depth : Nat}

section

variable {σ : Type} [TokenSource σ] {call : String → Action σ Value} {a : Action σ Value}
  {ps : List Parser}

theorem actions_eq_map (call : String → Action σ Value) (limit : Nat) (ps : List Parser) :
    Parser.actions call limit ps = ps.map (·.action call limit) := by
  induction ps with
  | nil => rfl
  | cons p ps ih => rw [Parser.actions, ih, List.map_cons]

theorem mem_actions :
    a ∈ Parser.actions call limit ps ↔ ∃ p ∈ ps, p.action call limit = a := by
  rw [actions_eq_map, List.mem_map]

end

theorem tidy_action (rules : Rules) (limit depth : Nat) (p : Parser) :
    Action.Tidy (p.action (rules.call limit depth) limit) :=
  Action.tidy_stable.action rules limit depth p

theorem tidy_actions (rules : Rules) (limit depth : Nat) (ps : List Parser) :
    ∀ a ∈ Parser.actions (rules.call limit depth) limit ps, Action.Tidy a := by
  rintro a ha
  obtain ⟨p, -, rfl⟩ := mem_actions.1 ha
  exact p.tidy_action rules limit depth

mutual

/-- What succeeds without reading is nullable, if that is so of the rules. -/
theorem nullable_of_passes
    (hcall : ∀ name, Action.Passes (rules.call limit depth name) →
      (Parser.rule name).Nullable rules) :
    ∀ p : Parser, Action.Passes (p.action (rules.call limit depth) limit) → p.Nullable rules
  | .token m, h => absurd h (Action.not_passes_token m)
  | .eof, _ => .eof
  | .sequence ps, h =>
    have hparts := Action.passes_sequence (tidy_actions rules limit depth ps) h
    .sequence fun p hp =>
      nullable_of_mem_of_passes hcall ps p hp (hparts _ (mem_actions.2 ⟨p, hp, rfl⟩))
  | .choice p ps, h => by
    have htidy := List.forall_mem_cons.1 (tidy_actions rules limit depth (p :: ps))
    obtain ⟨a, ha, hpass⟩ := Action.passes_choice htidy.1 htidy.2 h
    rw [← Parser.actions] at ha
    obtain ⟨q, hq, rfl⟩ := mem_actions.1 ha
    exact .choice hq (nullable_of_mem_of_passes hcall (p :: ps) q hq hpass)
  | .map f p, h => .map (nullable_of_passes hcall p (Action.passes_map h))
  | .named label p, h => .named (nullable_of_passes hcall p (Action.passes_named h))
  | .many minimum p, h =>
    (Action.passes_many (p.tidy_action rules limit depth) h).elim .many_of_le
      fun h => .many (nullable_of_passes hcall p h)
  | .opt default p, _ => .opt
  | .attempt p, h => .attempt (nullable_of_passes hcall p (Action.passes_attempt h))
  | .delayed _ p, h => .delayed (nullable_of_passes hcall p h)
  | .rule name, h => hcall name h
  | .invalid e, h => absurd h (Action.not_passes_abort _)

theorem nullable_of_mem_of_passes
    (hcall : ∀ name, Action.Passes (rules.call limit depth name) →
      (Parser.rule name).Nullable rules) :
    ∀ (ps : List Parser), ∀ p ∈ ps, Action.Passes (p.action (rules.call limit depth) limit) →
      p.Nullable rules
  | [] => by simp
  | p :: ps =>
    List.forall_mem_cons.2 ⟨nullable_of_passes hcall p, nullable_of_mem_of_passes hcall ps⟩

end

theorem nullable_rule (rules : Rules) (limit depth : Nat) (name : String)
    (h : Action.Passes (rules.call limit depth name)) : (Parser.rule name).Nullable rules := by
  induction depth generalizing name with
  | zero => exact absurd h (Action.not_passes_abort _)
  | succ depth ih =>
    rw [Rules.call_succ] at h
    split at h
    · rename_i p hname
      exact .rule hname (nullable_of_passes ih p (Action.passes_afterNote h))
    · exact absurd (Action.passes_afterNote h) (Action.not_passes_abort _)
    · exact absurd h (Action.not_passes_abort _)

end Parser

end TokenParsing
