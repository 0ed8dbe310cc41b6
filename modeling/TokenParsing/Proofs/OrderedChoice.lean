import TokenParsing.Proofs.Induction
import TokenParsing.Proofs.Termination

/-!
# Attempts everywhere make choices ordered

A parser can be read as a parsing expression, which goes back wherever a part of it fails and knows of
neither commitment nor hints (`Parser.Peg`). It is told on lists of tokens alone, and on each list
it comes to one outcome at most (`Parser.Peg.unique`).

Running a parser is something else, since a choice does not go on after a failure that has read
something. But where the alternatives of the choices and the bodies of options and repetitions are
attempts, no such failure reaches them, and the outcome of a run is that of the parsing expression
(`Parser.run_peg`).
-/

namespace TokenParsing

/-- What a parsing expression comes to on a list of tokens: a value and the tokens behind it, nothing,
or a fault that no alternative can mend. -/
inductive Outcome where
  | success (value : Value) (rest : List Token)
  | failure
  | raised (f : Fault)

namespace Outcome

def Misses : Outcome → Prop
  | .success .. => False
  | _ => True

/-- The value in front of those of a tuple or a list. -/
def prepend (v : Value) : Outcome → Outcome
  | .success (.tuple vs) rest => .success (.tuple (v :: vs)) rest
  | .success (.list vs) rest => .success (.list (v :: vs)) rest
  | o => o

def map (f : Value → Except ValueError Value) : Outcome → Outcome
  | .success v rest =>
    match f v with
    | .ok u => .success u rest
    | .error e => .raised (.value e)
  | o => o

end Outcome

/-- The outcome of a run that leaves the given tokens, whatever it was committed to and whatever it
hints at. -/
def Result.outcome (rest : List Token) : Result Value → Outcome
  | .success v _ => .success v rest
  | .failure _ => .failure
  | .abort f => .raised f

namespace Parser

/-- What a parser comes to as a parsing expression. A choice tries its alternatives in order until one
does not fail. A repetition goes on until its body fails or reads nothing, and fails if the body
fails too early; once the body has matched, it is needed one time less. An option never fails. -/
inductive Peg (rules : Rules) : Parser → List Token → Outcome → Prop
  | token {m : Matcher} {t : Token} {v : Value} {ts : List Token} (h : m.accept t = some v) :
    Peg rules (.token m) (t :: ts) (.success v ts)
  | no_token {m : Matcher} {ts : List Token} (h : ts.head?.bind m.accept = none) :
    Peg rules (.token m) ts .failure
  | eof : Peg rules .eof [] (.success .null [])
  | no_eof {t : Token} {ts : List Token} : Peg rules .eof (t :: ts) .failure
  | sequence_nil {ts : List Token} : Peg rules (.sequence []) ts (.success (.tuple []) ts)
  | sequence_cons {p : Parser} {ps : List Parser} {ts us : List Token} {v : Value} {o : Outcome}
    (h : Peg rules p ts (.success v us)) (hrest : Peg rules (.sequence ps) us o) :
    Peg rules (.sequence (p :: ps)) ts (o.prepend v)
  | sequence_miss {p : Parser} {ps : List Parser} {ts : List Token} {o : Outcome}
    (h : Peg rules p ts o) (ho : o.Misses) : Peg rules (.sequence (p :: ps)) ts o
  | choice {p : Parser} {ps : List Parser} {ts : List Token} {o : Outcome} (h : Peg rules p ts o)
    (ho : o ≠ .failure) : Peg rules (.choice p ps) ts o
  | choice_last {p : Parser} {ts : List Token} (h : Peg rules p ts .failure) :
    Peg rules (.choice p []) ts .failure
  | choice_next {p q : Parser} {ps : List Parser} {ts : List Token} {o : Outcome}
    (h : Peg rules p ts .failure) (hrest : Peg rules (.choice q ps) ts o) :
    Peg rules (.choice p (q :: ps)) ts o
  | map {f : Value → Except ValueError Value} {p : Parser} {ts : List Token} {o : Outcome}
    (h : Peg rules p ts o) : Peg rules (.map f p) ts (o.map f)
  | named {label : String} {p : Parser} {ts : List Token} {o : Outcome} (h : Peg rules p ts o) :
    Peg rules (.named label p) ts o
  | many_stop {minimum : Int} {p : Parser} {ts : List Token} (h : Peg rules p ts .failure)
    (hmin : minimum ≤ 0) : Peg rules (.many minimum p) ts (.success (.list []) ts)
  | many_short {minimum : Int} {p : Parser} {ts : List Token} (h : Peg rules p ts .failure)
    (hmin : 0 < minimum) : Peg rules (.many minimum p) ts .failure
  | many_empty {minimum : Int} {p : Parser} {ts : List Token} {v : Value}
    (h : Peg rules p ts (.success v ts)) :
    Peg rules (.many minimum p) ts (.success (.list [v]) ts)
  | many_more {minimum : Int} {p : Parser} {ts us : List Token} {v : Value} {o : Outcome}
    (h : Peg rules p ts (.success v us)) (hne : us ≠ ts)
    (hrest : Peg rules (.many (minimum - 1) p) us o) :
    Peg rules (.many minimum p) ts (o.prepend v)
  | many_raised {minimum : Int} {p : Parser} {ts : List Token} {f : Fault}
    (h : Peg rules p ts (.raised f)) : Peg rules (.many minimum p) ts (.raised f)
  | opt {default : Value} {p : Parser} {ts : List Token} {o : Outcome} (h : Peg rules p ts o)
    (ho : o ≠ .failure) : Peg rules (.opt default p) ts o
  | opt_default {default : Value} {p : Parser} {ts : List Token} (h : Peg rules p ts .failure) :
    Peg rules (.opt default p) ts (.success default ts)
  | attempt {p : Parser} {ts : List Token} {o : Outcome} (h : Peg rules p ts o) :
    Peg rules (.attempt p) ts o
  | delayed {label : String} {p : Parser} {ts : List Token} {o : Outcome} (h : Peg rules p ts o) :
    Peg rules (.delayed label p) ts o
  | rule {name : String} {p : Parser} {ts : List Token} {o : Outcome}
    (hname : rules.lookup name = some (.ok p)) (h : Peg rules p ts o) : Peg rules (.rule name) ts o
  | broken {name : String} {e : GrammarError} {ts : List Token}
    (hname : rules.lookup name = some (.error e)) :
    Peg rules (.rule name) ts (.raised (.grammar e))
  | unknown {name : String} {ts : List Token} (hname : rules.lookup name = none) :
    Peg rules (.rule name) ts (.raised (.grammar (.unknownRule name)))
  | invalid {e : GrammarError} {ts : List Token} :
    Peg rules (.invalid e) ts (.raised (.grammar e))

namespace Peg

variable {rules : Rules} {p : Parser} {ts : List Token} {o o' : Outcome}

/-- A parsing expression comes to one outcome at most. -/
theorem unique (h : p.Peg rules ts o) (h' : p.Peg rules ts o') : o = o' := by
  -- on the first derivation: the second ends in a rule for the same form, and its parts come to the same
  induction h generalizing o' with
  | token h =>
    cases h' with
    | token h' => rw [Option.some.inj (h.symm.trans h')]
    | no_token h' => simp [h] at h'
  | no_token h =>
    cases h' with
    | token h' => simp [h'] at h
    | no_token => rfl
  | eof => cases h'; rfl
  | no_eof => cases h'; rfl
  | sequence_nil => cases h'; rfl
  | sequence_cons _ _ ih ihrest =>
    cases h' with
    | sequence_cons h' hrest' =>
      cases ih h'
      rw [ihrest hrest']
    | sequence_miss h' ho' =>
      cases ih h'
      exact ho'.elim
  | sequence_miss _ ho ih =>
    cases h' with
    | sequence_cons h' =>
      cases ih h'
      exact ho.elim
    | sequence_miss h' => exact ih h'
  | choice _ ho ih =>
    cases h' with
    | choice h' => exact ih h'
    | choice_last h' => exact absurd (ih h') ho
    | choice_next h' => exact absurd (ih h') ho
  | choice_last _ ih =>
    cases h' with
    | choice h' ho' => exact absurd (ih h').symm ho'
    | choice_last => rfl
  | choice_next _ _ ih ihrest =>
    cases h' with
    | choice h' ho' => exact absurd (ih h').symm ho'
    | choice_next _ hrest' => exact ihrest hrest'
  | map _ ih =>
    cases h' with
    | map h' => rw [ih h']
  | named _ ih =>
    cases h' with
    | named h' => exact ih h'
  | many_stop _ hmin ih =>
    cases h' with
    | many_stop => rfl
    | many_short _ hmin' => omega
    | many_empty h' | many_more h' | many_raised h' => cases ih h'
  | many_short _ hmin ih =>
    cases h' with
    | many_stop _ hmin' => omega
    | many_short => rfl
    | many_empty h' | many_more h' | many_raised h' => cases ih h'
  | many_empty _ ih =>
    cases h' with
    | many_empty h' => cases ih h'; rfl
    | many_more h' hne' => cases ih h'; exact absurd rfl hne'
    | many_stop h' | many_short h' | many_raised h' => cases ih h'
  | many_more _ hne _ ih ihrest =>
    cases h' with
    | many_empty h' => cases ih h'; exact absurd rfl hne
    | many_more h' _ hrest' =>
      cases ih h'
      rw [ihrest hrest']
    | many_stop h' | many_short h' | many_raised h' => cases ih h'
  | many_raised _ ih =>
    cases h' with
    | many_raised h' => exact ih h'
    | many_stop h' | many_short h' | many_empty h' | many_more h' => cases ih h'
  | opt _ ho ih =>
    cases h' with
    | opt h' => exact ih h'
    | opt_default h' => exact absurd (ih h') ho
  | opt_default _ ih =>
    cases h' with
    | opt h' ho' => exact absurd (ih h').symm ho'
    | opt_default => rfl
  | attempt _ ih =>
    cases h' with
    | attempt h' => exact ih h'
  | delayed _ ih =>
    cases h' with
    | delayed h' => exact ih h'
  | rule hname _ ih =>
    cases h' with
    | rule hname' h' =>
      cases hname.symm.trans hname'
      exact ih h'
    | broken hname' => cases hname.symm.trans hname'
    | unknown hname' => cases hname.symm.trans hname'
  | broken hname =>
    cases h' with
    | rule hname' => cases hname.symm.trans hname'
    | broken hname' => cases hname.symm.trans hname'; rfl
    | unknown hname' => cases hname.symm.trans hname'
  | unknown hname =>
    cases h' with
    | rule hname' => cases hname.symm.trans hname'
    | broken hname' => cases hname.symm.trans hname'
    | unknown => rfl
  | invalid => cases h'; rfl

end Peg

/-! ### Runs -/

def IsAttempt : Parser → Prop
  | .attempt _ => True
  | _ => False

/-- Wherever the parser itself goes on after a failure of a part of it, the part is an attempt. -/
def Backtracking : Parser → Prop
  | .choice p ps => ∀ q ∈ p :: ps, q.IsAttempt
  | .many _ p => p.IsAttempt
  | .opt _ p => p.IsAttempt
  | _ => True

end Parser

namespace Input.At

variable {i j : Input} {tokens : List Token} {m n : Nat}

theorem tokens_ne (hi : i.At ⟨tokens, n⟩) (hj : j.At ⟨tokens, m⟩) (hlt : n < m) :
    j.tokens ≠ i.tokens := by
  intro heq
  have hlen := congrArg List.length heq
  rw [hi.remaining_eq, hj.remaining_eq] at hlen
  have hle := hj.index_le
  simp only at hlen hle
  omega

theorem head?_tokens (h : i.At ⟨tokens, n⟩) : i.tokens.head? = i.next.1 := by
  rw [h.tokens_eq, List.head?_drop]
  exact h.peek.symm

theorem tokens_next (h : i.At ⟨tokens, n⟩) {t : Token} (ht : i.next.1 = some t) :
    i.tokens = t :: i.next.2.tokens := by
  rcases Nat.lt_or_ge n tokens.length with hn | hn
  · obtain ⟨htoken, hplace⟩ := h.next_of_lt hn
    obtain rfl : tokens[n] = t := Option.some.inj (htoken.symm.trans ht)
    rw [h.tokens_eq, hplace.tokens_eq, List.getElem_cons_drop]
  · rw [h.next_of_le hn] at ht
    cases ht

theorem isEmpty_iff (h : i.At ⟨tokens, n⟩) : i.isEmpty = true ↔ i.tokens = [] := by
  rw [Input.isEmpty, List.isEmpty_iff]
  exact h.settled.eq_nil_iff

end Input.At

namespace Result

variable {α β : Type}

theorem outcome_tuple_cons (v : Value) (rest : List Token) (r : Result (List Value)) :
    ((r.map (v :: ·)).map .tuple).outcome rest = ((r.map .tuple).outcome rest).prepend v := by
  cases r <;> rfl

theorem outcome_list_cons (v : Value) (rest : List Token) (r : Result (List Value)) :
    ((r.map (v :: ·)).map .list).outcome rest = ((r.map .list).outcome rest).prepend v := by
  cases r <;> rfl

/-- The result is not that of a run without end. -/
def Ends (r : Result α) : Prop := r ≠ .abort .exhausted

theorem ends_map {f : α → β} {r : Result α} : (r.map f).Ends ↔ r.Ends := by
  cases r <;> simp [Result.map, Ends]

end Result

namespace Action

variable {rules : Rules} {tokens : List Token} {n : Nat} {p : Parser} {a : Action Input Value}

/-- A run of the action that ends comes to what the parser does as a parsing expression. -/
def Accords (rules : Rules) (tokens : List Token) (p : Parser) (a : Action Input Value) : Prop :=
  ∀ ⦃s n⦄, s.source.At ⟨tokens, n⟩ → (a s).1.Ends →
    p.Peg rules s.source.tokens ((a s).1.outcome (a s).2.source.tokens)

/-- A failure of the action leaves no trace. -/
def Backs (a : Action Input Value) : Prop :=
  ∀ ⦃s e s'⦄, a s = (.failure e, s') → e.committed = false ∧ s'.source = s.source

theorem backs_attempt : Backs (attempt a) := by
  intro s e s' h
  simp only [attempt] at h
  split at h
  · cases h
    exact ⟨rfl, rfl⟩
  · rename_i hne
    exact (hne _ _ h).elim

theorem accords_token (m : Matcher) : Accords rules tokens (.token m) (token m) := by
  intro s n hs hends
  simp only [token] at hends ⊢
  split
  · rename_i v hv
    obtain ⟨t, ht, hv⟩ := Option.bind_eq_some_iff.1 hv
    rw [hs.tokens_next ht]
    exact .token hv
  · rename_i hv
    exact .no_token (by rwa [hs.head?_tokens])

theorem accords_eof : Accords rules tokens .eof eof := by
  intro s n hs hends
  unfold eof
  split
  · rename_i hempty
    have hnil : s.source.tokens = [] := hs.isEmpty_iff.1 hempty
    simp only [Result.outcome, hnil]
    exact .eof
  · rename_i hempty
    obtain ⟨t, ts, hts⟩ := List.exists_cons_of_ne_nil fun hnil => hempty (hs.isEmpty_iff.2 hnil)
    rw [hts]
    exact .no_eof

theorem Accords.of_eq (ha : Accords rules tokens p a) {s s' : State Input} {r : Result Value}
    (hs : s.source.At ⟨tokens, n⟩) (h : a s = (r, s')) (hends : r.Ends) :
    p.Peg rules s.source.tokens (r.outcome s'.source.tokens) := by
  have hpeg := ha hs (by rw [h]; exact hends)
  rwa [h] at hpeg

theorem accords_sequenceFrom {act : Parser → Action Input Value} {ps : List Parser}
    (hps : ∀ p ∈ ps, Steady tokens (act p) ∧ Accords rules tokens p (act p)) (start : Int)
    (hint : Hint) {s : State Input} (hs : s.source.At ⟨tokens, n⟩)
    (hends : (sequenceFrom start (ps.map act) hint s).1.Ends) :
    (Parser.sequence ps).Peg rules s.source.tokens
      (((sequenceFrom start (ps.map act) hint s).1.map .tuple).outcome
        (sequenceFrom start (ps.map act) hint s).2.source.tokens) := by
  induction ps generalizing hint s n with
  | nil => exact .sequence_nil
  | cons p ps ih =>
    obtain ⟨⟨hsteady, hp⟩, hps⟩ := List.forall_mem_cons.1 hps
    simp only [List.map_cons, sequenceFrom] at hends ⊢
    split at hends
    · rename_i v new s' h
      obtain ⟨m, hs'⟩ := hsteady.stays hs
      rw [h] at hs'
      have hpeg := hp.of_eq hs h (by simp [Result.Ends])
      have hrest := ih hps _ hs' (Result.ends_map.1 hends)
      rw [Result.outcome_tuple_cons]
      exact .sequence_cons hpeg hrest
    · rename_i e s' h
      have hpeg := hp.of_eq hs h (by simp [Result.Ends])
      exact .sequence_miss hpeg trivial
    · rename_i f s' h
      have hpeg := hp.of_eq hs h (by simpa [Result.Ends] using hends)
      exact .sequence_miss hpeg trivial

theorem accords_choiceFrom {act : Parser → Action Input Value} {p : Parser} {ps : List Parser}
    (hps : ∀ q ∈ p :: ps, Backs (act q) ∧ Accords rules tokens q (act q)) (start : Int)
    (missed : Hint) :
    Accords rules tokens (.choice p ps) (choiceFrom start (act p) (ps.map act) missed) := by
  intro s n hs hends
  obtain ⟨⟨hback, hp⟩, hqs⟩ := List.forall_mem_cons.1 hps
  unfold choiceFrom at hends ⊢
  split at hends
  · rename_i v hint s' h
    have hpeg := hp.of_eq hs h (by simp [Result.Ends])
    exact .choice hpeg (by simp [Result.outcome])
  · rename_i e s' h
    obtain ⟨hc, hs'⟩ := hback h
    have hpeg := hp.of_eq hs h (by simp [Result.Ends])
    rw [if_neg (by simp [hc])] at hends ⊢
    cases ps with
    | nil => exact .choice_last hpeg
    | cons q qs =>
      have hrest := accords_choiceFrom hqs start _ (hs' ▸ hs) hends
      rw [hs'] at hrest
      exact .choice_next hpeg hrest
  · rename_i f s' h
    have hpeg := hp.of_eq hs h (by simpa [Result.Ends] using hends)
    exact .choice hpeg (by simp [Result.outcome])

theorem accords_map (f : Value → Except ValueError Value) (hp : Accords rules tokens p a) :
    Accords rules tokens (.map f p) (map f a) := by
  intro s n hs hends
  unfold map at hends ⊢
  split at hends
  · rename_i v hint s' h
    have hpeg := (hp.of_eq hs h (by simp [Result.Ends])).map (f := f)
    simp only [Result.outcome, Outcome.map] at hpeg
    cases hv : f v with
    | ok u =>
      rw [hv] at hpeg
      exact hpeg
    | error e =>
      rw [hv] at hpeg
      exact hpeg
  · rename_i hne
    have hpeg := (hp hs hends).map (f := f)
    rcases hr : a s with ⟨_ | _ | _, s'⟩
    · exact (hne _ _ _ hr).elim
    all_goals
      rw [hr] at hpeg
      exact hpeg

theorem accords_named (label : String) (hp : Accords rules tokens p a) :
    Accords rules tokens (.named label p) (named label a) := by
  intro s n hs hends
  simp only [named] at hends ⊢
  split at hends
  · rename_i v hint s' h
    have hpeg := hp.of_eq hs h (by simp [Result.Ends])
    exact .named hpeg
  · rename_i e s' h
    have hpeg := hp.of_eq hs h (by simp [Result.Ends])
    split <;> exact .named hpeg
  · exact .named (hp hs hends)

theorem accords_opt (default : Value) (hback : Backs a) (hp : Accords rules tokens p a) :
    Accords rules tokens (.opt default p) (opt default a) := by
  intro s n hs hends
  unfold opt at hends ⊢
  split at hends
  · rename_i e s' h
    obtain ⟨hc, hs'⟩ := hback h
    have hpeg := hp.of_eq hs h (by simp [Result.Ends])
    rw [if_neg (by simp [hc])]
    simp only [Result.outcome, hs']
    exact .opt_default hpeg
  · rename_i hne
    have hpeg := hp hs hends
    refine .opt hpeg ?_
    rcases hr : a s with ⟨_ | _ | _, s'⟩
    · simp [Result.outcome]
    · exact (hne _ _ hr).elim
    · simp [Result.outcome]

theorem accords_attempt (hp : Accords rules tokens p a) :
    Accords rules tokens (.attempt p) (attempt a) := by
  intro s n hs hends
  simp only [attempt] at hends ⊢
  split at hends
  · rename_i e s' h
    have hpeg := hp.of_eq hs h (by simp [Result.Ends])
    exact .attempt hpeg
  · exact .attempt (hp hs hends)

/-- The repetitions that are left, behind `count` ones that have read something. -/
theorem accords_manyFrom (start minimum : Int) (hsteady : Steady tokens a) (hback : Backs a)
    (hp : Accords rules tokens p a) (limit count : Nat) (hint : Hint) {s : State Input}
    (hs : s.source.At ⟨tokens, n⟩)
    (hends : (manyFrom start minimum a limit count hint s).1.Ends) :
    (Parser.many (minimum - count) p).Peg rules s.source.tokens
      (((manyFrom start minimum a limit count hint s).1.map .list).outcome
        (manyFrom start minimum a limit count hint s).2.source.tokens) := by
  induction limit generalizing count hint s n with
  | zero => exact absurd rfl hends
  | succ limit ih =>
    simp only [manyFrom] at hends ⊢
    split at hends
    · rename_i v new s' h
      have hpeg := hp.of_eq hs h (by simp [Result.Ends])
      rcases hsteady.success hs h with hs' | ⟨m, hlt, hs'⟩
      · rw [if_pos (by simp [State.ordinal, hs'])]
        simp only [Result.outcome, hs'] at hpeg
        simp only [Result.map, Result.outcome, hs']
        exact .many_empty hpeg
      · -- a round that read something is not taken for an idle one
        have hne : s'.ordinal ≠ s.ordinal := by
          intro heq
          have hplace : s'.source.ordinal = s.source.ordinal := Int.ofNat.inj heq
          rw [hs.ordinal_eq, hs'.ordinal_eq] at hplace
          exact absurd hplace (Nat.ne_of_gt hlt)
        rw [if_neg hne] at hends ⊢
        have hrest := ih (count + 1) new hs' (Result.ends_map.1 hends)
        -- one repetition less is needed from here on
        rw [show minimum - ((count + 1 : Nat) : Int) = minimum - count - 1 by omega] at hrest
        rw [Result.outcome_list_cons]
        exact .many_more hpeg (hs.tokens_ne hs' hlt) hrest
    · rename_i e s' h
      obtain ⟨hc, hs'⟩ := hback h
      have hpeg := hp.of_eq hs h (by simp [Result.Ends])
      simp only [hc, Bool.false_eq_true, false_or]
      split
      · exact .many_short hpeg (by omega)
      · simp only [Result.map, Result.outcome, hs']
        exact .many_stop hpeg (by omega)
    · rename_i f s' h
      exact .many_raised (hp.of_eq hs h (by simpa [Result.Ends] using hends))

end Action

namespace Parser

variable {rules : Rules} {p : Parser} {limit : Nat}

theorem IsAttempt.backs (hp : p.IsAttempt) (call : String → Action Input Value) :
    Action.Backs (p.action call limit) := by
  cases p with
  | attempt p => exact Action.backs_attempt
  | _ => exact hp.elim

theorem accords_action (tokens : List Token) (depth : Nat) (hp : p.Within rules Backtracking) :
    Action.Accords rules tokens p (p.action (rules.call limit depth) limit) := by
  refine action_induction (K := Backtracking) ?_ ?_ ?_ ?_ ?_ depth p hp
  · exact fun name s n _ hends => absurd rfl hends
  · exact fun name hname s n _ _ => .unknown hname
  · exact fun name e hname s n _ _ => .broken hname
  · exact fun name p a hname ha s n hs hends =>
      .rule hname (@ha { s with journal := s.journal.use name } n hs hends)
  · intro depth hcall p hp
    have hsteady := steady_action rules limit depth tokens
    induction p using Parser.induction with
    | token m => exact Action.accords_token m
    | eof => exact Action.accords_eof
    | sequence ps ih =>
      intro s n hs hends
      simp only [action, actions_eq_map, Action.sequence] at hends ⊢
      exact Action.accords_sequenceFrom (fun q hq => ⟨hsteady q, ih q hq (hp.child hq)⟩) _ none hs
        (Result.ends_map.1 hends)
    | choice p ps ih =>
      intro s n hs hends
      simp only [action, actions_eq_map, Action.choice] at hends ⊢
      exact Action.accords_choiceFrom (fun q hq => ⟨(hp.self q hq).backs _, ih q hq (hp.child hq)⟩)
        _ none hs hends
    | map f p ih => exact Action.accords_map f (ih (hp.only rfl))
    | named label p ih => exact Action.accords_named label (ih (hp.only rfl))
    | many minimum p ih =>
      intro s n hs hends
      have hpeg := Action.accords_manyFrom s.ordinal minimum (hsteady p) (hp.self.backs _)
        (ih (hp.only rfl)) limit 0 none hs (Result.ends_map.1 hends)
      rwa [Int.natCast_zero, Int.sub_zero] at hpeg
    | opt default p ih => exact Action.accords_opt default (hp.self.backs _) (ih (hp.only rfl))
    | attempt p ih => exact Action.accords_attempt (ih (hp.only rfl))
    | delayed label p ih => exact fun s n hs hends => .delayed (ih (hp.only rfl) hs hends)
    | rule name => exact hcall name hp
    | invalid e => exact fun s n _ _ => .invalid

/-- Where attempts are made wherever something else may be tried, a run of a parser comes to what the
parser does as a parsing expression on the tokens that are left, and to nothing else: it has the same
value and leaves the same tokens, or fails likewise, or aborts for the same reason. -/
theorem run_peg {trees : List TokenTree} (hrules : rules.WellFounded)
    (hp : p.Within rules Backtracking) {s : State Input}
    (hs : (Stream.input s.source).Reachable trees) (o : Outcome) :
    let run := p.run rules s
    p.Peg rules ((TokenStream.flatten trees).drop s.source.ordinal) o ↔
      run.1.outcome ((TokenStream.flatten trees).drop run.2.source.ordinal) = o := by
  intro run
  obtain ⟨n, hplace⟩ := hs.input_at
  obtain ⟨m, hplace'⟩ : ∃ m, run.2.source.At ⟨TokenStream.flatten trees, m⟩ :=
    (p.steady_action rules _ _ _).stays hplace
  have hends : run.1.Ends := fun hrun => by
    obtain ⟨q, -, hraises⟩ := raises_of_run_eq_abort hrules p hplace hrun
    cases hraises
  have hpeg : p.Peg rules s.source.tokens (run.1.outcome run.2.source.tokens) :=
    accords_action _ _ hp hplace hends
  rw [hplace.tokens_eq, hplace'.tokens_eq] at hpeg
  rw [hplace.ordinal_eq, hplace'.ordinal_eq]
  exact ⟨hpeg.unique, fun ho => ho ▸ hpeg⟩

/-- In `a ( b ( ) ) c`, behind `a`: an option reads `( b` and is given up, and a rule for nested
parentheses uses itself behind each opening one. -/
theorem run_peg_nested :
    let parens (ts : List TokenTree) : TokenTree := .group .parenthesis ts .callSite
    let trees := [.ident "a" .callSite, parens [.ident "b" .callSite, parens []],
      .ident "c" .callSite]
    let tried : Parser := .sequence [.token (.delim '('), .token .ident, .token .literal]
    let items : Parser := .many 0 (.attempt (.rule "item"))
    let inner : Parser := .sequence [.token (.delim '('), items, .token (.delim ')')]
    let item : Parser := .choice (.attempt (.token .ident)) [.attempt inner]
    let rules : Rules := [("item", .ok item)]
    let p : Parser := .sequence [.opt .null (.attempt tried), items, .eof]
    rules.WellFounded ∧ p.Within rules Backtracking ∧
      ∃ v, p.Peg rules ((TokenStream.flatten trees).drop 1) (.success v []) := by
  intro parens trees tried items inner item rules p
  have hlookup : ∀ {name q}, rules.lookup name = some (.ok q) → name = "item" ∧ q = item := by
    intro name q h
    obtain ⟨front, back, heq, -⟩ := List.lookup_eq_some_iff.1 h
    have hmem : (name, .ok q) ∈ rules := by simp [heq]
    simpa [rules] using hmem
  -- An item starts with a token.
  have hcalls : ∀ name, ¬ item.Calls rules name := by
    intro name h
    obtain ⟨q, hq, h⟩ := calls_choice.1 h
    rcases List.mem_pair.1 hq with rfl | rfl
    · cases h with
      | attempt h => cases h
    · cases h with
      | attempt h =>
        change (Parser.sequence _).Calls rules name at h
        cases h with
        | first h => cases h
        | behind hp _ => cases hp
  have hrules : rules.WellFounded := by
    refine .of_measure (fun _ => 0) ?_
    rintro name name' ⟨q, hq, h⟩
    obtain ⟨-, rfl⟩ := hlookup hq
    exact absurd h (hcalls name')
  have hp : p.Within rules Backtracking := by
    refine .of_children (L := fun q => q ∈ [p, .opt .null (.attempt tried), .attempt tried, tried,
      .token .ident, .token .literal, items, .attempt (.rule "item"), .rule "item", item,
      .attempt (.token .ident), .attempt inner, inner, .token (.delim '('), .token (.delim ')'),
      .eof]) ?_ ?_ (List.mem_cons_self ..)
    · simp [p, tried, items, item, inner, Backtracking, IsAttempt]
    · simp [p, tried, items, item, inner, rules, children]
  have hstart : (Stream.input (.ofTrees trees)).Reachable trees := .ofTrees
  have hbegin : (Input.ofTrees trees).next.2.ordinal = 1 := by decide +kernel
  let run := p.run rules ⟨(Input.ofTrees trees).next.2, {}⟩
  have hend : (TokenStream.flatten trees).drop run.2.source.ordinal = [] := by decide +kernel
  have hsuccess : run.1.ctorIdx = 0 := by decide +kernel
  refine ⟨hrules, hp, ?_⟩
  cases hrun : run.1 with
  | success v hint =>
    have hpeg := (run_peg hrules hp hstart.next (.success v [])).2 (by
      show run.1.outcome ((TokenStream.flatten trees).drop run.2.source.ordinal) = .success v []
      rw [hrun, hend]
      rfl)
    rw [hbegin] at hpeg
    exact ⟨v, hpeg⟩
  | _ => simp [hrun, Result.ctorIdx] at hsuccess

end Parser

end TokenParsing
