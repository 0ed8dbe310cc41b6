import TokenParsing.Proofs.Furthest
import TokenParsing.Proofs.Repetition
import TokenParsing.Proofs.Standing

/-!
# Alternatives that are choices themselves

A choice within a choice tries the same alternatives in the same order. What it missed is merged on its
own before it joins what was missed in front of it, which comes to the same since failures may be merged
in any grouping. So in place of an alternative that is a choice its alternatives may stand
(`Action.choiceFrom_choice`), wherever it stands, and none of this shows in a run, in whatever part of a
parser or of a rule it is done (`Parser.run_ungrouped`).

So there is one way to tell what a choice has missed: all its alternatives have failed, one after the
other, and the furthest of the failures is what is reported (`Parser.run_choice_missed`).
-/

namespace TokenParsing

namespace Action

section

variable {σ : Type} [TokenSource σ] {start : Int} {missed : Hint} {e : Failure}

/-- What a choice does when the alternatives so far have failed, and left a failure together: it tries
the others, if there are any. -/
def fallback (start : Int) : List (Action σ Value) → Failure → Action σ Value
  | [], e => fun s => (.failure e, s)
  | q :: qs, e => choiceFrom start q qs (some e)

/-- What comes of a choice when an alternative comes to the outcome; `next` is what the choice does if
this was a failure that does not end it. -/
def chosen (start : Int) (missed : Hint) (next : Failure → Action σ Value) :
    Result Value × State σ → Result Value × State σ
  | (.success v hint, s) =>
    (.success v (if s.ordinal = start then missed.merge hint else hint), s)
  | (.failure e, s) =>
    if e.committed then (.failure e, s) else next (missed.elim e (·.merge e)) s
  | (.abort f, s) => (.abort f, s)

theorem choiceFrom_eq (start : Int) (p : Action σ Value) (ps : List (Action σ Value))
    (missed : Hint) (s : State σ) :
    choiceFrom start p ps missed s = chosen start missed (fallback start ps) (p s) := by
  unfold choiceFrom
  generalize p s = outcome
  obtain ⟨⟨v, hint⟩ | e | f, s'⟩ := outcome
  · rfl
  · cases ps <;> rfl
  · rfl

/-- The failures of the alternatives in front may join the failure that the next ones leave, and not
only the failure of the first of these. -/
theorem fallback_append (he : e.committed = false) (missed : Hint) (ps qs : List (Action σ Value))
    (s : State σ) :
    fallback start (ps ++ qs) (missed.elim e (·.merge e)) s =
      chosen start missed (fallback start qs) (fallback start ps e s) := by
  induction ps generalizing e s with
  | nil => simp [fallback, chosen, he]
  | cons p ps ih =>
    simp only [List.cons_append, fallback, choiceFrom_eq]
    generalize p s = outcome
    obtain ⟨⟨v, hint⟩ | f | f, s'⟩ := outcome
    · simp only [chosen]
      split
      · rw [← Hint.merge_assoc, Hint.merge_some]
      · rfl
    · cases hf : f.committed with
      | true => simp [chosen, hf]
      | false =>
        -- here the two sides have merged the same three failures in different groupings
        have hmerge : missed.elim (e.merge f) (·.merge (e.merge f)) =
            (missed.elim e (·.merge e)).merge f := by
          cases missed with
          | none => rfl
          | some g => exact (g.merge_assoc e f).symm
        simpa [chosen, hf, hmerge] using ih (Failure.merge_committed he hf) s'
    · rfl

theorem choiceFrom_choice (p : Action σ Value) (ps qs : List (Action σ Value)) (missed : Hint)
    {s : State σ} (hs : s.ordinal = start) :
    choiceFrom start (choice p ps) qs missed s = choiceFrom start p (ps ++ qs) missed s := by
  rw [choiceFrom_eq, choiceFrom_eq, choice, hs, choiceFrom_eq]
  generalize p s = outcome
  obtain ⟨⟨v, hint⟩ | e | f, s'⟩ := outcome
  · simp only [chosen]
    split <;> rfl
  · cases he : e.committed with
    | true => simp [chosen, he]
    | false => simpa [chosen, he] using (fallback_append he missed ps qs s').symm
  · rfl

theorem chosen_congr {next next' : Failure → Action σ Value} {outcome : Result Value × State σ}
    (h : ∀ f s', outcome = (.failure f, s') → f.committed = false → ∀ g, next g s' = next' g s') :
    chosen start missed next outcome = chosen start missed next' outcome := by
  obtain ⟨⟨v, hint⟩ | f | f, s'⟩ := outcome
  · rfl
  · cases hf : f.committed with
    | true => simp [chosen, hf]
    | false => simpa [chosen, hf] using h f s' rfl hf _
  · rfl

theorem chosen_eq_failure_iff {next : Failure → Action σ Value} {outcome : Result Value × State σ}
    {f : Failure} {s' : State σ} :
    chosen start missed next outcome = (.failure f, s') ∧ f.committed = false ↔
      ∃ g s₁, outcome = (.failure g, s₁) ∧ g.committed = false ∧
        next (missed.elim g (·.merge g)) s₁ = (.failure f, s') ∧ f.committed = false := by
  obtain ⟨⟨v, hint⟩ | g | g, s₁⟩ := outcome
  · simp [chosen]
  · cases hg : g.committed with
    | true =>
      simp only [chosen, hg, if_true]
      grind
    | false => simp [chosen, hg]
  · simp [chosen]

/-- The alternatives fail one after the other, and none of the failures ends the choice. -/
inductive Misses : List (Action σ Value) → List Failure → State σ → State σ → Prop
  | nil (s : State σ) : Misses [] [] s s
  | cons {p : Action σ Value} {ps : List (Action σ Value)} {e : Failure} {es : List Failure}
    {s s' s'' : State σ} (h : p s = (.failure e, s')) (he : e.committed = false)
    (hrest : Misses ps es s' s'') : Misses (p :: ps) (e :: es) s s''

theorem fallback_eq_failure_iff (he : e.committed = false) {ps : List (Action σ Value)} {f : Failure}
    {s s' : State σ} :
    fallback start ps e s = (.failure f, s') ∧ f.committed = false ↔
      ∃ es, Misses ps es s s' ∧ f = es.foldl Failure.merge e := by
  induction ps generalizing e s with
  | nil =>
    constructor
    · rintro ⟨h, -⟩
      cases h
      exact ⟨[], .nil _, rfl⟩
    · rintro ⟨es, hes, rfl⟩
      cases hes
      exact ⟨rfl, he⟩
  | cons p ps ih =>
    rw [fallback, choiceFrom_eq, chosen_eq_failure_iff]
    constructor
    · rintro ⟨g, s₁, h, hg, hrest⟩
      obtain ⟨es, hes, rfl⟩ := (ih (Failure.merge_committed he hg)).1 hrest
      exact ⟨g :: es, .cons h hg hes, rfl⟩
    · rintro ⟨es, hes, rfl⟩
      obtain - | ⟨h, hg, hes⟩ := hes
      exact ⟨_, _, h, hg, (ih (Failure.merge_committed he hg)).2 ⟨_, hes, rfl⟩⟩

/-- A choice fails uncommitted exactly if all its alternatives do. -/
theorem choice_eq_failure_iff {p : Action σ Value} {ps : List (Action σ Value)} {f : Failure}
    {s s' : State σ} :
    choice p ps s = (.failure f, s') ∧ f.committed = false ↔
      ∃ e es, Misses (p :: ps) (e :: es) s s' ∧ f = es.foldl Failure.merge e := by
  rw [choice, choiceFrom_eq, chosen_eq_failure_iff]
  constructor
  · rintro ⟨e, s₁, h, he, hrest⟩
    obtain ⟨es, hes, hf⟩ := (fallback_eq_failure_iff he).1 hrest
    exact ⟨e, es, .cons h he hes, hf⟩
  · rintro ⟨e, es, hes, hf⟩
    obtain - | ⟨h, he, hes⟩ := hes
    exact ⟨e, _, h, he, (fallback_eq_failure_iff he).2 ⟨es, hes, hf⟩⟩

end

theorem choiceFrom_congr {p : Action Input Value} {ps qs : List (Action Input Value)} {s : State Input}
    (hp : Tidy p) (missed : Hint)
    (h : ∀ e s', s'.ordinal = s.ordinal → fallback s.ordinal ps e s' = fallback s.ordinal qs e s') :
    choiceFrom s.ordinal p ps missed s = choiceFrom s.ordinal p qs missed s := by
  rw [choiceFrom_eq, choiceFrom_eq]
  exact chosen_congr fun f s' hfailure hf g => h g s' (hp.ordinal_eq hfailure hf)

end Action

namespace Parser

/-- What a parser offers as an alternative: the alternatives of a choice, and else itself. -/
def alternatives : Parser → List Parser
  | .choice p ps => p :: ps
  | p => [p]

/-- A choice between what a parser offers and other parsers. -/
def orElseAll : Parser → List Parser → Parser
  | .choice p ps, qs => .choice p (ps ++ qs)
  | p, qs => .choice p qs

mutual

/-- The parser without choices that are alternatives of choices: in place of each of them stand its
alternatives. -/
def ungrouped : Parser → Parser
  | .sequence ps => .sequence (ungroupedAll ps)
  | .choice p ps => p.ungrouped.orElseAll ((ungroupedAll ps).flatMap alternatives)
  | .map f p => .map f p.ungrouped
  | .named label p => .named label p.ungrouped
  | .many minimum p => .many minimum p.ungrouped
  | .opt default p => .opt default p.ungrouped
  | .attempt p => .attempt p.ungrouped
  | .delayed label p => .delayed label p.ungrouped
  | p => p

def ungroupedAll : List Parser → List Parser
  | [] => []
  | p :: ps => p.ungrouped :: ungroupedAll ps

end

end Parser

/-- The rules, each with its parser ungrouped. -/
def Rules.ungrouped (rules : Rules) : Rules :=
  rules.map fun (name, r) => (name, r.map Parser.ungrouped)

theorem Rules.lookup_ungrouped (rules : Rules) (name : String) :
    rules.ungrouped.lookup name = (rules.lookup name).map (·.map Parser.ungrouped) :=
  rules.lookup_map Parser.ungrouped name

namespace Parser

variable {call : String → Action Input Value} {limit : Nat}

theorem ungroupedAll_eq_map (ps : List Parser) : ungroupedAll ps = ps.map ungrouped := by
  induction ps with
  | nil => rfl
  | cons p ps ih => rw [ungroupedAll, ih, List.map_cons]

theorem ungrouped_sequence (ps : List Parser) :
    (sequence ps).ungrouped = .sequence (ps.map ungrouped) := by
  rw [ungrouped, ungroupedAll_eq_map]

theorem ungrouped_choice (p : Parser) (ps : List Parser) :
    (choice p ps).ungrouped = p.ungrouped.orElseAll (ps.flatMap (·.ungrouped.alternatives)) := by
  rw [ungrouped, ungroupedAll_eq_map, List.flatMap_map]

@[simp]
theorem alternatives_orElseAll (p : Parser) (qs : List Parser) :
    (p.orElseAll qs).alternatives = p.alternatives ++ qs := by
  cases p <;> rfl

@[simp]
theorem orElseAll_orElseAll (p : Parser) (qs rs : List Parser) :
    (p.orElseAll qs).orElseAll rs = p.orElseAll (qs ++ rs) := by
  cases p <;> simp [orElseAll]

theorem action_orElseAll (p : Parser) (qs : List Parser) :
    (p.orElseAll qs).action call limit =
      .choice (p.action call limit) (qs.map (·.action call limit)) := by
  cases p with
  | choice p ps =>
    funext s
    simp only [orElseAll, action, actions_eq_map, List.map_append]
    exact (Action.choiceFrom_choice _ _ _ none rfl).symm
  | _ => simp only [orElseAll, action, actions_eq_map]

theorem fallback_alternatives (p : Parser) (qs : List Parser) (e : Failure) {start : Int}
    {s : State Input} (hs : s.ordinal = start) :
    Action.fallback start ((p.alternatives ++ qs).map (·.action call limit)) e s =
      Action.choiceFrom start (p.action call limit) (qs.map (·.action call limit)) (some e) s := by
  cases p with
  | choice p ps =>
    simp only [alternatives, List.cons_append, List.map_cons, List.map_append, Action.fallback, action,
      actions_eq_map]
    exact (Action.choiceFrom_choice _ _ _ _ hs).symm
  | _ => rfl

section

variable (htidy : ∀ p : Parser, Action.Tidy (p.action call limit))
include htidy

theorem fallback_ungrouped {ps : List Parser}
    (hps : ∀ p ∈ ps, p.ungrouped.action call limit = p.action call limit) (e : Failure) {start : Int}
    {s : State Input} (hs : s.ordinal = start) :
    Action.fallback start ((ps.flatMap (·.ungrouped.alternatives)).map (·.action call limit)) e s =
      Action.fallback start (ps.map (·.action call limit)) e s := by
  induction ps generalizing e s with
  | nil => rfl
  | cons p ps ih =>
    obtain ⟨hp, hps⟩ := List.forall_mem_cons.1 hps
    subst hs
    -- a failure of `p` leaves the place as it was, and the others start there again
    rw [List.flatMap_cons, fallback_alternatives _ _ _ rfl, hp]
    exact Action.choiceFrom_congr (htidy p) (some e) fun e s' => ih hps e

theorem action_ungrouped (p : Parser) : p.ungrouped.action call limit = p.action call limit := by
  induction p using Parser.induction with
  | sequence ps ih =>
    rw [ungrouped_sequence, action, action, actions_eq_map, actions_eq_map, List.map_map]
    exact congrArg _ (List.map_congr_left ih)
  | choice p ps ih =>
    obtain ⟨hp, hps⟩ := List.forall_mem_cons.1 ih
    funext s
    rw [ungrouped_choice, action_orElseAll, hp, action, actions_eq_map]
    exact Action.choiceFrom_congr (htidy p) none fun e s' => fallback_ungrouped htidy hps e
  | map f p ih => simp only [ungrouped, action, ih]
  | named label p ih => simp only [ungrouped, action, ih]
  | many minimum p ih => simp only [ungrouped, action, ih]
  | opt default p ih => simp only [ungrouped, action, ih]
  | attempt p ih => simp only [ungrouped, action, ih]
  | delayed label p ih => simp only [ungrouped, action, ih]
  | token | eof | rule | invalid => rfl

end

theorem call_ungrouped (rules : Rules) (limit depth : Nat) (name : String) :
    (rules.ungrouped.call limit depth name : Action Input Value) = rules.call limit depth name := by
  induction depth generalizing name with
  | zero => rfl
  | succ depth ih =>
    rw [Rules.call_succ, Rules.call_succ, Rules.lookup_ungrouped, funext ih]
    match rules.lookup name with
    | some (.ok p) =>
      show Action.afterNote _ (p.ungrouped.action _ _) = _
      rw [action_ungrouped fun q => tidy_action rules limit depth q]
    | some (.error e) => rfl
    | none => rfl

/-- Nothing of a run depends on how the alternatives of choices are grouped, in the parser or in a rule. -/
theorem run_ungrouped (rules : Rules) (p : Parser) (s : State Input) :
    p.ungrouped.run rules.ungrouped s = p.run rules s := by
  have hlength : rules.ungrouped.length = rules.length := List.length_map _
  simp only [run, hlength]
  rw [funext (call_ungrouped rules _ _), action_ungrouped fun q => tidy_action rules _ _ q]

theorem run_eq_of_ungrouped_eq {p q : Parser} (h : p.ungrouped = q.ungrouped) (rules : Rules)
    (s : State Input) : p.run rules s = q.run rules s := by
  rw [← run_ungrouped, h, run_ungrouped]

theorem ungrouped_orElse (p q : Parser) : (p.orElse q).ungrouped = (choice p [q]).ungrouped := by
  cases p with
  | choice p ps => simp [orElse, ungrouped_choice]
  | _ => rfl

/-- Three alternatives may be grouped in any way: both runs come to the same value and hint, to the same
failure or to the same other end, and stop in the same state. So it makes no difference that a choice
which another alternative is put behind takes it in as its last one, and none, in any part of a parser
or of a rule, to put in place of a choice within a choice its alternatives. -/
theorem run_choice_assoc (rules : Rules) (p q r : Parser) (s : State Input) :
    (choice (choice p [q]) [r]).run rules s = (choice p [q, r]).run rules s ∧
      (choice p [choice q [r]]).run rules s = (choice p [q, r]).run rules s ∧
      (p.orElse q).run rules s = (choice p [q]).run rules s ∧
      ∀ x : Parser, x.ungrouped.run rules.ungrouped s = x.run rules s := by
  refine ⟨run_eq_of_ungrouped_eq ?_ rules s, run_eq_of_ungrouped_eq ?_ rules s,
    run_eq_of_ungrouped_eq (ungrouped_orElse p q) rules s, fun x => run_ungrouped rules x s⟩
  · simp [ungrouped_choice]
  · simp [ungrouped_choice]

/-- A choice fails uncommitted exactly if all its alternatives do, one after the other, and tells of the
furthest of their failures. -/
theorem run_choice_missed (rules : Rules) (p : Parser) (ps : List Parser) (e : Failure)
    (s s' : State Input) :
    (choice p ps).run rules s = (.failure e, s') ∧ e.committed = false ↔
      ∃ es first later,
        Action.Misses ((p :: ps).map (·.actionFrom rules s.source)) es s s' ∧
          Failure.Furthest es first later ∧ e = first.joined later := by
  have hrun : (choice p ps).run rules s =
      Action.choice (p.actionFrom rules s.source) (ps.map (·.actionFrom rules s.source)) s := by
    rw [run_eq, actionFrom, action, actions_eq_map]
    rfl
  rw [hrun, Action.choice_eq_failure_iff, List.map_cons]
  constructor
  · rintro ⟨f, es, hes, rfl⟩
    obtain ⟨first, later, hfurthest, hmerge⟩ := Failure.foldl_merge f es
    exact ⟨f :: es, first, later, hes, hfurthest, hmerge⟩
  · rintro ⟨es, first, later, hes, hfurthest, rfl⟩
    obtain - | ⟨h, hf, hrest⟩ := hes
    obtain ⟨first', later', hfurthest', hmerge⟩ := Failure.foldl_merge _ _
    obtain ⟨rfl, rfl⟩ := hfurthest.unique hfurthest'
    exact ⟨_, _, .cons h hf hrest, hmerge.symm⟩

end Parser

end TokenParsing
