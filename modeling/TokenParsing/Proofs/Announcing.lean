import Mathlib.Order.Monotone.Basic
import TokenParsing.Proofs.Nullability
import TokenParsing.Proofs.Truthful

/-!
# What a parser is asked for with

The labels of a parser are its own, or those of the parsers it starts with: the first part of a
sequence, every alternative of a choice (`Parser.fronts`). Rules are followed for as many calls within
calls as there are rules and one more. That is enough: what is announced with some number of calls is so
with at most one for each rule (`Parser.announces_iff_length`), since from one number to the next more
rules announce a label or no rule ever does again.
-/

namespace TokenParsing

namespace Parser

/-- The label that a parser goes by itself. -/
def ownLabel? : Parser → Option String
  | .token m => some m.label
  | .eof => some eofLabel
  | .named label _ => if label.isEmpty then none else some label
  | _ => none

/-- The parsers that a parser starts with, as far as its labels are concerned. A rule starts with its
parser. -/
def fronts (rules : Rules) : Parser → List Parser
  | .token _ | .eof | .named .. | .invalid _ => []
  | .sequence ps => ps.take 1
  | .choice p ps => p :: ps
  | .map _ p | .many _ p | .opt _ p | .attempt p | .delayed _ p => [p]
  | .rule name =>
    match rules.lookup name with
    | some (.ok p) => [p]
    | _ => []

/-- The second parser is the first, or what it comes to start with. -/
def Front (rules : Rules) : Parser → Parser → Prop :=
  Relation.ReflTransGen fun p q => q ∈ p.fronts rules

/-- The label is one of those a parser announces, with at most `depth` calls within calls. -/
inductive Announces (rules : Rules) : Nat → Parser → String → Prop
  | own {depth : Nat} {p : Parser} {label : String} (h : p.ownLabel? = some label) :
    Announces rules depth p label
  | front {depth : Nat} {p q : Parser} {label : String} (hp : ∀ name, p ≠ .rule name)
    (hq : q ∈ p.fronts rules) (h : Announces rules depth q label) : Announces rules depth p label
  | rule {depth : Nat} {name : String} {p : Parser} {label : String}
    (hname : rules.lookup name = some (.ok p)) (h : Announces rules depth p label) :
    Announces rules (depth + 1) (.rule name) label

variable {rules : Rules} {depth : Nat} {p : Parser} {name label : String}

theorem announces_iff (hp : ∀ name, p ≠ .rule name) :
    p.Announces rules depth label ↔
      p.ownLabel? = some label ∨ ∃ q ∈ p.fronts rules, q.Announces rules depth label := by
  constructor
  · rintro (h | ⟨-, hq, h⟩ | _)
    · exact .inl h
    · exact .inr ⟨_, hq, h⟩
    · exact absurd rfl (hp _)
  · rintro (h | ⟨q, hq, h⟩)
    · exact .own h
    · exact .front hp hq h

theorem not_announces_rule_zero : ¬(Parser.rule name).Announces rules 0 label := by
  rintro (h | ⟨hp, -, -⟩)
  · cases h
  · exact hp name rfl

theorem announces_rule_succ :
    (Parser.rule name).Announces rules (depth + 1) label ↔
      ∃ p, rules.lookup name = some (.ok p) ∧ p.Announces rules depth label := by
  constructor
  · rintro (h | ⟨hp, -, -⟩ | ⟨hname, h⟩)
    · cases h
    · exact absurd rfl (hp name)
    · exact ⟨_, hname, h⟩
  · rintro ⟨p, hname, h⟩
    exact .rule hname h

namespace Announces

theorem of_rules {depth' : Nat} (h : p.Announces rules depth label)
    (hrules : ∀ name, (Parser.rule name).Announces rules depth label →
      (Parser.rule name).Announces rules depth' label) : p.Announces rules depth' label := by
  induction h generalizing depth' with
  | own h => exact .own h
  | front hp hq _ ih => exact .front hp hq (ih hrules)
  | rule hname h _ => exact hrules _ (.rule hname h)

theorem succ (h : p.Announces rules depth label) : p.Announces rules (depth + 1) label := by
  induction h with
  | own h => exact .own h
  | front hp hq _ ih => exact .front hp hq ih
  | rule hname _ ih => exact .rule hname ih

theorem mono {depth' : Nat} (h : p.Announces rules depth label) (hle : depth ≤ depth') :
    p.Announces rules depth' label := by
  induction hle with
  | refl => exact h
  | step _ ih => exact ih.succ

theorem mem_names (h : (Parser.rule name).Announces rules depth label) : name ∈ rules.names := by
  cases depth with
  | zero => exact absurd h not_announces_rule_zero
  | succ depth =>
    obtain ⟨p, hname, -⟩ := announces_rule_succ.1 h
    exact Rules.mem_names_of_lookup hname

end Announces

open Classical in
/-- The rules that announce a label with at most `depth` calls. -/
noncomputable def announcing (rules : Rules) (label : String) (depth : Nat) : Finset String :=
  rules.names.filter fun name => (Parser.rule name).Announces rules depth label

theorem mem_announcing :
    name ∈ announcing rules label depth ↔ (Parser.rule name).Announces rules depth label := by
  classical
  rw [announcing, Finset.mem_filter]
  exact and_iff_right_of_imp Announces.mem_names

theorem card_announcing_le (rules : Rules) (label : String) (depth : Nat) :
    (announcing rules label depth).card ≤ rules.length := by
  classical
  calc (announcing rules label depth).card ≤ rules.names.card := Finset.card_filter_le ..
    _ ≤ (rules.map (·.1)).length := List.toFinset_card_le _
    _ = rules.length := List.length_map _

theorem announcing_mono (rules : Rules) (label : String) : Monotone (announcing rules label) :=
  fun _ _ hle _ hmem => mem_announcing.2 ((mem_announcing.1 hmem).mono hle)

theorem announcing_stable (h : announcing rules label depth = announcing rules label (depth + 1)) :
    announcing rules label (depth + 1) = announcing rules label (depth + 2) := by
  refine (announcing_mono rules label (Nat.le_succ _)).antisymm fun name hmem => ?_
  obtain ⟨p, hname, hp⟩ := announces_rule_succ.1 (mem_announcing.1 hmem)
  refine mem_announcing.2 (.rule hname (hp.of_rules fun name' h' => ?_))
  rwa [← mem_announcing, h, mem_announcing]

/-- As many calls within calls as there are rules are enough. -/
theorem announces_iff_length (hle : rules.length ≤ depth) :
    p.Announces rules depth label ↔ p.Announces rules rules.length label := by
  refine ⟨fun h => h.of_rules fun name hname => ?_, fun h => h.mono hle⟩
  have hcard : (announcing rules label depth).card = (announcing rules label rules.length).card := by
    refine Nat.stabilises_of_monotone (f := fun d => (announcing rules label d).card)
      (fun _ _ hle => Finset.card_le_card (announcing_mono rules label hle))
      (card_announcing_le rules label) (fun d hd => ?_) hle
    have heq := Finset.eq_of_subset_of_card_le (announcing_mono rules label d.le_succ) hd.ge
    exact congrArg Finset.card (announcing_stable heq)
  have heq := Finset.eq_of_subset_of_card_le (announcing_mono rules label hle) hcard.le
  rwa [← mem_announcing, heq, mem_announcing]

end Parser

/-! ### Surveys -/

/-- The survey gives labels whatever was built before, and they are these. -/
def Survey.Lists (x : Survey (List String)) (asked : String → Prop) : Prop :=
  ∀ j, ∃ labels j', x.run.run j = (.ok labels, j') ∧ ∀ label, label ∈ labels ↔ asked label

namespace Survey.Lists

variable {x y : Survey (List String)} {asked asked' : String → Prop}

theorem congr (h : x.Lists asked) (heq : ∀ label, asked label ↔ asked' label) : x.Lists asked' := by
  intro j
  obtain ⟨labels, j', hrun, hmem⟩ := h j
  exact ⟨labels, j', hrun, fun label => (hmem label).trans (heq label)⟩

theorem pure (labels : List String) : Lists (pure labels) (· ∈ labels) :=
  fun j => ⟨labels, j, rfl, fun _ => Iff.rfl⟩

theorem bind {f : List String → Survey (List String)} (h : x.Lists asked)
    (hf : ∀ labels, (∀ label, label ∈ labels ↔ asked label) → (f labels).Lists asked') :
    Lists (x >>= f) asked' := by
  intro j
  obtain ⟨labels, j', hrun, hmem⟩ := h j
  obtain ⟨labels', j'', hrun', hmem'⟩ := hf labels hmem j'
  refine ⟨labels', j'', ?_, hmem'⟩
  simp only [ExceptT.run_bind, StateT.run_bind, hrun]
  exact hrun'

theorem append (h : x.Lists asked) (h' : y.Lists asked') :
    Lists (do let first ← x; let others ← y; Pure.pure (first ++ others))
      (fun label => asked label ∨ asked' label) :=
  h.bind fun _ hfirst => h'.bind fun _ hothers => (pure _).congr fun label => by
    rw [List.mem_append, hfirst, hothers]

theorem afterNote (f : Journal → Journal) (h : x.Lists asked) : Lists (do modify f; x) asked :=
  fun j => h (f j)

end Survey.Lists

namespace Parser

variable {rules : Rules} {call : String → Survey (List String)} {asked : Parser → String → Prop}

theorem lists_allLabels {ps : List Parser} (h : ∀ p ∈ ps, (p.labels call).Lists (asked p)) :
    Survey.Lists (allLabels call ps) fun label => ∃ p ∈ ps, asked p label := by
  induction ps with
  | nil => exact (Survey.Lists.pure []).congr fun label => by simp
  | cons p ps ih =>
    obtain ⟨hp, hps⟩ := List.forall_mem_cons.1 h
    exact (hp.append (ih hps)).congr fun label => by simp

theorem lists_of_front {p q : Parser} (hfronts : p.fronts rules = [q])
    (hlabels : p.labels call = q.labels call) (hown : p.ownLabel? = none)
    (h : ∀ q ∈ p.fronts rules, (q.labels call).Lists (asked q)) :
    (p.labels call).Lists fun label =>
      p.ownLabel? = some label ∨ ∃ q ∈ p.fronts rules, asked q label := by
  rw [hlabels]
  exact (h q (by simp [hfronts])).congr fun label => by simp [hown, hfronts]

/-- What a parser lists are its own label and what the parsers list that it starts with. -/
theorem lists_labels {p : Parser} (hrule : ∀ name, p ≠ .rule name) (hbuilt : ∀ e, p ≠ .invalid e)
    (h : ∀ q ∈ p.fronts rules, (q.labels call).Lists (asked q)) :
    (p.labels call).Lists fun label =>
      p.ownLabel? = some label ∨ ∃ q ∈ p.fronts rules, asked q label := by
  cases p with
  | token m =>
    exact (Survey.Lists.pure [m.label]).congr fun label => by simp [ownLabel?, fronts, eq_comm]
  | eof =>
    exact (Survey.Lists.pure [eofLabel]).congr fun label => by simp [ownLabel?, fronts, eq_comm]
  | named label p =>
    refine (Survey.Lists.pure (if label.isEmpty then [] else [label])).congr fun label => ?_
    simp only [ownLabel?, fronts]
    split <;> simp [eq_comm]
  | choice p ps =>
    obtain ⟨hp, hps⟩ := List.forall_mem_cons.1 h
    refine Survey.Lists.bind hp fun first hfirst => (lists_allLabels hps).bind fun others hothers =>
      (Survey.Lists.pure _).congr fun label => ?_
    simp [mem_unionLabels, hfirst, hothers, ownLabel?, fronts]
  | sequence ps =>
    cases ps with
    | nil => exact (Survey.Lists.pure []).congr fun label => by simp [ownLabel?, fronts]
    | cons p ps => exact lists_of_front rfl rfl rfl h
  | map f p => exact lists_of_front rfl rfl rfl h
  | many minimum p => exact lists_of_front rfl rfl rfl h
  | opt default p => exact lists_of_front rfl rfl rfl h
  | attempt p => exact lists_of_front rfl rfl rfl h
  | delayed label p => exact lists_of_front rfl rfl rfl h
  | rule name => exact absurd rfl (hrule name)
  | invalid e => exact absurd rfl (hbuilt e)

end Parser

end TokenParsing
