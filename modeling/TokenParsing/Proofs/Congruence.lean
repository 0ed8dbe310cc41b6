import Mathlib.Data.List.Forall2
import Mathlib.Logic.Relation
import TokenParsing.Parser.Run

/-!
# Relations that every combinator keeps

What holds between the actions of a parser on two sources is proved once for each combinator. A
relation that every combinator keeps (`Action.Congruence`) then holds between the two actions of
every parser (`Congruence.action`), by induction on the parser, and of every rule
(`Congruence.call`), by induction on the depth of calls. A property of the actions on one source
(`Action.Stable`) is the case where the second action does not matter.

Some properties only hold of parsers that are built in a certain way. So the combinators need to keep
a relation only as far as they make the parsers of some set `K`; it then holds for the parsers all of
whose parts are in the set (`Parser.Within`).
-/

namespace TokenParsing

open List (Forall₂)

variable {σ τ : Type} [TokenSource σ] [TokenSource τ]

theorem rel_getElem? {α β : Type} {R : α → β → Prop} {l : List α} {l' : List β}
    (h : Forall₂ R l l') (n : Nat) : Option.Rel R l[n]? l'[n]? := by
  rw [← List.head?_drop, ← List.head?_drop]
  match l.drop n, l'.drop n, List.forall₂_drop n h with
  | _, _, .nil => exact .none
  | _, _, .cons hr _ => exact .some hr

/-- An action in a run whose journal is changed before. -/
def Action.afterNote {α : Type} (f : Journal → Journal) (a : Action σ α) : Action σ α := fun s =>
  a { s with journal := f s.journal }

theorem Rules.call_succ (rules : Rules) (limit depth : Nat) (name : String) :
    (rules.call limit (depth + 1) name : Action σ Value) =
      match rules.lookup name with
      | some (.ok p) => .afterNote (·.use name) (p.action (rules.call limit depth) limit)
      | some (.error e) => .afterNote (·.build name) (.abort (.grammar e))
      | none => .abort (.grammar (.unknownRule name)) := by
  rw [Rules.call]
  cases rules.lookup name with
  | none => rfl
  | some r => cases r <;> rfl

namespace Parser

/-- The parsers right below a parser. Below a rule there is its parser. -/
def children (rules : Rules) : Parser → List Parser
  | .token _ | .eof | .invalid _ => []
  | .sequence ps => ps
  | .choice p ps => p :: ps
  | .map _ p | .named _ p | .many _ p | .opt _ p | .attempt p | .delayed _ p => [p]
  | .rule name =>
    match rules.lookup name with
    | some (.ok p) => [p]
    | _ => []

/-- The second parser is the first, or somewhere below it. -/
def Part (rules : Rules) : Parser → Parser → Prop :=
  Relation.ReflTransGen fun p q => q ∈ p.children rules

/-- The parser and everything below it are in the set. -/
def Within (rules : Rules) (K : Parser → Prop) (p : Parser) : Prop := ∀ q, Part rules p q → K q

namespace Within

variable {rules : Rules} {K : Parser → Prop} {p q : Parser}

theorem self (h : Within rules K p) : K p := h p .refl

theorem child (h : Within rules K p) (hq : q ∈ p.children rules) : Within rules K q :=
  fun r hr => h r (hr.head hq)

theorem only (h : Within rules K p) (hq : p.children rules = [q]) : Within rules K q :=
  h.child (hq ▸ List.mem_singleton_self q)

/-- All parts of a parser are in a set that has the parsers below each of its own. -/
theorem of_children {L : Parser → Prop} (hK : ∀ r, L r → K r)
    (hL : ∀ r, L r → ∀ q ∈ r.children rules, L q) (hp : L p) : Within rules K p := by
  intro q hq
  refine hK q ?_
  induction hq with
  | refl => exact hp
  | tail _ hr ih => exact hL _ ih _ hr

end Within

end Parser

namespace Action

/-- A relation between the actions on two sources that every combinator keeps, as far as parsers in
`K` are made with it. -/
structure Congruence (K : Parser → Prop) (Q : Action σ Value → Action τ Value → Prop) : Prop where
  abort : ∀ f, (∀ e, f ≠ .backtrack e) → Q (abort f) (abort f)
  token : ∀ m, K (.token m) → Q (token m) (token m)
  eof : K .eof → Q eof eof
  sequence : ∀ {ps qs}, Forall₂ Q ps qs → Q (sequence ps) (sequence qs)
  choice : ∀ {p q ps qs}, Q p q → Forall₂ Q ps qs → Q (choice p ps) (choice q qs)
  map : ∀ f {r p q}, K (.map f r) → Q p q → Q (map f p) (map f q)
  named : ∀ label {r p q}, K (.named label r) → Q p q → Q (named label p) (named label q)
  many : ∀ minimum limit {p q}, Q p q → Q (many minimum limit p) (many minimum limit q)
  opt : ∀ default {r p q}, K (.opt default r) → Q p q → Q (opt default p) (opt default q)
  attempt : ∀ {r p q}, K (.attempt r) → Q p q → Q (attempt p) (attempt q)
  afterNote : ∀ f {p q}, Q p q → Q (afterNote f p) (afterNote f q)

namespace Congruence

variable {rules : Rules} {K : Parser → Prop} {Q : Action σ Value → Action τ Value → Prop}
  {call₁ : String → Action σ Value} {call₂ : String → Action τ Value}

mutual

/-- The two actions of a parser are related if those of the rules are. -/
theorem action (hQ : Congruence K Q)
    (hcall : ∀ name, Parser.Within rules K (.rule name) → Q (call₁ name) (call₂ name))
    (limit : Nat) : ∀ p : Parser, p.Within rules K → Q (p.action call₁ limit) (p.action call₂ limit)
  | .token m, hp => hQ.token m hp.self
  | .eof, hp => hQ.eof hp.self
  | .sequence ps, hp => hQ.sequence (actions hQ hcall limit ps fun _ => hp.child)
  | .choice p ps, hp =>
    hQ.choice (action hQ hcall limit p (hp.child (List.mem_cons_self ..)))
      (actions hQ hcall limit ps fun _ hq => hp.child (List.mem_cons_of_mem _ hq))
  | .map f p, hp => hQ.map f hp.self (action hQ hcall limit p (hp.only rfl))
  | .named label p, hp => hQ.named label hp.self (action hQ hcall limit p (hp.only rfl))
  | .many minimum p, hp => hQ.many minimum limit (action hQ hcall limit p (hp.only rfl))
  | .opt default p, hp => hQ.opt default hp.self (action hQ hcall limit p (hp.only rfl))
  | .attempt p, hp => hQ.attempt hp.self (action hQ hcall limit p (hp.only rfl))
  | .delayed _ p, hp => action hQ hcall limit p (hp.only rfl)
  | .rule name, hp => hcall name hp
  | .invalid e, _ => hQ.abort _ (fun _ h => by cases h)

theorem actions (hQ : Congruence K Q)
    (hcall : ∀ name, Parser.Within rules K (.rule name) → Q (call₁ name) (call₂ name))
    (limit : Nat) : ∀ ps : List Parser, (∀ p ∈ ps, p.Within rules K) →
      Forall₂ Q (Parser.actions call₁ limit ps) (Parser.actions call₂ limit ps)
  | [], _ => .nil
  | p :: ps, hps =>
    have hps := List.forall_mem_cons.1 hps
    .cons (action hQ hcall limit p hps.1) (actions hQ hcall limit ps hps.2)

end

theorem call (hQ : Congruence K Q) (limit depth : Nat) (name : String)
    (hname : Parser.Within rules K (.rule name)) :
    Q (rules.call limit depth name) (rules.call limit depth name) := by
  induction depth generalizing name with
  | zero => exact hQ.abort _ (fun _ h => by cases h)
  | succ depth ih =>
    rw [Rules.call_succ, Rules.call_succ]
    split
    · rename_i p hlookup
      have hp : p.Within rules K := hname.child (by simp [Parser.children, hlookup])
      exact hQ.afterNote _ (hQ.action ih limit p hp)
    · exact hQ.afterNote _ (hQ.abort _ (fun _ h => by cases h))
    · exact hQ.abort _ (fun _ h => by cases h)

end Congruence

/-- A property of the actions on one source that every combinator keeps, as far as parsers in `K` are
made with it. -/
structure StableOn (K : Parser → Prop) (P : Action σ Value → Prop) : Prop where
  abort : ∀ f, (∀ e, f ≠ .backtrack e) → P (abort f)
  token : ∀ m, K (.token m) → P (token m)
  eof : K .eof → P eof
  sequence : ∀ {ps}, (∀ p ∈ ps, P p) → P (sequence ps)
  choice : ∀ {p ps}, P p → (∀ q ∈ ps, P q) → P (choice p ps)
  map : ∀ f {r p}, K (.map f r) → P p → P (map f p)
  named : ∀ label {r p}, K (.named label r) → P p → P (named label p)
  many : ∀ minimum limit {p}, P p → P (many minimum limit p)
  opt : ∀ default {r p}, K (.opt default r) → P p → P (opt default p)
  attempt : ∀ {r p}, K (.attempt r) → P p → P (attempt p)
  afterNote : ∀ f {p}, P p → P (afterNote f p)

/-- A property of the actions on one source that every combinator keeps. -/
abbrev Stable (P : Action σ Value → Prop) : Prop := StableOn (fun _ => True) P

section

variable {K : Parser → Prop} {P : Action σ Value → Prop}

theorem StableOn.congruence (hP : StableOn K P) :
    Congruence K (fun a (_ : Action σ Value) => P a) := by
  have hall {ps qs : List (Action σ Value)} (h : Forall₂ (fun a _ => P a) ps qs) :
      ∀ p ∈ ps, P p := by
    induction h with
    | nil => simp
    | cons hp _ ih => simpa using ⟨hp, ih⟩
  exact {
    abort := hP.abort
    token := hP.token
    eof := hP.eof
    sequence := fun h => hP.sequence (hall h)
    choice := fun hp h => hP.choice hp (hall h)
    map := fun f _ _ _ => hP.map f
    named := fun label _ _ _ => hP.named label
    many := fun minimum limit _ _ => hP.many minimum limit
    opt := fun default _ _ _ => hP.opt default
    attempt := hP.attempt
    afterNote := fun f _ _ => hP.afterNote f }

/-- The actions of a parser with all parts in `K` have the property, whatever the limits of the run
are. -/
theorem StableOn.action (hP : StableOn K P) {rules : Rules} (limit depth : Nat) (p : Parser)
    (hp : p.Within rules K) : P (p.action (rules.call limit depth) limit) :=
  @Congruence.action σ σ _ _ _ _ _ _ (rules.call limit depth) hP.congruence
    (hP.congruence.call limit depth) limit p hp

theorem Stable.action (hP : Stable P) (rules : Rules) (limit depth : Nat) (p : Parser) :
    P (p.action (rules.call limit depth) limit) :=
  StableOn.action hP limit depth p fun _ _ => trivial

end

end Action

end TokenParsing
