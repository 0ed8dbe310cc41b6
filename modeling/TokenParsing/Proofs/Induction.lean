import TokenParsing.Proofs.Congruence

/-!
# Induction on parsers

What is true of a parser may depend on more of its parts than their actions, such as on how they are
written. It is then shown by induction on the parser (`Parser.induction`), where rules are told of by
what is known of them with one call less, and for all numbers of calls at once
(`Parser.action_induction`).
-/

namespace TokenParsing

theorem Rules.lookup_map (f : Parser → Parser) (rules : Rules) (name : String) :
    (rules.map fun r => (r.1, r.2.map f)).lookup name = (rules.lookup name).map (·.map f) := by
  induction rules with
  | nil => rfl
  | cons r rules ih =>
    obtain ⟨key, r⟩ := r
    simp only [List.map_cons, List.lookup_cons]
    cases name == key with
    | true => rfl
    | false => exact ih

namespace Parser

/-- Induction on a parser, where the parts of a sequence and of a choice are known of one by one. -/
@[elab_as_elim]
theorem induction {motive : Parser → Prop} (token : ∀ m, motive (.token m)) (eof : motive .eof)
    (sequence : ∀ ps, (∀ p ∈ ps, motive p) → motive (.sequence ps))
    (choice : ∀ p ps, (∀ q ∈ p :: ps, motive q) → motive (.choice p ps))
    (map : ∀ f p, motive p → motive (.map f p))
    (named : ∀ label p, motive p → motive (.named label p))
    (many : ∀ minimum p, motive p → motive (.many minimum p))
    (opt : ∀ default p, motive p → motive (.opt default p))
    (attempt : ∀ p, motive p → motive (.attempt p))
    (delayed : ∀ label p, motive p → motive (.delayed label p))
    (rule : ∀ name, motive (.rule name)) (invalid : ∀ e, motive (.invalid e)) (p : Parser) :
    motive p :=
  @Parser.rec motive (fun ps => ∀ p ∈ ps, motive p) token eof sequence
    (fun p ps hp hps => choice p ps (List.forall_mem_cons.2 ⟨hp, hps⟩)) map named many opt attempt
    delayed rule invalid (by simp) (fun _ _ hp hps => List.forall_mem_cons.2 ⟨hp, hps⟩) p

variable {σ : Type} [TokenSource σ] {rules : Rules} {K : Parser → Prop}
  {P : Parser → Action σ Value → Prop} {limit : Nat}

/-- What holds of a parser and its action if it does of the rules with one call less, holds of them
with any number of calls. -/
theorem action_induction
    (exhausted : ∀ name, P (.rule name) (.abort .exhausted))
    (unknown : ∀ name, rules.lookup name = none →
      P (.rule name) (.abort (.grammar (.unknownRule name))))
    (broken : ∀ name e, rules.lookup name = some (.error e) →
      P (.rule name) (.afterNote (·.build name) (.abort (.grammar e))))
    (use : ∀ name p a, rules.lookup name = some (.ok p) → P p a →
      P (.rule name) (.afterNote (·.use name) a))
    (action : ∀ depth,
      (∀ name, Within rules K (.rule name) → P (.rule name) (rules.call limit depth name)) →
      ∀ p, p.Within rules K → P p (p.action (rules.call limit depth) limit))
    (depth : Nat) (p : Parser) (hp : p.Within rules K) :
    P p (p.action (rules.call limit depth) limit) := by
  refine action depth (fun name hname => ?_) p hp
  induction depth generalizing name with
  | zero => exact exhausted name
  | succ depth ih =>
    rw [Rules.call_succ]
    split
    · rename_i p hlookup
      exact use name p _ hlookup (action depth ih p (hname.child (by simp [children, hlookup])))
    · rename_i e hlookup
      exact broken name e hlookup
    · rename_i hlookup
      exact unknown name hlookup

end Parser

end TokenParsing
