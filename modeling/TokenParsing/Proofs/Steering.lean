import TokenParsing.Proofs.Induction
import TokenParsing.Proofs.Likeness
import TokenParsing.Proofs.Nullability

/-!
# Labels and functions steer nothing

A label is put on what is expected where a parser starts, and a function makes another value of its
value. Neither is looked at when it is decided what is read next: that takes the places of failures and
of hints, and whether a failure is committed. So a parser goes the same way if all labels and functions
are taken out of it and out of its rules (`Parser.bare`). It reads the same tokens to the same effect,
and tells the same of its failure or hint but for what is expected (`Parser.run_bare`), unless one of
the functions raises an error, which ends the parse.
-/

namespace TokenParsing

/-- The failure without what is expected. -/
def Failure.unlabelled (e : Failure) : Failure := e.withExpected []

/-- What a result tells of the way that was gone: no value, and of a failure or a hint not what is
expected there. -/
def Result.course {α : Type} : Result α → Result Unit
  | .success _ hint => .success () (hint.map Failure.unlabelled)
  | .failure e => .failure e.unlabelled
  | .abort f => .abort f

namespace Failure

variable {e f : Failure}

theorem unlabelled_merge (e f : Failure) :
    (e.merge f).unlabelled = e.unlabelled.merge f.unlabelled := by
  show _ = if e.ordinal < f.ordinal then _ else if f.ordinal < e.ordinal then _ else _
  rw [merge]
  split
  · rfl
  · split <;> rfl

end Failure

/-- Runs that go the same way, but that the first one may raise an error over a value. -/
def Likeness.course : Likeness where
  inputs := Eq
  values _ _ := True
  failures e f := e.unlabelled = f.unlabelled
  ordinal_eq h := congrArg Input.ordinal h
  isEmpty_eq h := congrArg Input.isEmpty h
  remaining_eq h := congrArg (·.tokens.length) h
  next h := congrArg (·.next.2) h
  accept := by
    rintro i _ rfl m
    cases i.next.1.bind m.accept with
    | none => exact .none
    | some v => exact .some trivial
  refuse := by
    rintro i _ rfl label
    rfl
  refl _ := trivial
  tuple _ := trivial
  list _ := trivial
  place_eq h := (congrArg Failure.ordinal h :)
  committed_eq h := (congrArg Failure.committed h :)
  merge h h' := by rw [Failure.unlabelled_merge, Failure.unlabelled_merge, h, h']
  withCommitted h b := congrArg (Failure.withCommitted · b) h
  excused f := ∃ e, f = .value e

namespace Likeness.course

variable {p q : Action Input Value} {h k : Hint} {s t : State Input}

theorem state_eq (hst : course.Beside s t) : s = t := by
  cases s
  cases t
  exact congr (congrArg State.mk hst.inputs) hst.journal

theorem map_unlabelled (hk : course.hints h k) : h.map Failure.unlabelled = k.map Failure.unlabelled := by
  cases hk with
  | none => rfl
  | some he => exact congrArg some he

theorem named (label : String) (hp : course.Lifts course.values p q) :
    course.Lifts course.values (Action.named label p) q := by
  intro s t hst
  unfold Action.named
  match p s, q t, hp hst with
  | _, _, .success hv hk hst' =>
    refine .success hv ?_ hst'
    cases hk with
    | none => exact .none
    | some he =>
      refine .some ?_
      dsimp only
      split
      · exact he
      · exact he
  | _, _, .failure he hst' =>
    dsimp only
    split
    · exact .failure he hst'
    · exact .failure he hst'
  | _, _, .abort e hst' => exact .abort e hst'
  | _, _, .excused he _ _ => exact .excused he _ _

theorem map (f : Value → Except ValueError Value) (hp : course.Lifts course.values p q) :
    course.Lifts course.values (Action.map f p) q := by
  intro s t hst
  unfold Action.map
  match p s, q t, hp hst with
  | _, _, .success _ hk hst' =>
    dsimp only
    split
    · exact .success trivial hk hst'
    · rename_i e _
      have hraise : course.excused (.value e) := ⟨e, rfl⟩
      exact .excused hraise _ _
  | _, _, .failure he hst' => exact .failure he hst'
  | _, _, .abort e hst' => exact .abort e hst'
  | _, _, .excused he _ _ => exact .excused he _ _

end Likeness.course

namespace Parser

mutual

/-- The parser without labels and functions: in place of each of them stands the parser within. -/
def bare : Parser → Parser
  | .sequence ps => .sequence (bareAll ps)
  | .choice p ps => .choice p.bare (bareAll ps)
  | .map _ p => p.bare
  | .named _ p => p.bare
  | .many minimum p => .many minimum p.bare
  | .opt default p => .opt default p.bare
  | .attempt p => .attempt p.bare
  | .delayed label p => .delayed label p.bare
  | p => p

def bareAll : List Parser → List Parser
  | [] => []
  | p :: ps => p.bare :: bareAll ps

end

theorem bareAll_eq_map (ps : List Parser) : bareAll ps = ps.map bare := by
  induction ps with
  | nil => rfl
  | cons p ps ih => rw [bareAll, ih, List.map_cons]

theorem bare_sequence (ps : List Parser) : (sequence ps).bare = sequence (ps.map bare) :=
  congrArg sequence (bareAll_eq_map ps)

theorem bare_choice (p : Parser) (ps : List Parser) :
    (choice p ps).bare = choice p.bare (ps.map bare) :=
  congrArg (choice p.bare) (bareAll_eq_map ps)

/-- The parser itself puts no label on what is expected, and no function on its value. -/
def Unadorned : Parser → Prop
  | .map .. | .named .. => False
  | _ => True

theorem unadorned_bare (p : Parser) : p.bare.Unadorned := by
  induction p using Parser.induction with
  | map _ _ ih | named _ _ ih => exact ih
  | _ => trivial

end Parser

/-- The rules, each with its parser bare. -/
def Rules.bare (rules : Rules) : Rules := rules.map fun (name, r) => (name, r.map Parser.bare)

theorem Rules.lookup_bare (rules : Rules) (name : String) :
    rules.bare.lookup name = (rules.lookup name).map (·.map Parser.bare) :=
  rules.lookup_map Parser.bare name

namespace Parser

variable {call₁ call₂ : String → Action Input Value} {limit : Nat}

theorem children_bare (rules : Rules) (p : Parser) :
    ∀ q ∈ p.bare.children rules.bare, ∃ r : Parser, q = r.bare := by
  induction p using Parser.induction with
  | sequence ps =>
    intro q hq
    rw [bare_sequence] at hq
    obtain ⟨r, -, rfl⟩ := List.mem_map.1 hq
    exact ⟨r, rfl⟩
  | choice p ps =>
    intro q hq
    rw [bare_choice] at hq
    have hmem : q ∈ (p :: ps).map bare := hq
    obtain ⟨r, -, rfl⟩ := List.mem_map.1 hmem
    exact ⟨r, rfl⟩
  | map _ _ ih | named _ _ ih => exact ih
  | many _ p | opt _ p | attempt p | delayed _ p =>
    intro q hq
    exact ⟨p, List.mem_singleton.1 hq⟩
  | rule name =>
    intro q hq
    unfold bare children at hq
    dsimp only at hq
    rw [rules.lookup_bare] at hq
    generalize rules.lookup name = found at hq
    rcases found with _ | _ | r
    · cases hq
    · cases hq
    · exact ⟨r, List.mem_singleton.1 hq⟩
  | token | eof | invalid =>
    intro q hq
    cases hq

/-- No label and no function is left in the parser, nor in a rule that it may use. -/
theorem within_bare (rules : Rules) (p : Parser) : p.bare.Within rules.bare Unadorned := by
  refine Within.of_children (L := fun q => ∃ r : Parser, q = r.bare) ?_ ?_ ⟨p, rfl⟩
  · rintro _ ⟨r, rfl⟩
    exact r.unadorned_bare
  · rintro _ ⟨r, rfl⟩
    exact children_bare rules r

open Likeness (course)

theorem lifts_actions_bare {ps : List Parser}
    (h : ∀ p ∈ ps, course.Lifts course.values (p.action call₁ limit) (p.bare.action call₂ limit)) :
    List.Forall₂ (course.Lifts course.values) (actions call₁ limit ps)
      (actions call₂ limit (ps.map bare)) := by
  rw [actions_eq_map, actions_eq_map, List.map_map]
  exact List.forall₂_map_left_iff.2 (List.forall₂_map_right_iff.2 (List.forall₂_same.2 h))

theorem lifts_bare
    (hcall : ∀ name, course.Lifts course.values (call₁ name) (call₂ name)) (p : Parser) :
    course.Lifts course.values (p.action call₁ limit) (p.bare.action call₂ limit) := by
  induction p using Parser.induction with
  | sequence ps ih =>
    rw [bare_sequence]
    exact .sequence (lifts_actions_bare ih)
  | choice p ps ih =>
    obtain ⟨hp, hps⟩ := List.forall_mem_cons.1 ih
    rw [bare_choice]
    exact .choice hp (lifts_actions_bare hps)
  | map f p ih => exact course.map f ih
  | named label p ih => exact course.named label ih
  | many minimum p ih => exact .many minimum limit ih
  | opt default p ih => exact .opt default ih
  | attempt p ih => exact .attempt ih
  | delayed label p ih => exact ih
  | token m => exact .token m
  | eof => exact .eof
  | rule name => exact hcall name
  | invalid e => exact fun _ _ hst => .abort _ hst

theorem lifts_call_bare (rules : Rules) (limit depth : Nat) (name : String) :
    course.Lifts course.values (rules.call limit depth name) (rules.bare.call limit depth name) := by
  induction depth generalizing name with
  | zero => exact fun _ _ hst => .abort _ hst
  | succ depth ih =>
    rw [Rules.call_succ, Rules.call_succ, Rules.lookup_bare]
    match rules.lookup name with
    | some (.ok p) => exact .afterNote _ (lifts_bare ih p)
    | some (.error e) => exact .afterNote _ fun _ _ hst => .abort _ hst
    | none => exact fun _ _ hst => .abort _ hst

/-- Without its labels and functions, in any part of it and in any rule, a parser goes the same way, if
none of the functions raises an error. Both runs succeed or both fail, and they end in the same state of
the input. They fail at the same place, over the same token and both committed or both not, and they
give a hint in the same cases, for the same place. -/
theorem run_bare (rules : Rules) (p : Parser) (s : State Input)
    (hvalue : ∀ e, (p.run rules s).1 ≠ .abort (.value e)) :
    p.bare.Within rules.bare Unadorned ∧
      (p.bare.run rules.bare s).1.course = (p.run rules s).1.course ∧
      (p.bare.run rules.bare s).2 = (p.run rules s).2 := by
  refine ⟨within_bare rules p, ?_⟩
  have hlength : rules.bare.length = rules.length := List.length_map _
  -- a run that is excused would have raised a value error
  have hagrees : course.Agrees course.values (p.run rules s) (p.bare.run rules.bare s) := by
    unfold run
    rw [hlength]
    exact lifts_bare (lifts_call_bare rules _ _) p ⟨rfl, rfl⟩
  revert hvalue
  match p.run rules s, p.bare.run rules.bare s, hagrees with
  | _, _, .success _ hk hst =>
    intro _
    exact ⟨congrArg (Result.success ()) (course.map_unlabelled hk).symm, (course.state_eq hst).symm⟩
  | _, _, .failure he hst =>
    intro _
    exact ⟨congrArg Result.failure (Eq.symm he), (course.state_eq hst).symm⟩
  | _, _, .abort f hst =>
    intro _
    exact ⟨rfl, (course.state_eq hst).symm⟩
  | _, _, .excused hf _ _ =>
    intro hvalue
    obtain ⟨e, rfl⟩ := hf
    exact absurd rfl (hvalue e)

/-- A list in brackets that breaks off behind a comma, `[ a , ]`. Its items are asked for by a label of
their own and its value is made by functions. -/
theorem run_bare_list :
    let trees : List TokenTree := [.group .bracket [.ident "a" .callSite, .punct ',' .alone .callSite]
      .callSite]
    let rules : Rules := [("item", .ok (.named "an item" (.token .ident)))]
    let p : Parser := .named "a list" (.between (.token (.delim '[')) (.token (.delim ']'))
      (.sepBy (.rule "item") (.token (.punct ','))))
    let s : State Input := ⟨Input.ofTrees trees, {}⟩
    (∃ e, (p.run rules s).1 = .failure e ∧ e.ordinal = 3 ∧ e.expected = ["an item"]) ∧
      p.bare.Within rules.bare Unadorned ∧
      (p.bare.run rules.bare s).1.course = (p.run rules s).1.course ∧
      (p.bare.run rules.bare s).2 = (p.run rules s).2 := by
  intro trees rules p s
  obtain ⟨e, hrun, he⟩ :
      ∃ e, (p.run rules s).1 = .failure e ∧ e.ordinal = 3 ∧ e.expected = ["an item"] :=
    ⟨_, by with_unfolding_all rfl, by with_unfolding_all rfl, by with_unfolding_all rfl⟩
  refine ⟨⟨e, hrun, he⟩, run_bare rules p s fun f hf => ?_⟩
  rw [hrun] at hf
  cases hf

end Parser

end TokenParsing
