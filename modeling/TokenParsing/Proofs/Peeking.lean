import TokenParsing.Proofs.Rewinding

/-!
# One look ahead more

A look ahead reads nothing: the cursor stays, and so do the answers that follow from it. But it pulls
tokens into the memory of the window, where they push out older ones. So of all requests behind it only
those to go back can be answered otherwise, and only if they go to a place that was pushed out
(`Tape.Disturbs`), or to one that no mark was set at before.

A tape that has pulled more than another one, and stands at the same place, answers like it as long as
nothing is disturbed (`Tape.alike_run_pull_iff`). Putting a look ahead into a list of requests makes such
a tape of the one that it finds (`Stream.answers_peek`).
-/

namespace TokenParsing

namespace Window

/-- Two answers say the same, but a refusal may name a later place as the oldest that is left. -/
inductive Answer.Alike : Answer → Answer → Prop
  | refl (a : Answer) : Alike a a
  | refused {offset oldest oldest' horizon : Int} (hle : oldest ≤ oldest') :
    Alike (.refused ⟨offset, oldest, horizon⟩) (.refused ⟨offset, oldest', horizon⟩)

variable {σ : Type}

theorem Request.run_append (step : σ → Request → Answer × σ) (s : σ) (before after : List Request) :
    Request.run step s (before ++ after) =
      ((run step s before).1 ++ (run step (run step s before).2 after).1,
        (run step (run step s before).2 after).2) := by
  induction before generalizing s with
  | nil => rfl
  | cons q before ih => simp only [List.cons_append, run, ih]

theorem Request.length_run (step : σ → Request → Answer × σ) (s : σ) (requests : List Request) :
    (run step s requests).1.length = requests.length := by
  induction requests generalizing s with
  | nil => rfl
  | cons q requests ih => simp only [run, List.length_cons, ih]

end Window

namespace Tape

/-- Going to the offset is answered otherwise once the tokens up to `reach` are pulled: the place is too
far back then, or it was too far ahead before. -/
def Disturbs (t : Tape) (reach : Nat) (offset : Int) : Prop :=
  t.oldest ≤ offset ∧ offset ≤ t.pulled ∧ offset + t.horizon < min reach t.tokens.length ∨
    t.pulled < offset ∧ offset ≤ min reach t.tokens.length

instance (t : Tape) (reach : Nat) (offset : Int) : Decidable (t.Disturbs reach offset) :=
  inferInstanceAs (Decidable (_ ∨ _))

/-- None of the requests goes to a place where this is answered otherwise by then. -/
def Undisturbed (t : Tape) (reach : Nat) (requests : List Window.Request) : Prop :=
  ∀ front offset back, requests = front ++ .restore offset :: back →
    ¬(Window.Request.run step t front).2.Disturbs reach offset

/-- The tape goes back at least to where the tokens up to `reach` leave it. -/
def Reaches (t : Tape) (reach : Nat) : Prop := min reach t.tokens.length ≤ t.pulled + t.horizon

variable {t : Tape} {reach : Nat} {requests : List Window.Request}

theorem pull_eq_self (h : min reach t.tokens.length ≤ t.pulled) : t.pull reach = t := by
  rw [pull, Nat.max_eq_left h]

theorem step_keeps (t : Tape) (q : Window.Request) :
    t.pulled ≤ (t.step q).2.pulled ∧ (t.step q).2.horizon = t.horizon ∧
      (t.step q).2.source = t.source := by
  cases q with
  | next => exact ⟨Nat.le_max_left .., rfl, rfl⟩
  | peek distance =>
    simp only [step]
    split
    · exact ⟨Nat.le_max_left .., rfl, rfl⟩
    · exact ⟨Nat.le_refl _, rfl, rfl⟩
  | position | isEmpty | mark => exact ⟨Nat.le_refl _, rfl, rfl⟩
  | restore offset =>
    simp only [step]
    split <;> exact ⟨Nat.le_refl _, rfl, rfl⟩

theorem horizon_run (t : Tape) (requests : List Window.Request) :
    (Window.Request.run step t requests).2.horizon = t.horizon := by
  induction requests generalizing t with
  | nil => rfl
  | cons q requests ih => exact (ih _).trans (t.step_keeps q).2.1

theorem Reaches.step (h : t.Reaches reach) (q : Window.Request) : (t.step q).2.Reaches reach := by
  obtain ⟨hpulled, hhorizon, hsource⟩ := t.step_keeps q
  rw [Reaches, tokens, hsource, hhorizon]
  exact Nat.le_trans h (Nat.add_le_add_right hpulled _)

theorem disturbs_iff (h : t.Reaches reach) (offset : Int) :
    t.Disturbs reach offset ↔
      ¬(t.oldest ≤ offset ∧ offset ≤ t.pulled ↔
        (t.pull reach).oldest ≤ offset ∧ offset ≤ (t.pull reach).pulled) := by
  simp only [Disturbs, oldest, pull, Reaches] at h ⊢
  omega

theorem oldest_le_pull (t : Tape) (reach : Nat) : t.oldest ≤ (t.pull reach).oldest := by
  simp only [oldest, pull]
  omega

/-- A request that is not disturbed is answered alike, and leaves as much more pulled as there was. -/
theorem step_pull (h : t.Reaches reach) {q : Window.Request}
    (hq : ∀ offset, q = .restore offset → ¬t.Disturbs reach offset) :
    (t.step q).1.Alike ((t.pull reach).step q).1 ∧
      ((t.pull reach).step q).2 = (t.step q).2.pull reach := by
  cases q with
  | next => exact ⟨.refl _, by simp only [step, pull, tokens, Nat.max_right_comm]⟩
  | peek distance =>
    simp only [step]
    by_cases hd : 0 ≤ distance ∧ distance < t.horizon
    · rw [if_pos hd, if_pos (show 0 ≤ distance ∧ distance < (t.pull reach).horizon from hd)]
      exact ⟨.refl _, by simp only [pull, tokens, Nat.max_right_comm]⟩
    · rw [if_neg hd, if_neg (show ¬(0 ≤ distance ∧ distance < (t.pull reach).horizon) from hd)]
      exact ⟨.refl _, rfl⟩
  | position | isEmpty | mark => exact ⟨.refl _, rfl⟩
  | restore offset =>
    have hsame := not_not.1 (mt (disturbs_iff h offset).2 (hq offset rfl))
    simp only [step]
    by_cases hin : t.oldest ≤ offset ∧ offset ≤ t.pulled
    · rw [if_pos hin, if_pos (hsame.1 hin)]
      exact ⟨.refl _, rfl⟩
    · rw [if_neg hin, if_neg (mt hsame.2 hin)]
      exact ⟨.refused (t.oldest_le_pull reach), rfl⟩

/-- Going to a disturbed place succeeds on one of the tapes and is refused on the other. -/
theorem Disturbs.not_alike {offset : Int} (h : t.Reaches reach) (hd : t.Disturbs reach offset) :
    ¬(t.step (.restore offset)).1.Alike ((t.pull reach).step (.restore offset)).1 := by
  have hother := (disturbs_iff h offset).1 hd
  simp only [step]
  by_cases hin : t.oldest ≤ offset ∧ offset ≤ t.pulled
  · have hout : ¬((t.pull reach).oldest ≤ offset ∧ offset ≤ (t.pull reach).pulled) :=
      fun hout => hother (iff_of_true hin hout)
    rw [if_pos hin, if_neg hout]
    rintro ⟨⟩
  · have hout : (t.pull reach).oldest ≤ offset ∧ offset ≤ (t.pull reach).pulled :=
      by_contra fun hout => hother (iff_of_false hin hout)
    rw [if_neg hin, if_pos hout]
    rintro ⟨⟩

theorem undisturbed_nil (t : Tape) (reach : Nat) : t.Undisturbed reach [] :=
  fun front offset back heq => by simp at heq

theorem undisturbed_cons {q : Window.Request} :
    t.Undisturbed reach (q :: requests) ↔
      (∀ offset, q = .restore offset → ¬t.Disturbs reach offset) ∧
        (t.step q).2.Undisturbed reach requests := by
  constructor
  · intro h
    exact ⟨fun offset hq => h [] offset requests (hq ▸ rfl),
      fun front offset back heq => h (q :: front) offset back (heq ▸ rfl)⟩
  · rintro ⟨hq, h⟩ front offset back heq
    cases front with
    | nil => exact hq offset (List.cons.inj heq).1
    | cons q' front =>
      rw [List.cons_append, List.cons.injEq] at heq
      obtain ⟨rfl, heq⟩ := heq
      exact h front offset back heq

/-- A tape that has pulled more answers alike exactly as long as nothing is disturbed. -/
theorem alike_run_pull_iff (h : t.Reaches reach) :
    List.Forall₂ Window.Answer.Alike (Window.Request.run step t requests).1
        (Window.Request.run step (t.pull reach) requests).1 ↔
      t.Undisturbed reach requests := by
  induction requests generalizing t with
  | nil => exact iff_of_true .nil (t.undisturbed_nil reach)
  | cons q requests ih =>
    rw [undisturbed_cons]
    simp only [Window.Request.run, List.forall₂_cons]
    by_cases hq : ∀ offset, q = .restore offset → ¬t.Disturbs reach offset
    · obtain ⟨halike, hstep⟩ := step_pull h hq
      rw [hstep, ih (h.step q)]
      exact and_congr (iff_of_true halike hq) Iff.rfl
    · refine iff_of_false (fun hall => hq ?_) fun hall => hq hall.1
      rintro offset rfl hd
      exact hd.not_alike h hall.1

end Tape

/-- One look ahead more, within the horizon of a window, finds the token that stands there. All other
requests are answered alike exactly if none of those behind it goes back to a place that was pushed out
of the memory by then, or goes on to one that was not pulled before. They are answered the same if the
tokens up to the place that is looked at were pulled already, or there are none. -/
theorem Stream.answers_peek {trees : List TokenTree} {source : Stream}
    (hsource : source.Reachable trees) {k : Nat} (hk : 0 < k) (before after : List Window.Request)
    {distance : Int} (hd : 0 ≤ distance ∧ distance < k) :
    let ask (requests : List Window.Request) :=
      (Window.Request.run Stream.answer (.lookahead (.empty k) source) requests).1
    let tape := (Window.Request.run Tape.step (.on source k) before).2
    let place := tape.index + distance.toNat
    ∃ front back back', ask (before ++ after) = front ++ back ∧
      ask (before ++ .peek distance :: after) = front ++ .token tape.tokens[place]? :: back' ∧
      front.length = before.length ∧
      (List.Forall₂ Window.Answer.Alike back back' ↔ tape.Undisturbed (place + 1) after) ∧
      (min (place + 1) tape.tokens.length ≤ tape.pulled → back = back') := by
  intro ask tape place
  obtain ⟨c, -, hplace⟩ := hsource.exists_at
  have hshows := Tape.shows_on hplace hk
  have hask (requests : List Window.Request) :
      ask requests = (Window.Request.run Tape.step (.on source k) requests).1 := by
    obtain ⟨w, s, hrun, -⟩ := hshows.run requests
    exact congrArg Prod.fst hrun
  -- window and tape answer the same, so all that follows is about the tape
  obtain ⟨w, s, -, htape⟩ := hshows.run before
  have hhorizon : tape.horizon = k := Tape.horizon_run _ before
  have hreaches : tape.Reaches (place + 1) := by
    have hindex : tape.index ≤ tape.pulled := htape.index_le
    simp only [Tape.Reaches, hhorizon]
    omega
  have hstep : tape.step (.peek distance) = (.token tape.tokens[place]?, tape.pull (place + 1)) := by
    rw [Tape.step, if_pos (by rw [hhorizon]; exact hd)]
  refine ⟨(Window.Request.run Tape.step (.on source k) before).1,
    (Window.Request.run Tape.step tape after).1,
    (Window.Request.run Tape.step (tape.pull (place + 1)) after).1, ?_, ?_,
    Window.Request.length_run .., Tape.alike_run_pull_iff hreaches, fun hle => ?_⟩
  · rw [hask, Window.Request.run_append]
  · rw [hask, Window.Request.run_append, Window.Request.run, hstep]
  · rw [Tape.pull_eq_self hle]

/-- In `a ( b )`, behind `a`: a window of horizon 2 over a window of horizon 1 looks at `b` once more before
it goes back in front of `(`. Later it has read up to the end, and is refused to go back there. -/
theorem Stream.answers_peek_nested :
    let source := (Stream.lookahead (.empty 1) (.input (.ofTrees [.ident "a" .callSite,
      .group .parenthesis [.group .invisible [.ident "b" .callSite] .callSite] .callSite]))).next.2
    let ask (requests : List Window.Request) :=
      (Window.Request.run Stream.answer (.lookahead (.empty 2) source) requests).1
    let before := [.mark, .next]
    let after := [.restore 0, .next, .next, .position, .next, .restore 0]
    ∃ front back back', ask (before ++ after) = front ++ back ∧
      ask (before ++ .peek 0 :: after) = front ++ .token (some (.ident "b" .callSite)) :: back' ∧
      List.Forall₂ Window.Answer.Alike back back' := by
  intro source ask before after
  have hsource : source.Reachable _ := .next (.lookahead (by decide) .ofTrees)
  obtain ⟨front, back, back', hplain, hpeek, -, halike, -⟩ :=
    Stream.answers_peek hsource (show 0 < 2 by decide) before after
      (show 0 ≤ (0 : Int) ∧ (0 : Int) < (2 : Nat) by decide)
  let tape := (Window.Request.run Tape.step (.on source 2) before).2
  have htoken : tape.tokens[tape.index + (0 : Int).toNat]? = some (.ident "b" .callSite) := by
    decide +kernel
  refine ⟨front, back, back', hplain,
    hpeek.trans (congrArg (fun t => front ++ .token t :: back') htoken), halike.2 ?_⟩
  simp only [after, Tape.undisturbed_cons, Tape.undisturbed_nil, reduceCtorEq, false_imp_iff,
    implies_true, Window.Request.restore.injEq, forall_eq', true_and, and_true]
  exact ⟨by decide +kernel, by decide +kernel⟩

/-- On `a b`, a window of horizon 1 goes back in front of `a`. If it has looked at `b` before, it does
not. -/
theorem Stream.answers_peek_forgotten :
    let source := Stream.input (.ofTrees [.ident "a" .callSite, .ident "b" .callSite])
    let ask (requests : List Window.Request) :=
      (Window.Request.run Stream.answer (.lookahead (.empty 1) source) requests).1
    ask [.mark, .next, .restore 0] =
        [.marked (.offset 0), .token (some (.ident "a" .callSite)), .done] ∧
      ask [.mark, .next, .peek 0, .restore 0] =
        [.marked (.offset 0), .token (some (.ident "a" .callSite)),
          .token (some (.ident "b" .callSite)), .refused ⟨0, 1, 1⟩] := by
  intro source ask
  exact ⟨by with_unfolding_all rfl, by with_unfolding_all rfl⟩

end TokenParsing
