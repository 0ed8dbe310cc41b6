import TokenParsing.Cli.Folder
import TokenParsing.Proofs.StreamCursor

/-!
# How a run on the command line ends

Arguments that are understood lead to one of three ends. The run breaks off (`Options.Breaks`); or it
fails, and says so (`Options.Fails`); or it reports (`Options.Reports`). Which one it is depends on what
stands under the name of the source, on the trees that its text makes, and on the numbers that are
needed for the report. What is reported is told from the flat view of the trees and a place in it, so
that it does not matter how many tokens a listing looks ahead (`run_end`).
-/

namespace TokenParsing

theorem Leftover.print_eq (l : Leftover) :
    l.print = if Text.Numeral.bound ≤ (l.total : Int) - l.limit then .error .tooManyDigits
      else .ok l.render := by
  have hpos : 0 < Text.Numeral.bound := by decide +kernel
  rw [Leftover.print, Text.Numeral.print]
  cases hcut : l.isCut with
  | true =>
    have hlt : l.limit < l.total := of_decide_eq_true hcut
    by_cases hle : Text.Numeral.bound ≤ (l.total : Int) - l.limit
    · rw [if_pos rfl, if_pos hle, if_neg (by omega)]
      rfl
    · rw [if_pos rfl, if_neg hle, if_pos (by omega)]
      rfl
  | false =>
    have hle : (l.total : Int) ≤ l.limit := Int.not_lt.1 (of_decide_eq_false hcut)
    rw [if_neg Bool.false_ne_true, if_neg (by omega)]

namespace Cli

open TokenStream (flatten)

/-- The trees of a file of some name, if it is text and the text lexes. -/
def Entry.trees? (name : String) : Entry → Option (List TokenTree)
  | .file bytes =>
    (Text.decodeUtf8 bytes).toOption.bind fun chars =>
      (tokenize name (String.ofList (Text.unifyLineEnds chars))).toOption
  | _ => none

namespace Options

/-- The numbers that a report on so many tokens cannot do without. The limit of what is shown of the
remainder is only needed if there is one. -/
def needed (o : Options) (count : Nat) : List Amount :=
  if o.tokens then [o.lookahead]
  else
    match o.trailing with
    | none => []
    | some .blank => [.blank]
    | some (.number skip) => if skip.toNat < count then [o.maxTrailing] else []

/-- The runs that break off without an error message. -/
inductive Breaks (o : Options) : Entry → Crash → Prop
  | directory : o.Breaks .directory .directory
  | nameTooLong : o.Breaks .tooLong .nameTooLong
  | notSearchable : o.Breaks .barred .notSearchable
  | readFailure : o.Breaks .faulty .readFailure
  | horizonTooLarge {entry : Entry} {trees : List TokenTree} {k : Int}
    (htrees : entry.trees? o.source = some trees) (htokens : o.tokens = true)
    (hk : o.lookahead = .number k) (hmax : Window.maxHorizon < k) : o.Breaks entry .horizonTooLarge
  | blankNumber {entry : Entry} {trees : List TokenTree}
    (htrees : entry.trees? o.source = some trees)
    (hblank : .blank ∈ o.needed (flatten trees).length) : o.Breaks entry .blankNumber

/-- What there is to be said of the tokens that are left over. -/
def leftover? (o : Options) (tokens : List Token) : Option Leftover :=
  match o.maxTrailing with
  | .number limit => Leftover.ofTokens? limit tokens
  | .blank => none

/-- The runs that end in an error message, and the lines in front of it. There are none, but where the
remainder is shown and the number of leaves that are left out has too many digits. -/
inductive Fails (o : Options) : Entry → List String → Prop
  | missing : o.Fails .missing []
  | unreadable : o.Fails .unreadable []
  | noTrees {bytes : List UInt8} (htrees : (Entry.file bytes).trees? o.source = none) :
    o.Fails (.file bytes) []
  | horizonBelowOne {entry : Entry} {trees : List TokenTree} {k : Int}
    (htrees : entry.trees? o.source = some trees) (htokens : o.tokens = true)
    (hk : o.lookahead = .number k) (hlt : k < 1) : o.Fails entry []
  | tooManyDigits {entry : Entry} {trees : List TokenTree} {skip : Int} {i : Input} {l : Leftover}
    (htrees : entry.trees? o.source = some trees) (htokens : o.tokens = false)
    (htrailing : o.trailing = some (.number skip)) (hi : Stream.Reachable trees (.input i))
    (hplace : i.At ⟨flatten trees, min skip.toNat (flatten trees).length⟩)
    (hl : o.leftover? ((flatten trees).drop skip.toNat) = some l)
    (hdigits : Text.Numeral.bound ≤ (l.total : Int) - l.limit) :
    o.Fails entry (remainderLines i)

/-- The lines of the report on some trees: the trees; or their tokens, each with its position; or what
is left behind the tokens that were to be skipped. -/
inductive Reports (o : Options) (trees : List TokenTree) : List String → Prop
  | trees (htokens : o.tokens = false) (htrailing : o.trailing = none) :
    o.Reports trees (treeLines trees)
  | tokens {k : Int} (htokens : o.tokens = true) (hk : o.lookahead = .number k) (hpos : 1 ≤ k)
    (hmax : k ≤ Window.maxHorizon) :
    o.Reports trees
      ((flatten trees).mapIdx (fun n t => tokenLine (Cursor.position ⟨flatten trees, n⟩) t) ++
        ["", toString (flatten trees).length ++ " tokens"])
  | remainder {skip : Int} {i : Input} (htokens : o.tokens = false)
    (htrailing : o.trailing = some (.number skip)) (hi : Stream.Reachable trees (.input i))
    (hplace : i.At ⟨flatten trees, min skip.toNat (flatten trees).length⟩)
    (hneeded : .blank ∉ o.needed (flatten trees).length)
    (hdigits : ∀ l ∈ o.leftover? ((flatten trees).drop skip.toNat),
      (l.total : Int) - l.limit < Text.Numeral.bound) :
    o.Reports trees
      (remainderLines i ++
        [(o.leftover? ((flatten trees).drop skip.toNat)).elim nothingLeft
          (Leftover.announce ·.render)])

end Options

/-! ### The lines of a report -/

theorem positioned_eq {s : Stream} {tokens : List Token} {n : Nat} (h : s.At ⟨tokens, n⟩)
    (count : Nat) :
    positioned count s = ((tokens.drop n).take count).mapIdx
      fun j t => (Cursor.position ⟨tokens, n + j⟩, t) := by
  induction count generalizing s n with
  | zero => rfl
  | succ count ih =>
    obtain ⟨htoken, hplace⟩ := h.next
    rcases Nat.lt_or_ge n tokens.length with hn | hn
    · rw [Cursor.next_of_lt hn] at htoken hplace
      rw [positioned, show s.next = (some tokens[n], s.next.2) from Prod.ext htoken rfl]
      simp only [ih hplace, h.position_eq, List.drop_eq_getElem_cons hn, List.take_succ_cons,
        List.mapIdx_cons, Nat.add_zero, Nat.add_right_comm n 1, Nat.add_assoc]
    · rw [Cursor.next_of_le hn] at htoken
      rw [positioned, show s.next = (none, s.next.2) from Prod.ext htoken rfl,
        List.drop_eq_nil_of_le hn]
      rfl

theorem tokenLines_of_lt_one (trees : List TokenTree) {k : Int} (hlt : k < 1) :
    tokenLines trees k = .error (.belowOne k) := by
  rw [tokenLines, Window.ofHorizon, if_pos hlt]
  rfl

theorem tokenLines_of_tooLarge (trees : List TokenTree) {k : Int} (hmax : Window.maxHorizon < k) :
    tokenLines trees k = .error (.tooLarge k) := by
  have hpos : ¬k < 1 := fun hlt => absurd (Int.lt_trans hmax hlt) (by decide)
  rw [tokenLines, Window.ofHorizon, if_neg hpos, if_pos hmax]
  rfl

/-- The listing is the same whatever the horizon is. -/
theorem tokenLines_eq (trees : List TokenTree) {k : Int} (hpos : 1 ≤ k)
    (hmax : k ≤ Window.maxHorizon) :
    tokenLines trees k =
      .ok ((flatten trees).mapIdx (fun n t => tokenLine (Cursor.position ⟨flatten trees, n⟩) t) ++
        ["", toString (flatten trees).length ++ " tokens"]) := by
  have hw : Window.ofHorizon k = .ok (.empty k.toNat) := by
    rw [Window.ofHorizon, if_neg (Int.not_lt.2 hpos), if_neg (Int.not_lt.2 hmax)]
  have hhorizon : 0 < k.toNat := by omega
  have hs : (Stream.lookahead (.empty k.toNat) (.input (.ofTrees trees))).At ⟨flatten trees, 0⟩ :=
    .lookahead (c := ⟨flatten trees, 0⟩) (Window.holds_empty hhorizon (Nat.zero_le _))
      (.input (Input.at_ofTrees trees))
  have hlist : positioned (Stream.remaining (.lookahead (.empty k.toNat) (.input (.ofTrees trees))) + 1)
      (.lookahead (.empty k.toNat) (.input (.ofTrees trees))) =
      (flatten trees).mapIdx fun n t => (Cursor.position ⟨flatten trees, n⟩, t) := by
    rw [positioned_eq hs, hs.remaining_eq]
    simp only [List.drop_zero, Nat.sub_zero, Nat.zero_add, List.take_of_length_le (Nat.le_succ _)]
  rw [tokenLines, hw]
  show Except.ok _ = _
  rw [hlist, List.length_mapIdx]
  congr 2
  exact List.ext_getElem (by simp) (by simp)

theorem trailingLine_fst {i : Input} {tokens : List Token} {n : Nat} (h : i.At ⟨tokens, n⟩)
    (limit : Int) :
    (trailingLine i limit).1 =
      (Leftover.ofTokens? limit (tokens.drop n)).elim (.ok nothingLeft)
        (·.print.map Leftover.announce) := by
  have hsource : (Leftover.ofSource? limit i).1 = Leftover.ofTokens? limit (tokens.drop n) :=
    congrArg (Leftover.ofTokens? limit) h.drain
  rw [trailingLine, hsource]
  cases Leftover.ofTokens? limit (tokens.drop n) with
  | none => rfl
  | some l => rfl

/-! ### The end of a run -/

section

variable {o : Options} {entry : Entry} {trees : List TokenTree}

theorem skipped (trees : List TokenTree) (skip : Nat) :
    Stream.Reachable trees (.input (TokenSource.take skip (Input.ofTrees trees)).2) ∧
      (TokenSource.take skip (Input.ofTrees trees)).2.At
        ⟨flatten trees, min skip (flatten trees).length⟩ := by
  have hplace := Cursor.take_at Input.At.next skip (Input.at_ofTrees trees) (Nat.zero_le _)
  rw [Nat.zero_add] at hplace
  exact ⟨Stream.Reachable.ofTrees.take skip, hplace⟩

theorem isEmpty_skipped (trees : List TokenTree) (skip : Nat) :
    (TokenSource.take skip (Input.ofTrees trees)).2.isEmpty = true ↔
      (flatten trees).length ≤ skip := by
  rw [(skipped trees skip).2.isEmpty_eq, beq_iff_eq]
  show min skip (flatten trees).length = (flatten trees).length ↔ _
  omega

/-- What the options ask of a run on an entry, of its exit status and of its lines. -/
inductive Options.Ends (o : Options) (entry : Entry) : Report → Prop
  | crashed {c : Crash} (h : o.Breaks entry c) (lines log : List String) :
    o.Ends entry (.crashed c lines log)
  | failure {shown : List String} (h : o.Fails entry shown) (message : String)
    (more log : List String) : o.Ends entry (.failure (shown ++ ("Error: " ++ message) :: more) log)
  | success {trees : List TokenTree} {lines : List String}
    (htrees : entry.trees? o.source = some trees) (h : o.Reports trees lines) (log : List String) :
    o.Ends entry (.success lines log)

theorem Options.Ends.breaks {r : Report} {c : Crash} (h : o.Ends entry r) (hc : r.crash = some c) :
    o.Breaks entry c := by
  cases h with
  | crashed h => cases hc; exact h
  | failure => cases hc
  | success => cases hc

theorem Options.Ends.of_crash_eq_none {r : Report} (h : o.Ends entry r) (hnone : r.crash = none) :
    (r.exit = 0 ∧ ∃ trees lines, entry.trees? o.source = some trees ∧ o.Reports trees lines ∧
        r.output = Report.ofLines lines) ∨
      (r.exit = 1 ∧ ∃ shown message more, o.Fails entry shown ∧
        r.output = Report.ofLines (shown ++ ("Error: " ++ message) :: more)) := by
  cases h with
  | crashed => cases hnone
  | failure h message more => exact .inr ⟨rfl, _, message, more, h, rfl⟩
  | success htrees h => exact .inl ⟨rfl, _, _, htrees, h, rfl⟩

theorem reportTokens_ends (htrees : entry.trees? o.source = some trees) (htokens : o.tokens = true)
    (log : List String) : o.Ends entry (reportTokens trees o.lookahead log) := by
  match hk : o.lookahead with
  | .blank =>
    refine .crashed (.blankNumber htrees ?_) _ _
    rw [Options.needed, if_pos htokens, hk]
    exact List.mem_singleton_self _
  | .number k =>
    rcases Int.lt_or_le k 1 with hlt | hpos
    · rw [reportTokens, tokenLines_of_lt_one trees hlt]
      exact .failure (.horizonBelowOne htrees htokens hk hlt) _ _ _
    · rcases Int.lt_or_le Window.maxHorizon k with hmax | hmax
      · rw [reportTokens, tokenLines_of_tooLarge trees hmax]
        exact .crashed (.horizonTooLarge htrees htokens hk hmax) _ _
      · rw [reportTokens, tokenLines_eq trees hpos hmax]
        exact .success htrees (.tokens htokens hk hpos hmax) _

theorem reportRemainder_ends (htrees : entry.trees? o.source = some trees) (htokens : o.tokens = false)
    {skip : Int} (htrailing : o.trailing = some (.number skip)) (log : List String) :
    o.Ends entry (reportRemainder (TokenSource.take skip.toNat (Input.ofTrees trees)).2
      o.maxTrailing o.debug log) := by
  have hneeded : o.needed (flatten trees).length =
      if skip.toNat < (flatten trees).length then [o.maxTrailing] else [] := by
    rw [Options.needed, htokens, htrailing]
    rfl
  have hempty := isEmpty_skipped trees skip.toNat
  obtain ⟨hi, hplace⟩ := skipped trees skip.toNat
  generalize (TokenSource.take skip.toNat (Input.ofTrees trees)).2 = i at *
  have hreport := Options.Reports.remainder htokens htrailing hi hplace
  -- a limit is looked at only where something is left, so a blank one does no harm at the end
  match hlimit : o.maxTrailing with
  | .number limit =>
    have hline := trailingLine_fst hplace limit
    have hleftover : o.leftover? ((flatten trees).drop skip.toNat) =
        Leftover.ofTokens? limit ((flatten trees).drop skip.toNat) := by
      rw [Options.leftover?, hlimit]
    have hwanted : .blank ∉ o.needed (flatten trees).length := by
      rw [hneeded, hlimit]
      split <;> simp
    rw [← List.drop_eq_drop_min, ← hleftover] at hline
    rw [reportRemainder]
    generalize trailingLine i limit = made at hline
    obtain ⟨line, more⟩ := made
    obtain rfl : line = _ := hline
    match hl : o.leftover? ((flatten trees).drop skip.toNat) with
    | none =>
      rw [hl] at hreport
      exact .success htrees (hreport hwanted nofun) _
    | some l =>
      rw [hl] at hreport
      rw [Option.elim_some, Leftover.print_eq]
      by_cases hdigits : Text.Numeral.bound ≤ (l.total : Int) - l.limit
      · rw [if_pos hdigits]
        exact .failure (.tooManyDigits htrees htokens htrailing hi hplace hl hdigits) _ [] _
      · rw [if_neg hdigits]
        refine .success htrees (hreport hwanted ?_) _
        rintro _ ⟨⟩
        exact Int.not_le.1 hdigits
  | .blank =>
    rw [reportRemainder]
    rcases Nat.lt_or_ge skip.toNat (flatten trees).length with hlt | hge
    · rw [if_neg (mt hempty.1 (Nat.not_le.2 hlt))]
      refine .crashed (.blankNumber htrees ?_) _ _
      rw [hneeded, if_pos hlt, hlimit]
      exact List.mem_singleton_self _
    · rw [if_pos (hempty.2 hge)]
      rw [Options.leftover?, hlimit] at hreport
      refine .success htrees (hreport ?_ nofun) _
      rw [hneeded, if_neg (Nat.not_lt.2 hge)]
      exact List.not_mem_nil

theorem report_ends (htrees : entry.trees? o.source = some trees) (log : List String) :
    o.Ends entry (report o trees log) := by
  rw [report]
  cases htokens : o.tokens with
  | true => exact reportTokens_ends htrees htokens log
  | false =>
    match htrailing : o.trailing with
    | none => exact .success htrees (.trees htokens htrailing) log
    | some (.number skip) => exact reportRemainder_ends htrees htokens htrailing log
    | some .blank =>
      refine .crashed (.blankNumber htrees ?_) _ _
      rw [Options.needed, htokens, htrailing]
      exact List.mem_singleton_self _

theorem error_append {line message : String} (h : line = "Error: " ++ message) (rest : String) :
    line ++ rest = "Error: " ++ (message ++ rest) := by
  rw [h, String.append_assoc]

/-- The bytes of a file make trees, or else an error message. -/
theorem reportBytes_cases (o : Options) (bytes : List UInt8) :
    (∃ trees log, (Entry.file bytes).trees? o.source = some trees ∧
        reportBytes o bytes = report o trees log) ∨
      ((Entry.file bytes).trees? o.source = none ∧
        ∃ message more, reportBytes o bytes = .failure (("Error: " ++ message) :: more) []) := by
  simp only [Entry.trees?, reportBytes]
  match Text.decodeUtf8 bytes with
  | .error e =>
    have hwords : "Error: Cannot decode file '" = "Error: " ++ "Cannot decode file '" := rfl
    have hline := error_append (error_append (error_append hwords o.source) "': ") (decodingMessage e)
    exact .inr ⟨rfl, _, _, congrArg (fun line => Report.failure [line, _] []) hline⟩
  | .ok chars =>
    simp only [Except.toOption, Option.bind_some]
    match tokenize o.source (String.ofList (Text.unifyLineEnds chars)) with
    | .error e => exact .inr ⟨rfl, _, _, rfl⟩
    | .ok trees => exact .inl ⟨trees, _, rfl, rfl⟩

theorem reportEntry_of_trees? (htrees : entry.trees? o.source = some trees) :
    ∃ log, reportEntry o entry = report o trees log := by
  match entry, htrees with
  | .file bytes, htrees =>
    rcases reportBytes_cases o bytes with ⟨trees', log, htrees', hreport⟩ | ⟨hnone, -⟩
    · rw [htrees] at htrees'
      cases htrees'
      exact ⟨log, hreport⟩
    · rw [htrees] at hnone
      cases hnone

theorem crash_report_blank (hblank : .blank ∈ o.needed (flatten trees).length) (log : List String) :
    (report o trees log).crash = some .blankNumber := by
  rw [report]
  rw [Options.needed] at hblank
  split at hblank
  · rename_i htokens
    rw [if_pos htokens, ← List.mem_singleton.1 hblank]
    rfl
  · rename_i htokens
    rw [if_neg htokens]
    match htrailing : o.trailing, hblank with
    | some .blank, _ => rfl
    | some (.number skip), hblank =>
      dsimp only at hblank ⊢
      split at hblank
      · rename_i hlt
        have hempty := mt (isEmpty_skipped trees skip.toNat).1 (Nat.not_le.2 hlt)
        rw [← List.mem_singleton.1 hblank, reportRemainder, if_neg hempty]
        rfl
      · cases hblank

theorem Options.Breaks.crash_eq {c : Crash} (h : o.Breaks entry c) :
    (reportEntry o entry).crash = some c := by
  cases h with
  | directory => rfl
  | nameTooLong => rfl
  | notSearchable => rfl
  | readFailure => rfl
  | horizonTooLarge htrees htokens hk hmax =>
    obtain ⟨log, hreport⟩ := reportEntry_of_trees? htrees
    rw [hreport, report, if_pos htokens, hk, reportTokens, tokenLines_of_tooLarge _ hmax]
    rfl
  | blankNumber htrees hblank =>
    obtain ⟨log, hreport⟩ := reportEntry_of_trees? htrees
    rw [hreport]
    exact crash_report_blank hblank log

theorem reportEntry_ends (o : Options) (entry : Entry) : o.Ends entry (reportEntry o entry) := by
  match entry with
  | .missing =>
    have hwords : "Error: Source file '" = "Error: " ++ "Source file '" := rfl
    rw [reportEntry, error_append (error_append hwords o.source)]
    exact .failure .missing _ _ _
  | .directory => exact .crashed .directory _ _
  | .tooLong => exact .crashed .nameTooLong _ _
  | .barred => exact .crashed .notSearchable _ _
  | .unreadable =>
    have hwords : "Error: Permission denied reading '" = "Error: " ++ "Permission denied reading '" := rfl
    rw [reportEntry, error_append (error_append hwords o.source)]
    exact .failure .unreadable _ _ _
  | .faulty => exact .crashed .readFailure _ _
  | .file bytes =>
    rcases reportBytes_cases o bytes with ⟨trees, log, htrees, hreport⟩ | ⟨htrees, message, more, hreport⟩
    · rw [reportEntry, hreport]
      exact report_ends htrees log
    · rw [reportEntry, hreport]
      exact .failure (.noTrees htrees) _ _ _

end

/-- A run with arguments that are understood breaks off exactly if the source is a folder, or has a name
that no file can have, or lies below a folder that may not be searched, or fails to be read in some way
other than for want of permission; or if it makes trees and a number that is needed for the report was
left blank or is a horizon too large to be kept. Any other run comes to its end: it reports on the trees
of the source with status 0, or it prints an error line with status 1. The error is that the source is
missing, may not be read or makes no trees, or that a horizon below one was asked for; or the remainder
is shown already, and then the number of leaves to be left out has more digits than can be printed. -/
theorem run_end {args : List String} {o : Options} (h : Options.ofArguments args = .ok o)
    (lookup : String → Entry) :
    let entry := lookup o.source
    let r := run args lookup
    (∀ c, r.crash = some c ↔ o.Breaks entry c) ∧
      (r.crash = none →
        (r.exit = 0 ∧ ∃ trees lines, entry.trees? o.source = some trees ∧
            o.Reports trees lines ∧ r.output = Report.ofLines lines) ∨
          (r.exit = 1 ∧ ∃ shown message more, o.Fails entry shown ∧
            r.output = Report.ofLines (shown ++ ("Error: " ++ message) :: more))) := by
  intro entry r
  have hr : r = reportEntry o entry := by
    show run args lookup = _
    rw [run, h]
  have hends : o.Ends entry r := hr ▸ reportEntry_ends o entry
  exact ⟨fun c => ⟨hends.breaks, fun hbreaks => hr ▸ hbreaks.crash_eq⟩, hends.of_crash_eq_none⟩

/-- What is left of the text `a b` behind its first token. -/
theorem run_end_trailing :
    let args := ["--trailing", "1", "input.txt"]
    let o : Options := { source := "input.txt", trailing := some (.number 1) }
    let lookup := Folder.lookup [("input.txt", [97, 32, 98])]
    let r := run args lookup
    Options.ofArguments args = .ok o ∧ r.crash = none ∧ r.exit = 0 ∧
      (∀ c, ¬ o.Breaks (lookup o.source) c) ∧
      ∃ trees lines, (lookup o.source).trees? o.source = some trees ∧ o.Reports trees lines ∧
        r.output = Report.ofLines lines := by
  intro args o lookup r
  have h : Options.ofArguments args = .ok o := by with_unfolding_all rfl
  have hcrash : r.crash = none := by with_unfolding_all rfl
  have hexit : r.exit = 0 := by with_unfolding_all rfl
  obtain ⟨hbreaks, hend⟩ := run_end h lookup
  refine ⟨h, hcrash, hexit, fun c hc => ?_, ?_⟩
  · cases hcrash.symm.trans ((hbreaks c).2 hc)
  · rcases hend hcrash with ⟨-, hreport⟩ | ⟨hone, -⟩
    · exact hreport
    · cases hexit.symm.trans hone

/-- The name of a folder is understood as a source, and the run breaks off without a word. -/
theorem run_directory :
    let r := run ["."] (Folder.lookup [])
    Options.ofArguments ["."] = .ok { source := "." } ∧ r.crash = some .directory ∧ r.exit = 1 ∧
      r.output = "" := by
  refine ⟨?_, ?_, ?_, ?_⟩
  all_goals with_unfolding_all rfl

end Cli

end TokenParsing
