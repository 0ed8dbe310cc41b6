import TokenParsing.Proofs.Omission

/-!
# What a report shows

A report shows the first leaves that are left, as many as are asked for, each within the groups that
open among the tokens that are left, and it counts the rest (`Leftover.ofSource?_faithful`).

The groups around a leaf are told in two ways: from the trees that were handed over, by what of them
opens behind the place where the report begins (`TokenStream.leavesSince`), and from the tokens, by
keeping the groups that are open (`Token.leavesIn`). The two agree at every place
(`TokenStream.leavesSince_eq`). Since the trees of a report are determined by their tokens as far as
leaves and visible groups go, it is enough to follow the tokens of a draft
(`Leftover.Draft.leavesIn_foldl`).
-/

namespace TokenParsing

namespace Token

/-- The groups that are open behind a token, innermost first. -/
def nest (groups : List (Delimiter × Span)) : Token → List (Delimiter × Span)
  | .delim text span =>
    match Delimiter.ofText? text with
    | none => groups
    | some d => if isOpenerText text then (d, span) :: groups else groups.tail
  | _ => groups

/-- The leaves among the tokens, each with the groups that are open there, outermost first. In front of
the tokens some groups are open already, innermost first. -/
def leavesIn (groups : List (Delimiter × Span)) :
    List Token → List (Token × List (Delimiter × Span))
  | [] => []
  | t :: ts =>
    if t.isLeaf then (t, groups.reverse) :: leavesIn groups ts else leavesIn (t.nest groups) ts

variable {groups : List (Delimiter × Span)} {d : Delimiter} {opener closer : Char} {span : Span}
  {t : Token} {ts us : List Token}

@[simp]
theorem leavesIn_nil : leavesIn groups [] = [] := rfl

theorem nest_of_isLeaf (h : t.isLeaf = true) : t.nest groups = groups := by
  cases t <;> first | rfl | cases h

theorem nest_opener (hd : d.marks? = some (opener, closer)) :
    (Token.delim opener.toString span).nest groups = (d, span) :: groups := by
  cases d <;> cases hd <;> rfl

theorem nest_closer (hd : d.marks? = some (opener, closer)) :
    (Token.delim closer.toString span).nest groups = groups.tail := by
  cases d <;> cases hd <;> rfl

theorem leavesIn_cons_of_isLeaf (h : t.isLeaf = true) :
    leavesIn groups (t :: ts) = (t, groups.reverse) :: leavesIn groups ts := by
  rw [leavesIn, if_pos h]

theorem leavesIn_opener (hd : d.marks? = some (opener, closer)) :
    leavesIn groups (.delim opener.toString span :: ts) = leavesIn ((d, span) :: groups) ts := by
  rw [leavesIn, nest_opener hd]
  rfl

theorem leavesIn_closer (hd : d.marks? = some (opener, closer)) :
    leavesIn groups (.delim closer.toString span :: ts) = leavesIn groups.tail ts := by
  rw [leavesIn, nest_closer hd]
  rfl

theorem leavesIn_append :
    leavesIn groups (ts ++ us) = leavesIn groups ts ++ leavesIn (ts.foldl nest groups) us := by
  induction ts generalizing groups with
  | nil => rfl
  | cons t ts ih =>
    rw [List.cons_append, leavesIn, leavesIn, List.foldl_cons]
    split
    · rename_i h
      rw [ih, nest_of_isLeaf h, List.cons_append]
    · exact ih

theorem map_fst_leavesIn (groups : List (Delimiter × Span)) (ts : List Token) :
    (leavesIn groups ts).map (·.1) = ts.filter isLeaf := by
  induction ts generalizing groups with
  | nil => rfl
  | cons t ts ih =>
    rw [leavesIn, List.filter_cons]
    split
    · rw [List.map_cons, ih]
    · exact ih _

theorem leavesIn_eq_nil (h : ∀ t ∈ ts, t.isLeaf = false) : leavesIn groups ts = [] := by
  refine List.map_eq_nil_iff.1 ((map_fst_leavesIn groups ts).trans ?_)
  exact List.filter_eq_nil_iff.2 fun t ht => by simp [h t ht]

end Token

mutual

/-- The leaves of a tree but for its first `n` tokens, each with the visible groups around it that
open behind these tokens, outermost first. -/
def TokenTree.leavesSince (n : Nat) : TokenTree → List (Token × List (Delimiter × Span))
  | .group d trees span =>
    match d.marks?, n with
    | none, n => TokenStream.leavesSince n trees
    | some _, 0 => (TokenStream.leavesSince 0 trees).map fun l => (l.1, (d, span) :: l.2)
    | some _, n + 1 => TokenStream.leavesSince n trees
  | .ident text span => if n = 0 then [(.ident text span, [])] else []
  | .literal text span => if n = 0 then [(.literal text span, [])] else []
  | .punct c spacing span => if n = 0 then [(.punct c spacing span, [])] else []

def TokenStream.leavesSince (n : Nat) : List TokenTree → List (Token × List (Delimiter × Span))
  | [] => []
  | t :: rest => t.leavesSince n ++ TokenStream.leavesSince (n - t.flatten.length) rest

end

mutual

/-- The leaves of a whole tree, where some groups are open around it. -/
theorem TokenTree.leavesIn_flatten (groups : List (Delimiter × Span)) (more : List Token) :
    ∀ t : TokenTree, Token.leavesIn groups (t.flatten ++ more) =
      (t.leavesSince 0).map (fun l => (l.1, groups.reverse ++ l.2)) ++ Token.leavesIn groups more
  | .ident .. | .literal .. | .punct .. => by
    simp [TokenTree.flatten, TokenTree.leavesSince, Token.leavesIn, Token.isLeaf, Token.toTree?]
  | .group d trees span => by
    cases h : d.marks? with
    | none =>
      have ih := TokenStream.leavesIn_flatten groups more trees
      simpa [TokenTree.flatten, TokenTree.leavesSince, h] using ih
    | some m =>
      obtain ⟨opener, closer⟩ := m
      have ih := TokenStream.leavesIn_flatten ((d, span) :: groups)
        (.delim closer.toString span :: more) trees
      rw [Token.leavesIn_closer h] at ih
      simp only [TokenTree.flatten, TokenTree.leavesSince, h, List.cons_append, List.append_assoc,
        List.nil_append, Token.leavesIn_opener h, ih, List.map_map]
      simp

theorem TokenStream.leavesIn_flatten (groups : List (Delimiter × Span)) (more : List Token) :
    ∀ ts : List TokenTree, Token.leavesIn groups (TokenStream.flatten ts ++ more) =
      (TokenStream.leavesSince 0 ts).map (fun l => (l.1, groups.reverse ++ l.2)) ++
        Token.leavesIn groups more
  | [] => by simp [TokenStream.leavesSince]
  | t :: ts => by
    rw [TokenStream.flatten_cons, List.append_assoc, TokenTree.leavesIn_flatten,
      TokenStream.leavesIn_flatten, TokenStream.leavesSince, Nat.zero_sub, List.map_append,
      List.append_assoc]

end

mutual

theorem TokenTree.leavesIn_drop (n : Nat) (more : List Token) :
    ∀ t : TokenTree, Token.leavesIn [] (t.flatten.drop n ++ more) =
      t.leavesSince n ++ Token.leavesIn [] more
  | .ident .. | .literal .. | .punct .. => by
    cases n <;> simp [TokenTree.flatten, TokenTree.leavesSince, Token.leavesIn, Token.isLeaf,
      Token.toTree?]
  | .group d trees span => by
    cases h : d.marks? with
    | none =>
      have ih := TokenStream.leavesIn_drop n more trees
      simpa [TokenTree.flatten, TokenTree.leavesSince, h] using ih
    | some m =>
      obtain ⟨opener, closer⟩ := m
      rcases n with _ | n
      · simpa using TokenTree.leavesIn_flatten [] more (.group d trees span)
      · -- The group is open already, so its closing delimiter closes nothing.
        have ih := TokenStream.leavesIn_drop n
          ([Token.delim closer.toString span].drop (n - (TokenStream.flatten trees).length) ++ more)
          trees
        simp only [TokenTree.flatten, TokenTree.leavesSince, h, List.drop_succ_cons,
          List.drop_append, List.append_assoc, ih]
        rcases n - (TokenStream.flatten trees).length with _ | k
        · rw [List.drop_zero, List.singleton_append, Token.leavesIn_closer h]
          rfl
        · simp

theorem TokenStream.leavesIn_drop (n : Nat) (more : List Token) :
    ∀ ts : List TokenTree, Token.leavesIn [] ((TokenStream.flatten ts).drop n ++ more) =
      TokenStream.leavesSince n ts ++ Token.leavesIn [] more
  | [] => by simp [TokenStream.leavesSince]
  | t :: ts => by
    rw [TokenStream.flatten_cons, List.drop_append, List.append_assoc, TokenTree.leavesIn_drop,
      TokenStream.leavesIn_drop, TokenStream.leavesSince, List.append_assoc]

end

/-- The groups around a leaf can be told from the tokens alone. -/
theorem TokenStream.leavesSince_eq (n : Nat) (trees : List TokenTree) :
    leavesSince n trees = Token.leavesIn [] ((flatten trees).drop n) := by
  have h := TokenStream.leavesIn_drop n [] trees
  simpa using h.symm

namespace Stream.At

variable {s : Stream} {tokens : List Token} {n : Nat}

theorem take (h : s.At ⟨tokens, n⟩) (count : Nat) :
    (TokenSource.take count s).2.At ⟨tokens, min (n + count) tokens.length⟩ :=
  Cursor.take_at Stream.At.next count h h.index_le

theorem isEmpty_drain (h : s.At ⟨tokens, n⟩) : (TokenSource.drain s).2.isEmpty = true := by
  have hplace := h.take (s.remaining + 1)
  have hremaining : s.remaining = tokens.length - n := h.remaining_eq
  rw [Nat.min_eq_right (by omega)] at hplace
  exact hplace.isEmpty_eq.trans (beq_self_eq_true _)

end Stream.At

namespace Leftover

namespace Draft

variable {d : Draft} {limit : Int} {ts : List Token}

/-- The groups that are open behind what a draft shows are those it holds open. -/
def Nested (d : Draft) : Prop := d.seen.foldl Token.nest [] = d.groups

theorem Nested.leavesIn_finish (hd : d.Nested) :
    Token.leavesIn [] (TokenStream.flatten d.finish) = Token.leavesIn [] d.seen := by
  have hclosing : Token.leavesIn d.groups (d.groups.flatMap closing) = [] := by
    refine Token.leavesIn_eq_nil fun t ht => ?_
    obtain ⟨group, -, ht⟩ := List.mem_flatMap.1 ht
    exact (of_mem_closing ht).1
  rw [flatten_finish, Token.leavesIn_append, hd, hclosing, List.append_nil]

theorem Nested.snoc {d' : Draft} {t : Token} (hd : d.Nested) (hseen : d'.seen = d.seen ++ [t])
    (hgroups : d'.groups = t.nest d.groups) :
    d'.Nested ∧ Token.leavesIn [] (TokenStream.flatten d'.finish) =
      Token.leavesIn [] (TokenStream.flatten d.finish) ++ Token.leavesIn d.groups [t] := by
  have hd' : d'.Nested := by
    rw [Nested, hseen, List.foldl_append, hd, hgroups]
    rfl
  refine ⟨hd', ?_⟩
  rw [hd'.leavesIn_finish, hd.leavesIn_finish, hseen, Token.leavesIn_append, hd]

theorem leavesIn_foldl_of_le (hle : limit ≤ d.total) (groups : List (Delimiter × Span)) :
    Token.leavesIn [] (TokenStream.flatten (ts.foldl (add limit) d).finish) =
      Token.leavesIn [] (TokenStream.flatten d.finish) ++
        (Token.leavesIn groups ts).take (limit - d.total).toNat := by
  rw [finish_foldl_of_le hle, Int.toNat_of_nonpos (by omega), List.take_zero, List.append_nil]

/-- Behind the leaves that a draft shows come the next ones, as many as there is room for. -/
theorem leavesIn_foldl {groups : List (Delimiter × Span)} (h : Token.Closes groups ts)
    (hgroups : d.groups = groups) (hd : d.Nested) :
    Token.leavesIn [] (TokenStream.flatten (ts.foldl (add limit) d).finish) =
      Token.leavesIn [] (TokenStream.flatten d.finish) ++
        (Token.leavesIn groups ts).take (limit - d.total).toNat := by
  -- along the tokens: a draft shows all it has seen while there is room, and nothing more from then on
  induction h generalizing d with
  | nil => simp
  | @leaf groups t ts ht h ih =>
    rcases Int.lt_or_le d.total limit with hlt | hle
    · cases takes_add limit d t with
      | kept _ _ htotal hgroups' hseen =>
        obtain ⟨hd', hshown⟩ := hd.snoc hseen (by rw [hgroups', Token.nest_of_isLeaf ht])
        have hroom : (limit - d.total).toNat = (limit - (d.add limit t).total).toNat + 1 := by
          omega
        rw [List.foldl_cons, ih (hgroups'.trans hgroups) hd', hshown, hroom, hgroups,
          Token.leavesIn_cons_of_isLeaf ht, Token.leavesIn_cons_of_isLeaf ht, List.take_succ_cons]
        simp
      | counted _ hle => omega
      | opened _ hopen => simp [Token.opens_of_isLeaf ht] at hopen
      | passed hleaf => simp [ht] at hleaf
    · exact leavesIn_foldl_of_le hle groups
  | @opener groups kind opener closer span ts hkind h ih =>
    rcases Int.lt_or_le d.total limit with hlt | hle
    · have hseen : (d.push kind span).seen = d.seen ++ [.delim opener.toString span] := by
        rw [seen_push, opening, hkind]
      obtain ⟨hd', hshown⟩ := hd.snoc hseen (by rw [groups_push, Token.nest_opener hkind])
      rw [List.foldl_cons, add_opener span hkind hlt, ih (by rw [groups_push, hgroups]) hd', hshown,
        Token.leavesIn_opener hkind, Token.leavesIn_opener hkind, Token.leavesIn_nil,
        List.append_nil]
      rfl
    · exact leavesIn_foldl_of_le hle groups
  | @closer groups kind opener closer span ts hkind h ih =>
    rcases Int.lt_or_le d.total limit with hlt | hle
    · obtain ⟨hgroups', htotal, hseen⟩ := add_closer hkind hgroups hlt
      obtain ⟨hd', hshown⟩ := hd.snoc hseen
        (by rw [hgroups', hgroups, Token.nest_closer hkind, List.tail_cons])
      rw [List.foldl_cons, ih hgroups' hd', hshown, htotal, Token.leavesIn_closer hkind,
        Token.leavesIn_closer hkind, Token.leavesIn_nil, List.append_nil, List.tail_cons]
    · exact leavesIn_foldl_of_le hle _
  | @unopened kind opener closer span ts hkind h ih =>
    rw [List.foldl_cons, add_unopened span hkind hgroups, ih hgroups hd,
      Token.leavesIn_closer hkind, List.tail_nil]

end Draft

/-- A text in front of a mark that tells how many leaves it does not show, if there are any. -/
def marked (shown : String) (more : Nat) : String :=
  let mark := "[and " ++ toString more ++ " more ...]"
  if more = 0 then shown else if shown.isEmpty then mark else shown ++ " " ++ mark

theorem render_eq_marked {l : Leftover} (hlimit : 0 ≤ l.limit) :
    l.render = marked (TokenStream.render l.trees) (l.total - l.limit.toNat) := by
  rcases Int.lt_or_le l.limit l.total with hlt | hle
  · have hcut : l.isCut = true := by simpa [isCut] using hlt
    have hmore : ((l.total - l.limit.toNat : Nat) : Int) = l.total - l.limit := by omega
    have hne : l.total - l.limit.toNat ≠ 0 := by omega
    simp only [render, marked, hcut, if_true, if_neg hne, ← hmore]
    rfl
  · have hcut : l.isCut = false := by simpa [isCut] using hle
    have hzero : l.total - l.limit.toNat = 0 := by omega
    simp [render, marked, hcut, hzero]

theorem ofTokens?_cases (limit : Int) (tokens : List Token) :
    let d := tokens.foldl (Draft.add limit) {}
    (ofTokens? limit tokens = none ∧ d.finish = [] ∧ d.total = 0) ∨
      ofTokens? limit tokens = some ⟨d.finish, d.total, limit⟩ := by
  intro d
  simp only [ofTokens?]
  split
  · rename_i h
    rw [Bool.and_eq_true, List.isEmpty_iff, beq_iff_eq] at h
    exact .inl ⟨rfl, h⟩
  · exact .inr rfl

/-- A report reads its source to the end. It counts the leaves that are left and shows the first of
them, as many as are asked for, each in the groups around it that open among what is left; a mark tells
how many are not shown. There is no report only if no leaf is left. -/
theorem ofSource?_faithful {trees : List TokenTree} {limit : Int} {s : Stream}
    (hs : s.Reachable trees) (hlimit : 0 ≤ limit) :
    let n := s.position.ordinal.toNat
    let left := TokenStream.leavesSince n trees
    left.map (·.1) = ((TokenStream.flatten trees).drop n).filter Token.isLeaf ∧
      (ofSource? limit s).2.isEmpty = true ∧
      match (ofSource? limit s).1 with
      | none => left = []
      | some l =>
        l.total = left.length ∧
          TokenStream.leavesSince 0 l.trees = left.take limit.toNat ∧
          ∃ more, l.render = marked (TokenStream.render l.trees) more ∧
            (TokenStream.leavesSince 0 l.trees).length + more = l.total := by
  obtain ⟨⟨_, n⟩, rfl, hplace⟩ := hs.exists_at
  have hn : s.position.ordinal.toNat = n := by
    rw [hplace.position_eq]
    rfl
  have hreport : (ofSource? limit s).1 = ofTokens? limit ((TokenStream.flatten trees).drop n) := by
    show ofTokens? limit (TokenSource.drain s).1 = _
    rw [hplace.drain]
  have hcloses := TokenStream.closes_drop trees hplace.index_le
  have hend : (ofSource? limit s).2.isEmpty = true := hplace.isEmpty_drain
  simp only [hn, hreport, TokenStream.leavesSince_eq, Token.map_fst_leavesIn, hend, List.drop_zero,
    true_and]
  -- from here on only the tokens that are left count, and that they close what they open
  generalize (TokenStream.flatten trees).drop n = rest at hcloses ⊢
  have hlength : (Token.leavesIn [] rest).length = rest.countP Token.isLeaf := by
    rw [← List.length_map (·.1), Token.map_fst_leavesIn, List.countP_eq_length_filter]
  have htotal : (rest.foldl (Draft.add limit) {}).total = (Token.leavesIn [] rest).length := by
    rw [Draft.total_foldl, hlength, Nat.zero_add]
  have hshown : Token.leavesIn [] (TokenStream.flatten (rest.foldl (Draft.add limit) {}).finish) =
      (Token.leavesIn [] rest).take limit.toNat := by
    have hfold : Token.leavesIn [] (TokenStream.flatten (rest.foldl (Draft.add limit) {}).finish) =
        _ := Draft.leavesIn_foldl hcloses rfl rfl
    rwa [Int.natCast_zero, Int.sub_zero] at hfold
  rcases ofTokens?_cases limit rest with ⟨hnone, -, hzero⟩ | hsome
  · rw [hnone]
    exact List.length_eq_zero_iff.1 (htotal.symm.trans hzero)
  · rw [hsome]
    refine ⟨htotal, hshown, _, render_eq_marked hlimit, ?_⟩
    rw [hshown, List.length_take]
    dsimp only
    omega

/-- In `a ( b { c [ d e ] } ) f`, behind `a ( b` and a window: of four leaves two are shown, the first
within the braces and the second within the braces and the brackets. The parentheses are open before. -/
theorem ofSource?_faithful_cut :
    let group (d : Delimiter) (ts : List TokenTree) : TokenTree := .group d ts .callSite
    let trees := [.ident "a" .callSite, group .parenthesis [.ident "b" .callSite, group .brace
      [.ident "c" .callSite, group .bracket [.ident "d" .callSite, .ident "e" .callSite]]],
      .ident "f" .callSite]
    let s := (Stream.lookahead (.empty 1) (.input (.ofTrees trees))).next.2.next.2.next.2
    ∃ l, (ofSource? 2 s).1 = some l ∧ l.total = 4 ∧
      TokenStream.leavesSince 0 l.trees =
        [(.ident "c" .callSite, [(.brace, .callSite)]),
          (.ident "d" .callSite, [(.brace, .callSite), (.bracket, .callSite)])] ∧
      l.render = marked (TokenStream.render l.trees) 2 := by
  intro group trees s
  have hs : s.Reachable trees :=
    Stream.Reachable.next (.next (.next (.lookahead (by decide) .ofTrees)))
  have hplace : s.position.ordinal.toNat = 3 := by decide +kernel
  obtain ⟨l, hl⟩ : ∃ l, (ofSource? 2 s).1 = some l :=
    Option.isSome_iff_exists.1 (by decide +kernel)
  obtain ⟨-, -, hreport⟩ := ofSource?_faithful hs (show (0 : Int) ≤ 2 by decide)
  rw [hl, hplace] at hreport
  obtain ⟨htotal, hshown, more, hrender, hmore⟩ := hreport
  have hleft : (TokenStream.leavesSince 3 trees).length = 4 := by decide +kernel
  rw [hshown, htotal, hleft] at hmore
  rw [hleft] at htotal
  obtain rfl : more = 2 := by
    have htwo : ((TokenStream.leavesSince 3 trees).take (2 : Int).toNat).length = 2 := by
      decide +kernel
    omega
  refine ⟨l, hl, htotal, hshown.trans (by decide +kernel), hrender⟩

end Leftover

end TokenParsing
