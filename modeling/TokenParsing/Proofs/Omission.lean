import TokenParsing.Leftover
import TokenParsing.Proofs.Rebuilding

/-!
# What a report leaves out

A report that does not say that leaves are missing shows all of them, but it need not show all of the
groups. A group that opens behind as many leaves as are kept is left out, delimiters and all, also
where no leaf follows and the report is not marked as cut. The report shows all that is left exactly
if no group opens so late (`Leftover.ofSource?_complete_iff`), and for an empty group it may be nothing
(`Leftover.ofSource?_incomplete`).

What a draft shows is told in two parts (`Leftover.Draft.flatten_finish`): what it has seen, and the
closing delimiters that it owes for its open groups. As long as leaves are kept, each token goes from
the tokens to the first part, or from the second to the first if it closes a group. The tokens left by
a reader are nested well enough for that (`Token.Closes`).
-/

namespace TokenParsing

namespace Delimiter

variable {d : Delimiter} {opener closer : Char}

theorem ofText?_closer (h : d.marks? = some (opener, closer)) : ofText? closer.toString = some d := by
  cases d <;> cases h <;> rfl

theorem isOpenerText_closer (h : d.marks? = some (opener, closer)) :
    Token.isOpenerText closer.toString = false := by
  cases d <;> cases h <;> rfl

end Delimiter

namespace Token

/-- The token is a tree by itself. -/
def isLeaf (t : Token) : Bool := t.toTree?.isSome

/-- The tokens close the open groups, innermost first, and in between they open and close others. Where
no group is open there may be closing delimiters of earlier ones. -/
inductive Closes : List (Delimiter × Span) → List Token → Prop
  | nil : Closes [] []
  | leaf {groups : List (Delimiter × Span)} {t : Token} {ts : List Token} (ht : t.isLeaf = true)
    (h : Closes groups ts) : Closes groups (t :: ts)
  | opener {groups : List (Delimiter × Span)} {d : Delimiter} {opener closer : Char} {span : Span}
    {ts : List Token} (hd : d.marks? = some (opener, closer)) (h : Closes ((d, span) :: groups) ts) :
    Closes groups (.delim opener.toString span :: ts)
  | closer {groups : List (Delimiter × Span)} {d : Delimiter} {opener closer : Char} {span : Span}
    {ts : List Token} (hd : d.marks? = some (opener, closer)) (h : Closes groups ts) :
    Closes ((d, span) :: groups) (.delim closer.toString span :: ts)
  | unopened {d : Delimiter} {opener closer : Char} {span : Span} {ts : List Token}
    (hd : d.marks? = some (opener, closer)) (h : Closes [] ts) :
    Closes [] (.delim closer.toString span :: ts)

/-- The tokens but for those that close a group which did not open among them. Before the first of
them `depth` groups are open. -/
def paired (depth : Nat) (ts : List Token) : List Token :=
  ((ts.zip (unopened depth ts)).filter (!·.2)).map (·.1)

variable {d : Delimiter} {opener closer : Char} {span : Span} {t : Token} {ts : List Token}
  {depth : Nat}

theorem opens_of_isLeaf (h : t.isLeaf = true) : t.opens = false := by
  cases t <;> first | rfl | cases h

theorem closes_of_isLeaf (h : t.isLeaf = true) : t.closes = false := by
  cases t <;> first | rfl | cases h

theorem paired_cons_of_opens (h : t.opens = true) :
    paired depth (t :: ts) = t :: paired (depth + 1) ts := by
  simp [paired, unopened, h]

theorem paired_cons_of_isLeaf (h : t.isLeaf = true) :
    paired depth (t :: ts) = t :: paired depth ts := by
  simp [paired, unopened, opens_of_isLeaf h, closes_of_isLeaf h]

theorem paired_opener (hd : d.marks? = some (opener, closer)) :
    paired depth (.delim opener.toString span :: ts) =
      .delim opener.toString span :: paired (depth + 1) ts :=
  paired_cons_of_opens (d.opens_opener hd span)

theorem paired_closer (hd : d.marks? = some (opener, closer)) :
    paired (depth + 1) (.delim closer.toString span :: ts) =
      .delim closer.toString span :: paired depth ts := by
  rw [paired, unopened_closer hd]
  rfl

theorem paired_unopened (hd : d.marks? = some (opener, closer)) :
    paired 0 (.delim closer.toString span :: ts) = paired 0 ts := by
  rw [paired, unopened_closer hd]
  rfl

theorem countP_opens_paired (depth : Nat) (ts : List Token) :
    (paired depth ts).countP opens = ts.countP opens := by
  induction ts generalizing depth with
  | nil => rfl
  | cons t ts ih =>
    by_cases hopens : t.opens = true
    · rw [paired_cons_of_opens hopens, List.countP_cons, List.countP_cons, ih]
    · rw [List.countP_cons_of_neg hopens]
      by_cases hcloses : t.closes = true
      · have hpaired : (paired depth (t :: ts)).countP opens =
            (paired (depth - 1) ts).countP opens := by
          cases depth <;> simp [paired, unopened, hopens, hcloses]
        rw [hpaired, ih]
      · have hpaired : paired depth (t :: ts) = t :: paired depth ts := by
          simp [paired, unopened, hopens, hcloses]
        rw [hpaired, List.countP_cons_of_neg hopens, ih]

/-- Each group opens behind fewer leaves than the limit, `count` of which are in front of the tokens. -/
def OpensBefore (limit : Int) (count : Nat) (ts : List Token) : Prop :=
  ∀ front t back, ts = front ++ t :: back → t.opens = true → count + front.countP isLeaf < limit

section

variable {limit : Int} {count : Nat}

theorem opensBefore_nil : OpensBefore limit count [] := fun front t back h => by simp at h

theorem opensBefore_cons :
    OpensBefore limit count (t :: ts) ↔
      (t.opens = true → count < limit) ∧
        OpensBefore limit (count + if t.isLeaf then 1 else 0) ts := by
  constructor
  · intro h
    refine ⟨fun ht => by simpa using h [] t ts rfl ht, fun front u back hts hu => ?_⟩
    have hlt := h (t :: front) u back (by rw [hts, List.cons_append]) hu
    rw [List.countP_cons] at hlt
    push_cast at hlt ⊢
    omega
  · rintro ⟨hhead, htail⟩ front u back hts hu
    cases front with
    | nil =>
      cases hts
      simpa using hhead hu
    | cons t' front =>
      cases hts
      have hlt := htail front u back rfl hu
      rw [List.countP_cons]
      push_cast at hlt ⊢
      omega

instance OpensBefore.decidable (limit : Int) :
    ∀ (count : Nat) (ts : List Token), Decidable (OpensBefore limit count ts)
  | _, [] => isTrue opensBefore_nil
  | count, t :: ts =>
    have := OpensBefore.decidable limit (count + if t.isLeaf then 1 else 0) ts
    decidable_of_iff _ opensBefore_cons.symm

theorem OpensBefore.opens_eq_false (h : OpensBefore limit count ts) (hle : limit ≤ count)
    (ht : t ∈ ts) : t.opens = false := by
  obtain ⟨front, back, hts⟩ := List.append_of_mem ht
  by_contra hopens
  have hlt := h front t back hts (by simpa using hopens)
  omega

end

end Token

mutual

theorem TokenTree.closes_flatten {groups : List (Delimiter × Span)} {more : List Token}
    (h : Token.Closes groups more) : ∀ t : TokenTree, Token.Closes groups (t.flatten ++ more)
  | .ident .. | .literal .. | .punct .. => .leaf rfl h
  | .group d trees span => by
    cases hd : d.marks? with
    | none =>
      have ih := TokenStream.closes_flatten h trees
      simpa [TokenTree.flatten, hd] using ih
    | some m =>
      obtain ⟨opener, closer⟩ := m
      have hcloser : Token.Closes ((d, span) :: groups) (.delim closer.toString span :: more) :=
        .closer hd h
      have ih := TokenStream.closes_flatten hcloser trees
      simpa [TokenTree.flatten, hd] using Token.Closes.opener hd ih

theorem TokenStream.closes_flatten {groups : List (Delimiter × Span)} {more : List Token}
    (h : Token.Closes groups more) :
    ∀ ts : List TokenTree, Token.Closes groups (TokenStream.flatten ts ++ more)
  | [] => by simpa using h
  | t :: ts => by
    have ih := TokenTree.closes_flatten (TokenStream.closes_flatten h ts) t
    simpa using ih

end

theorem Level.Proper.closes {levels : List Level} (h : Level.Proper levels) :
    Token.Closes [] (levels.flatMap Level.tokens) := by
  induction levels with
  | nil => exact .nil
  | cons l outer ih =>
    obtain ⟨e, rest⟩ := l
    have houter := ih h.tail
    rw [List.flatMap_cons, Level.tokens, List.append_assoc]
    refine TokenStream.closes_flatten ?_ rest
    cases e with
    | outermost => exact houter
    | invisible span => exact houter
    | visible closer span =>
      obtain ⟨d, opener, hd⟩ := h ⟨.visible closer span, rest⟩ (List.mem_cons_self ..)
      exact .unopened hd houter

namespace TokenStream

/-- The tokens of some trees from the `n`-th on, but for the closing delimiters of groups that open in
front of it. -/
def since (trees : List TokenTree) (n : Nat) : List Token :=
  ((((flatten trees).zip (openings 0 trees)).drop n).filter (!·.2.any (· < n))).map (·.1)

theorem since_eq_paired (trees : List TokenTree) (n : Nat) :
    since trees n = Token.paired 0 ((flatten trees).drop n) := by
  have hscan := TokenStream.unopened_drop 0 n [] trees
  rw [List.append_nil, Token.unopened, List.append_nil, Nat.zero_add] at hscan
  rw [Token.paired, hscan, since, List.zip, List.drop_zipWith, ← List.zip, List.zip_map_right,
    List.filter_map, List.map_map]
  rfl

/-- What is left of some trees closes no group that opened in it otherwise than it opened. -/
theorem closes_drop (trees : List TokenTree) {n : Nat} (hn : n ≤ (flatten trees).length) :
    Token.Closes [] ((flatten trees).drop n) := by
  obtain ⟨i, hi, hplace⟩ := Stream.exists_input_at trees hn
  have hproper : Level.Proper i.levels :=
    hi.input_rec (P := fun i => Level.Proper i.levels) (Input.proper_ofTrees trees)
      Input.proper_next
  rw [← hplace.tokens_eq]
  exact hproper.closes

end TokenStream

namespace Leftover

/-- The delimiter in front of a group. -/
def opening (group : Delimiter × Span) : List Token :=
  match group.1.marks? with
  | some (opener, _) => [.delim opener.toString group.2]
  | none => []

/-- The delimiter that is owed for an open group. -/
def closing (group : Delimiter × Span) : List Token :=
  match group.1.marks? with
  | some (_, closer) => [.delim closer.toString group.2]
  | none => []

theorem flatten_group (d : Delimiter) (trees : List TokenTree) (span : Span) :
    (TokenTree.group d trees span).flatten =
      opening (d, span) ++ TokenStream.flatten trees ++ closing (d, span) := by
  rw [TokenTree.flatten, opening, closing]
  cases d.marks? <;> simp

def Opened.group (o : Opened) : Delimiter × Span := (o.delimiter, o.span)

/-- The tokens of an open group up to where the next one opens. -/
def Opened.tokens (o : Opened) : List Token :=
  TokenStream.flatten o.before.reverse ++ opening o.group

namespace Draft

/-- The tokens that are shown so far. -/
def seen (d : Draft) : List Token :=
  d.opened.reverse.flatMap Opened.tokens ++ TokenStream.flatten d.trees.reverse

def groups (d : Draft) : List (Delimiter × Span) := d.opened.map Opened.group

variable {d : Draft} {limit : Int} {t : Token} {ts : List Token}

theorem flatten_unwind (trees : List TokenTree) (opened : List Opened) :
    TokenStream.flatten (unwind trees opened).reverse =
      opened.reverse.flatMap Opened.tokens ++ TokenStream.flatten trees.reverse ++
        (opened.map Opened.group).flatMap closing := by
  induction opened generalizing trees with
  | nil => simp [unwind]
  | cons o outer ih =>
    rw [unwind, ih]
    simp [flatten_group, Opened.tokens, Opened.group]

/-- The report shows what was seen, and closes what is open. -/
theorem flatten_finish (d : Draft) :
    TokenStream.flatten d.finish = d.seen ++ d.groups.flatMap closing :=
  flatten_unwind d.trees d.opened

/-! ### One token -/

/-- The draft with one more open group. -/
def push (d : Draft) (kind : Delimiter) (span : Span) : Draft :=
  { d with opened := ⟨kind, span, d.trees⟩ :: d.opened, trees := [] }

theorem seen_push (d : Draft) (kind : Delimiter) (span : Span) :
    (d.push kind span).seen = d.seen ++ opening (kind, span) := by
  simp [push, seen, Opened.tokens, Opened.group]

theorem groups_push (d : Draft) (kind : Delimiter) (span : Span) :
    (d.push kind span).groups = (kind, span) :: d.groups := rfl

/-- What a draft makes of a token: it shows it, or only counts it; it opens a group; or what it shows
stays as it is. -/
inductive Takes (limit : Int) (d : Draft) (t : Token) (d' : Draft) : Prop
  | kept (ht : t.isLeaf = true) (hlt : d.total < limit) (htotal : d'.total = d.total + 1)
    (hgroups : d'.groups = d.groups) (hseen : d'.seen = d.seen ++ [t])
  | counted (ht : t.isLeaf = true) (hle : limit ≤ d.total) (htotal : d'.total = d.total + 1)
    (hfinish : d'.finish = d.finish)
  | opened (group : Delimiter × Span) (ht : t.opens = true) (hlt : d.total < limit)
    (htotal : d'.total = d.total) (hgroups : d'.groups = group :: d.groups)
    (hseen : d'.seen = d.seen ++ opening group)
  | passed (ht : t.isLeaf = false) (htotal : d'.total = d.total) (hfinish : d'.finish = d.finish)

theorem takes_leaf (ht : t.isLeaf = true) {tree : TokenTree} (htree : tree.flatten = [t]) :
    Takes limit d t (d.leaf limit tree) := by
  simp only [leaf]
  split
  · rename_i hle
    exact .kept ht (by omega) rfl rfl (by simp [seen, htree])
  · rename_i hle
    exact .counted ht (by omega) rfl rfl

theorem takes_delim (text : String) (span : Span) (hlt : d.total < limit) :
    Takes limit d (.delim text span) (d.delim text span) := by
  unfold delim
  split
  · exact .passed rfl rfl rfl
  · rename_i kind hkind
    split
    · rename_i hopener
      exact .opened (kind, span) (by simp [Token.opens, hkind, hopener]) hlt rfl
        (d.groups_push kind span) (d.seen_push kind span)
    · split
      · rename_i o outer hopened
        split
        · exact .passed rfl rfl (by rw [close, finish, finish, hopened, unwind])
        · exact .passed rfl rfl rfl
      · exact .passed rfl rfl rfl

theorem takes_add (limit : Int) (d : Draft) (t : Token) : Takes limit d t (d.add limit t) := by
  cases t with
  | delim text span =>
    rw [add]
    split
    · exact .passed rfl rfl rfl
    · exact takes_delim text span (by omega)
  | _ => exact takes_leaf rfl (by rw [TokenTree.flatten])

theorem add_opener {kind : Delimiter} {opener closer : Char} (span : Span)
    (hkind : kind.marks? = some (opener, closer)) (hlt : d.total < limit) :
    d.add limit (.delim opener.toString span) = d.push kind span := by
  rw [add, if_neg (by omega)]
  cases kind <;> cases hkind <;> rfl

theorem add_closer {kind : Delimiter} {opener closer : Char} {span : Span}
    {groups : List (Delimiter × Span)} (hkind : kind.marks? = some (opener, closer))
    (hgroups : d.groups = (kind, span) :: groups) (hlt : d.total < limit) :
    (d.add limit (.delim closer.toString span)).groups = groups ∧
      (d.add limit (.delim closer.toString span)).total = d.total ∧
      (d.add limit (.delim closer.toString span)).seen = d.seen ++ [.delim closer.toString span] := by
  obtain ⟨opened, trees, total⟩ := d
  obtain ⟨o, outer, rfl, ho, rfl⟩ := List.map_eq_cons_iff.1 hgroups
  obtain ⟨rfl, rfl⟩ : o.delimiter = kind ∧ o.span = span := Prod.mk.inj ho
  have hadd : add limit ⟨o :: outer, trees, total⟩ (.delim closer.toString o.span) =
      close o outer ⟨o :: outer, trees, total⟩ := by
    rw [add, if_neg (by simpa using hlt)]
    simp only [delim, Delimiter.ofText?_closer hkind, Delimiter.isOpenerText_closer hkind,
      Bool.false_eq_true, if_false, if_true]
  rw [hadd]
  refine ⟨rfl, rfl, ?_⟩
  simp [close, seen, flatten_group, Opened.tokens, Opened.group, closing, hkind]

theorem add_unopened {kind : Delimiter} {opener closer : Char} (span : Span)
    (hkind : kind.marks? = some (opener, closer)) (hgroups : d.groups = []) :
    d.add limit (.delim closer.toString span) = d := by
  have hopened : d.opened = [] := List.map_eq_nil_iff.1 hgroups
  rw [add]
  split
  · rfl
  · rw [delim, hopened]
    cases kind <;> cases hkind <;> rfl

/-! ### All tokens -/

theorem isLeaf_of_mem_opening {group : Delimiter × Span} (ht : t ∈ opening group) :
    t.isLeaf = false := by
  unfold opening at ht
  split at ht
  · rw [List.mem_singleton.1 ht]
    rfl
  · cases ht

theorem of_mem_closing {group : Delimiter × Span} (ht : t ∈ closing group) :
    t.isLeaf = false ∧ t.opens = false := by
  unfold closing at ht
  split at ht
  · rename_i hkind
    rw [List.mem_singleton.1 ht]
    exact ⟨rfl, Delimiter.opens_closer hkind _⟩
  · cases ht

theorem length_opening_le (group : Delimiter × Span) : (opening group).length ≤ 1 := by
  unfold opening
  split <;> simp

theorem total_foldl (limit : Int) (d : Draft) (ts : List Token) :
    (ts.foldl (add limit) d).total = d.total + ts.countP Token.isLeaf := by
  induction ts generalizing d with
  | nil => rfl
  | cons t ts ih =>
    rw [List.foldl_cons, ih, List.countP_cons]
    cases takes_add limit d t with
    | kept ht _ htotal | counted ht _ htotal =>
      rw [htotal, if_pos ht]
      omega
    | opened _ ht _ htotal =>
      have hleaf : ¬t.isLeaf = true := fun h => by simp [Token.opens_of_isLeaf h] at ht
      rw [htotal, if_neg hleaf]
      omega
    | passed ht htotal =>
      rw [htotal, if_neg (by simp [ht])]
      omega

theorem finish_foldl_of_le (hle : limit ≤ d.total) (ts : List Token) :
    (ts.foldl (add limit) d).finish = d.finish := by
  induction ts generalizing d with
  | nil => rfl
  | cons t ts ih =>
    rw [List.foldl_cons]
    cases takes_add limit d t with
    | kept _ hlt => omega
    | opened _ _ hlt => omega
    | counted _ _ htotal hfinish => rw [ih (by omega), hfinish]
    | passed _ htotal hfinish => rw [ih (by omega), hfinish]

/-- At most as many groups are shown as open. -/
theorem countP_opens_foldl (limit : Int) (d : Draft) (ts : List Token) :
    (TokenStream.flatten (ts.foldl (add limit) d).finish).countP Token.opens ≤
      (TokenStream.flatten d.finish).countP Token.opens + ts.countP Token.opens := by
  induction ts generalizing d with
  | nil => exact Nat.le_refl _
  | cons t ts ih =>
    rw [List.foldl_cons, List.countP_cons]
    refine Nat.le_trans (ih _) ?_
    cases takes_add limit d t with
    | kept ht _ _ hgroups hseen =>
      rw [flatten_finish, flatten_finish, hgroups, hseen]
      simp [Token.opens_of_isLeaf ht]
    | counted _ _ _ hfinish | passed _ _ hfinish =>
      rw [hfinish]
      omega
    | opened group ht _ _ hgroups hseen =>
      have hopening := Nat.le_trans (List.countP_le_length (p := Token.opens)) (length_opening_le group)
      have hclosing : (closing group).countP Token.opens = 0 :=
        List.countP_eq_zero.2 fun t ht => by simp [of_mem_closing ht]
      rw [flatten_finish, flatten_finish, hgroups, hseen, if_pos ht]
      simp only [List.countP_append, List.flatMap_cons]
      omega

/-- Where no leaf is left uncounted for, all of them are shown. -/
theorem filter_isLeaf_foldl (ts : List Token)
    (hfit : d.total + ts.countP Token.isLeaf ≤ limit) :
    (TokenStream.flatten (ts.foldl (add limit) d).finish).filter Token.isLeaf =
      (TokenStream.flatten d.finish).filter Token.isLeaf ++ ts.filter Token.isLeaf := by
  have hclosing (groups : List (Delimiter × Span)) :
      (groups.flatMap closing).filter Token.isLeaf = [] := by
    refine List.filter_eq_nil_iff.2 fun t ht => ?_
    obtain ⟨group, -, ht⟩ := List.mem_flatMap.1 ht
    simp [of_mem_closing ht]
  induction ts generalizing d with
  | nil => simp
  | cons t ts ih =>
    rw [List.countP_cons] at hfit
    rw [List.foldl_cons]
    -- no leaf is merely counted, as there is room for all of them
    cases takes_add limit d t with
    | kept ht _ htotal hgroups hseen =>
      rw [if_pos ht] at hfit
      rw [ih (by omega), flatten_finish, flatten_finish, hgroups, hseen]
      simp [hclosing, ht]
    | counted ht hle htotal hfinish =>
      rw [if_pos ht] at hfit
      omega
    | opened group ht _ htotal hgroups hseen =>
      have hleaf : ¬t.isLeaf = true := fun h => by simp [Token.opens_of_isLeaf h] at ht
      have hopening : (opening group).filter Token.isLeaf = [] :=
        List.filter_eq_nil_iff.2 fun t ht => by simp [isLeaf_of_mem_opening ht]
      rw [if_neg hleaf] at hfit
      rw [ih (by omega), flatten_finish, flatten_finish, hgroups, hseen]
      simp only [List.filter_append, hclosing, hopening, List.append_nil,
        List.filter_cons_of_neg hleaf]
    | passed ht htotal hfinish =>
      rw [if_neg (by simp [ht])] at hfit
      rw [ih (by omega), hfinish]
      simp [ht]

theorem paired_eq_closing {groups : List (Delimiter × Span)} (h : Token.Closes groups ts)
    (hts : ∀ t ∈ ts, t.isLeaf = false ∧ t.opens = false) :
    Token.paired groups.length ts = groups.flatMap closing := by
  induction h with
  | nil => rfl
  | leaf ht => simp [ht] at hts
  | @opener _ kind _ _ span _ hkind =>
    have hopens := (hts _ (List.mem_cons_self ..)).2
    rw [kind.opens_opener hkind span] at hopens
    cases hopens
  | closer hkind _ ih =>
    rw [List.length_cons, Token.paired_closer hkind,
      ih fun t ht => hts t (List.mem_cons_of_mem _ ht), List.flatMap_cons, closing, hkind]
    rfl
  | unopened hkind _ ih =>
    rw [List.length_nil, Token.paired_unopened hkind]
    exact ih fun t ht => hts t (List.mem_cons_of_mem _ ht)

/-- Where leaves are kept up to the end and each group opens before there are enough of them, all that
is left is shown. -/
theorem flatten_finish_foldl {groups : List (Delimiter × Span)} (h : Token.Closes groups ts)
    (hgroups : d.groups = groups) (hfit : d.total + ts.countP Token.isLeaf ≤ limit)
    (hopens : Token.OpensBefore limit d.total ts) :
    TokenStream.flatten (ts.foldl (add limit) d).finish =
      d.seen ++ Token.paired groups.length ts := by
  -- along the tokens, with the groups that are open in the draft as those that the tokens are to close
  induction h generalizing d with
  | nil => simp [flatten_finish, hgroups, Token.paired]
  | @leaf groups t ts ht h ih =>
    rw [List.countP_cons, if_pos ht] at hfit
    rw [List.foldl_cons]
    cases takes_add limit d t with
    | kept _ _ htotal hgroups' hseen =>
      have htail := (Token.opensBefore_cons.1 hopens).2
      rw [if_pos ht, ← htotal] at htail
      rw [Token.paired_cons_of_isLeaf ht, ih (hgroups'.trans hgroups) (by omega) htail, hseen]
      simp
    | counted _ hle => omega
    | opened _ hopen => simp [Token.opens_of_isLeaf ht] at hopen
    | passed hleaf => simp [ht] at hleaf
  | @opener groups kind opener closer span ts hkind h ih =>
    rw [List.countP_cons_of_neg (by simp [Token.isLeaf, Token.toTree?])] at hfit
    obtain ⟨hhead, htail⟩ := Token.opensBefore_cons.1 hopens
    have hlt := hhead (kind.opens_opener hkind span)
    have hgroups' : (d.push kind span).groups = (kind, span) :: groups := by
      rw [groups_push, hgroups]
    have hrest := ih hgroups' hfit htail
    rw [List.foldl_cons, add_opener span hkind hlt, hrest, Token.paired_opener hkind, seen_push,
      opening, hkind]
    simp
  | @closer groups kind opener closer span ts hkind h ih =>
    rcases Int.lt_or_le d.total limit with hlt | hle
    · rw [List.countP_cons_of_neg (by simp [Token.isLeaf, Token.toTree?])] at hfit
      obtain ⟨hgroups', htotal, hseen⟩ := add_closer hkind hgroups hlt
      have hrest := ih hgroups' (by omega) (htotal ▸ (Token.opensBefore_cons.1 hopens).2)
      rw [List.foldl_cons, hrest, hseen, List.length_cons, Token.paired_closer hkind]
      simp
    · -- There are enough leaves, so that what is left closes groups and shows as what is owed.
      have hleaf : ∀ t ∈ Token.delim closer.toString span :: ts, ¬t.isLeaf = true :=
        List.countP_eq_zero.1 (by omega)
      rw [finish_foldl_of_le hle, flatten_finish, hgroups]
      rw [paired_eq_closing (.closer hkind h) fun t ht =>
        ⟨by simpa using hleaf t ht, hopens.opens_eq_false hle ht⟩]
  | @unopened kind opener closer span ts hkind h ih =>
    rw [List.countP_cons_of_neg (by simp [Token.isLeaf, Token.toTree?])] at hfit
    rw [List.foldl_cons, add_unopened span hkind hgroups, List.length_nil,
      Token.paired_unopened hkind]
    exact ih hgroups hfit (Token.opensBefore_cons.1 hopens).2

theorem opensBefore_of_countP
    (h : ts.countP Token.opens ≤
      (TokenStream.flatten (ts.foldl (add limit) {}).finish).countP Token.opens) :
    Token.OpensBefore limit 0 ts := by
  rintro front t back rfl ht
  by_contra hlt
  have htotal := total_foldl limit {} front
  have hle : limit ≤ (front.foldl (add limit) {}).total := by
    rw [htotal]
    simpa using hlt
  have hfront := countP_opens_foldl limit {} front
  have hnone : (TokenStream.flatten (finish {})).countP Token.opens = 0 := rfl
  rw [List.foldl_append, finish_foldl_of_le hle] at h
  rw [List.countP_append, List.countP_cons_of_pos ht] at h
  omega

end Draft

variable {trees : List TokenTree} {limit : Int} {tokens : List Token}

theorem trees_ofTokens? (limit : Int) (tokens : List Token) :
    ((ofTokens? limit tokens).map Leftover.trees).getD [] =
      (tokens.foldl (Draft.add limit) {}).finish := by
  simp only [ofTokens?]
  split
  · rename_i h
    rw [Bool.and_eq_true, List.isEmpty_iff] at h
    exact h.1.symm
  · rfl

theorem total_le_of_not_isCut (hlimit : 0 ≤ limit)
    (hcut : ∀ l ∈ ofTokens? limit tokens, l.isCut = false) :
    (tokens.countP Token.isLeaf : Int) ≤ limit := by
  have htotal := Draft.total_foldl limit {} tokens
  have hzero : (0 : Nat) + tokens.countP Token.isLeaf = tokens.countP Token.isLeaf := Nat.zero_add _
  simp only [ofTokens?] at hcut
  split at hcut
  · rename_i h
    rw [Bool.and_eq_true, beq_iff_eq] at h
    omega
  · have hle := hcut _ rfl
    simp only [isCut, decide_eq_false_iff_not] at hle
    omega

/-- A report without a mark, or none, leaves out no leaf. It shows all that is left of the trees, but
for the delimiters of groups that were open before, exactly if each group that is left opens behind
fewer leaves than the limit. -/
theorem ofSource?_complete_iff {s : Stream} (hs : s.Reachable trees) (hlimit : 0 ≤ limit)
    (hcut : ∀ l ∈ (ofSource? limit s).1, l.isCut = false) :
    let n := s.position.ordinal.toNat
    let rest := (TokenStream.flatten trees).drop n
    let shown := TokenStream.flatten (((ofSource? limit s).1.map Leftover.trees).getD [])
    shown.filter Token.isLeaf = rest.filter Token.isLeaf ∧
      (shown = TokenStream.since trees n ↔ Token.OpensBefore limit 0 rest) := by
  obtain ⟨⟨_, n⟩, rfl, hplace⟩ := hs.exists_at
  have hn : s.position.ordinal.toNat = n := by
    rw [hplace.position_eq]
    rfl
  have hreport : (ofSource? limit s).1 = ofTokens? limit ((TokenStream.flatten trees).drop n) := by
    show ofTokens? limit (TokenSource.drain s).1 = _
    rw [hplace.drain]
  have hcloses := TokenStream.closes_drop trees hplace.index_le
  simp only [hn, hreport, trees_ofTokens?, TokenStream.since_eq_paired] at hcut ⊢
  generalize (TokenStream.flatten trees).drop n = rest at hcut hcloses ⊢
  have hfit := total_le_of_not_isCut hlimit hcut
  have hfit' : (({} : Draft).total : Int) + rest.countP Token.isLeaf ≤ limit := by
    simpa using hfit
  refine ⟨Draft.filter_isLeaf_foldl rest hfit', fun hshown => ?_, fun hopens => ?_⟩
  · refine Draft.opensBefore_of_countP (Nat.le_of_eq ?_)
    rw [hshown, Token.countP_opens_paired]
  · exact Draft.flatten_finish_foldl hcloses rfl hfit' hopens

/-- In `( a b [ ] c { } d )`, behind `( a` and a window: of three leaves that may be shown three
are, and both groups open in front of the third. The closing parenthesis is left out. -/
theorem ofSource?_complete_groups :
    let group (d : Delimiter) (ts : List TokenTree) : TokenTree := .group d ts .callSite
    let trees := [group .parenthesis [.ident "a" .callSite, .ident "b" .callSite, group .bracket [],
      .ident "c" .callSite, group .brace [], .ident "d" .callSite]]
    let s := (Stream.lookahead (.empty 1) (.input (.ofTrees trees))).next.2.next.2
    let shown := TokenStream.flatten (((ofSource? 3 s).1.map Leftover.trees).getD [])
    shown = TokenStream.since trees 2 ∧
      shown.map Token.text = ["b", "[", "]", "c", "\x7b", "\x7d", "d"] := by
  intro group trees s shown
  have hs : s.Reachable trees := Stream.Reachable.next (.next (.lookahead (by decide) .ofTrees))
  have hcut : ∀ l ∈ (ofSource? 3 s).1, l.isCut = false := by decide +kernel
  have hplace : s.position.ordinal.toNat = 2 := by decide +kernel
  have hopens : Token.OpensBefore 3 0 ((TokenStream.flatten trees).drop 2) := by decide +kernel
  have hcomplete := (ofSource?_complete_iff hs (by decide) hcut).2
  rw [hplace] at hcomplete
  exact ⟨hcomplete.2 hopens, by decide +kernel⟩

/-- On `a ( )`, a report of at most one leaf leaves out the group and has no mark. On `( )` there is no
report of no leaves. -/
theorem ofSource?_incomplete :
    let empty : TokenTree := .group .parenthesis [] .callSite
    let trees := [.ident "a" .callSite, empty]
    (∃ l, (ofSource? 1 (Stream.input (.ofTrees trees))).1 = some l ∧ l.isCut = false ∧
      TokenStream.flatten l.trees ≠ TokenStream.since trees 0) ∧
    (ofSource? 0 (Stream.input (.ofTrees [empty]))).1 = none ∧ TokenStream.since [empty] 0 ≠ [] := by
  intro empty trees
  have hview : (ofSource? 1 (Stream.input (.ofTrees trees))).1.map
      (fun l => (l.isCut, TokenStream.flatten l.trees)) =
        some (false, [.ident "a" .callSite]) := by decide +kernel
  obtain ⟨l, hl, heq⟩ := Option.map_eq_some_iff.1 hview
  obtain ⟨hcut, htrees⟩ := Prod.mk.inj heq
  refine ⟨⟨l, hl, hcut, ?_⟩, Option.isNone_iff_eq_none.1 (by decide +kernel), by decide +kernel⟩
  rw [htrees]
  decide +kernel

end Leftover

end TokenParsing
