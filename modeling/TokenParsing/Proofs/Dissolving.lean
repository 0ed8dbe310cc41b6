import TokenParsing.Proofs.Adjacency

/-!
# Invisible groups in a rendering

The gap behind a tree is chosen from the tree itself, not from the last token of it that is rendered.
So a stream does not always render as its trees do without the invisible groups around them: there is a
gap behind an invisible group that ends in joint punctuation, and one in front of or behind an invisible
group of nothing. No token is lost when the groups are dissolved (`TokenStream.flatten_dissolve`), and
nothing but spaces from the rendering. It stays as it is exactly if there are no such gaps
(`TokenStream.render_dissolve`).
-/

namespace TokenParsing

mutual

/-- What is left of a tree when the invisible groups are dissolved: such a group leaves its trees. -/
def TokenTree.dissolve : TokenTree → List TokenTree
  | .group d trees span =>
    if d = .invisible then TokenStream.dissolve trees
    else [.group d (TokenStream.dissolve trees) span]
  | t => [t]

/-- The stream with each invisible group in it, at every depth, replaced by its trees. -/
def TokenStream.dissolve : List TokenTree → List TokenTree
  | [] => []
  | t :: ts => t.dissolve ++ TokenStream.dissolve ts

end

/-- The last tree is joint punctuation. -/
def TokenStream.endsJoint (ts : List TokenTree) : Bool := ts.getLast?.any TokenTree.isJoint

/-- What stands between two parts of a stream in its rendering. -/
def TokenStream.gapTo (ts us : List TokenTree) : List Char :=
  if ts = [] ∨ us = [] ∨ TokenStream.endsJoint ts then [] else [' ']

/-- The gap between two neighbours stays when the invisible groups are dissolved: both leave something,
and what the first one leaves ends in joint punctuation only if it is joint punctuation itself. Nothing
need be left behind joint punctuation, which has no gap. -/
structure TokenTree.KeepsGap (t u : TokenTree) : Prop where
  leaves : t.dissolve ≠ []
  leaves_next : u.dissolve = [] → t.isJoint
  isJoint : TokenStream.endsJoint t.dissolve → t.isJoint

/-- The first text is the second one without some of its spaces. -/
structure LessSpaces (cs ds : List Char) : Prop where
  sublist : cs.Sublist ds
  filter_eq : cs.filter (· != ' ') = ds.filter (· != ' ')

namespace LessSpaces

variable {cs ds cs' ds' : List Char}

theorem refl (cs : List Char) : LessSpaces cs cs := ⟨List.Sublist.refl _, rfl⟩

theorem append (h : LessSpaces cs ds) (h' : LessSpaces cs' ds') :
    LessSpaces (cs ++ cs') (ds ++ ds') :=
  ⟨h.sublist.append h'.sublist, by rw [List.filter_append, List.filter_append, h.filter_eq, h'.filter_eq]⟩

theorem nil (h : ∀ c ∈ ds, c = ' ') : LessSpaces [] ds :=
  ⟨List.nil_sublist _, (List.filter_eq_nil_iff.2 fun c hc => by simp [h c hc]).symm⟩

theorem append_eq_iff (h : LessSpaces cs ds) (h' : LessSpaces cs' ds') :
    cs ++ cs' = ds ++ ds' ↔ cs = ds ∧ cs' = ds' := by
  refine ⟨fun heq => ?_, fun ⟨hcs, hcs'⟩ => by rw [hcs, hcs']⟩
  have hlength := congrArg List.length heq
  have hle := h.sublist.length_le
  have hle' := h'.sublist.length_le
  rw [List.length_append, List.length_append] at hlength
  exact ⟨h.sublist.eq_of_length (by omega), h'.sublist.eq_of_length (by omega)⟩

end LessSpaces

/-! ### The parts of a rendering -/

namespace Delimiter

variable {d : Delimiter} {inner inner' : String}

theorem exists_marks? (h : d ≠ .invisible) : ∃ opener closer, d.marks? = some (opener, closer) := by
  cases d with
  | parenthesis | brace | bracket => exact ⟨_, _, rfl⟩
  | invisible => exact absurd rfl h

theorem eq_space_of_mem_inset {c : Char} (h : c ∈ d.inset) : c = ' ' := by
  unfold inset at h
  split at h <;> simp_all

theorem wrap_lessSpaces (h : LessSpaces inner.toList inner'.toList) :
    LessSpaces (d.wrap inner).toList (d.wrap inner').toList := by
  by_cases hd : d = .invisible
  · rw [hd]
    exact h
  obtain ⟨opener, closer, hmarks⟩ := exists_marks? hd
  rw [toList_wrap hmarks, toList_wrap hmarks]
  refine (LessSpaces.refl [opener]).append (LessSpaces.append ?_ (LessSpaces.refl _))
  by_cases hinner : inner = "" <;> by_cases hinner' : inner' = ""
  · rw [if_pos hinner, if_pos hinner']
    exact LessSpaces.refl _
  · rw [if_pos hinner, if_neg hinner']
    rw [hinner] at h
    exact (LessSpaces.nil fun c hc => eq_space_of_mem_inset hc).append h
  · rw [hinner'] at h
    exact absurd (String.toList_eq_nil_iff.1 (List.sublist_nil.1 h.sublist)) hinner
  · rw [if_neg hinner, if_neg hinner']
    exact (LessSpaces.refl _).append h

theorem wrap_inj : d.wrap inner = d.wrap inner' ↔ inner = inner' := by
  refine ⟨fun h => ?_, fun h => h ▸ rfl⟩
  by_cases hd : d = .invisible
  · rwa [hd] at h
  obtain ⟨opener, closer, hmarks⟩ := exists_marks? hd
  have hlist := congrArg String.toList h
  rw [toList_wrap hmarks, toList_wrap hmarks] at hlist
  have hinside := List.append_cancel_right (List.cons.inj hlist).2
  by_cases hinner : inner = "" <;> by_cases hinner' : inner' = ""
  · rw [hinner, hinner']
  · rw [if_pos hinner, if_neg hinner'] at hinside
    exact absurd (String.toList_eq_nil_iff.1 (List.append_eq_nil_iff.1 hinside.symm).2) hinner'
  · rw [if_neg hinner, if_pos hinner'] at hinside
    exact absurd (String.toList_eq_nil_iff.1 (List.append_eq_nil_iff.1 hinside).2) hinner
  · rw [if_neg hinner, if_neg hinner'] at hinside
    exact String.toList_inj.1 (List.append_cancel_left hinside)

end Delimiter

theorem TokenTree.dissolve_of_isJoint {t : TokenTree} (h : t.isJoint) : t.dissolve = [t] := by
  cases t with
  | punct => rfl
  | ident | literal | group => cases h

namespace TokenStream

variable {t : TokenTree} {ts us : List TokenTree}

theorem gapTo_eq_space_iff : gapTo ts us = [' '] ↔ ts ≠ [] ∧ us ≠ [] ∧ ¬endsJoint ts := by
  rw [← not_or, ← not_or]
  unfold gapTo
  split <;> simp_all

theorem gapTo_cons (t u : TokenTree) (ts us : List TokenTree) :
    gapTo (t :: u :: ts) us = gapTo (u :: ts) us := by
  simp [gapTo, endsJoint]

theorem toList_render_append (ts us : List TokenTree) :
    (render (ts ++ us)).toList = (render ts).toList ++ (gapTo ts us ++ (render us).toList) := by
  induction ts with
  | nil => simp [render, gapTo]
  | cons t ts ih =>
    rw [List.cons_append, toList_render_cons, ih, toList_render_cons]
    cases ts with
    | nil =>
      by_cases hus : us = []
      · simp [hus, gapTo, render]
      · simp [hus, gapTo, endsJoint, render]
    | cons u ts => simp [gapTo_cons]

theorem toList_render_cons_gapTo (t : TokenTree) (ts : List TokenTree) :
    (render (t :: ts)).toList = t.render.toList ++ (gapTo [t] ts ++ (render ts).toList) :=
  toList_render_append [t] ts

theorem gapTo_dissolve_lessSpaces (t : TokenTree) (ts : List TokenTree) :
    LessSpaces (gapTo t.dissolve (dissolve ts)) (gapTo [t] ts) := by
  by_cases hts : ts = []
  · simpa [hts, gapTo, dissolve] using LessSpaces.refl []
  by_cases hjoint : t.isJoint
  · simpa [TokenTree.dissolve_of_isJoint hjoint, gapTo, endsJoint, hjoint] using LessSpaces.refl []
  have hgap : gapTo [t] ts = [' '] := gapTo_eq_space_iff.2 (by simp [endsJoint, hts, hjoint])
  rw [hgap]
  unfold gapTo
  split
  · exact LessSpaces.nil (by simp)
  · exact LessSpaces.refl _

theorem forall_neighbours_cons {p : TokenTree → TokenTree → Prop} :
    (∀ u v, (u, some v) ∈ neighbours (t :: ts) → p u v) ↔
      (∀ v, ts.head? = some v → p t v) ∧ (∀ u v, (u, some v) ∈ t.neighbours → p u v) ∧
        ∀ u v, (u, some v) ∈ neighbours ts → p u v := by
  rw [neighbours]
  constructor
  · exact fun h => ⟨fun v hv => h t v (by simp [hv]), fun u v hmem => h u v (by simp [hmem]),
      fun u v hmem => h u v (by simp [hmem])⟩
  · rintro ⟨hhead, htree, htail⟩ u v hmem
    rcases List.mem_cons.1 hmem with heq | hmem
    · rw [Prod.mk.injEq] at heq
      exact heq.1 ▸ hhead v heq.2.symm
    · rcases List.mem_append.1 hmem with hmem | hmem
      · exact htree u v hmem
      · exact htail u v hmem

theorem dissolve_cons_eq_nil (h : ∀ u v, (u, some v) ∈ neighbours (t :: ts) → u.KeepsGap v) :
    dissolve (t :: ts) = [] ↔ t.dissolve = [] := by
  rw [dissolve, List.append_eq_nil_iff]
  refine ⟨And.left, fun ht => ⟨ht, ?_⟩⟩
  cases ts with
  | nil => rfl
  | cons u ts => exact absurd ht ((forall_neighbours_cons.1 h).1 u rfl).leaves

/-- The gap behind a tree stays exactly if it stays in front of the next one. -/
theorem gapTo_dissolve_eq (h : ∀ u v, (u, some v) ∈ neighbours ts → u.KeepsGap v) :
    gapTo t.dissolve (dissolve ts) = gapTo [t] ts ↔ ∀ u, ts.head? = some u → t.KeepsGap u := by
  cases ts with
  | nil => simp [dissolve, gapTo]
  | cons u us =>
    by_cases hjoint : t.isJoint
    · have hleft := TokenTree.dissolve_of_isJoint hjoint
      have hkeeps : t.KeepsGap u := ⟨by simp [hleft], fun _ => hjoint, fun _ => hjoint⟩
      simp [hleft, gapTo, endsJoint, hjoint, hkeeps]
    · have hgap : gapTo [t] (u :: us) = [' '] := gapTo_eq_space_iff.2 (by simp [endsJoint, hjoint])
      rw [hgap, gapTo_eq_space_iff, ne_eq (dissolve _), dissolve_cons_eq_nil h]
      constructor
      · rintro ⟨hleaves, hnext, hends⟩ v hv
        obtain rfl : u = v := by simpa using hv
        exact ⟨hleaves, fun hnil => absurd hnil hnext, fun hends' => absurd hends' hends⟩
      · intro hkeeps
        obtain ⟨hleaves, hnext, hends⟩ := hkeeps u rfl
        exact ⟨hleaves, fun hnil => hjoint (hnext hnil), fun hends' => hjoint (hends hends')⟩

end TokenStream

/-! ### Streams with and without invisible groups -/

mutual

theorem TokenTree.flatten_dissolve (t : TokenTree) :
    TokenStream.flatten t.dissolve = t.flatten := by
  cases t with
  | ident | literal | punct => simp [TokenTree.dissolve]
  | group d trees span =>
    have hinner := TokenStream.flatten_dissolve trees
    by_cases hd : d = .invisible
    · subst hd
      exact hinner
    · obtain ⟨opener, closer, hmarks⟩ := Delimiter.exists_marks? hd
      rw [TokenTree.dissolve, if_neg hd, TokenStream.flatten_cons, TokenStream.flatten_nil,
        List.append_nil, TokenTree.flatten_group hmarks, TokenTree.flatten_group hmarks, hinner]

/-- The tokens of a stream are the same without the invisible groups. -/
theorem TokenStream.flatten_dissolve (ts : List TokenTree) :
    TokenStream.flatten (TokenStream.dissolve ts) = TokenStream.flatten ts := by
  cases ts with
  | nil => rfl
  | cons t ts =>
    rw [TokenStream.dissolve, TokenStream.flatten_append, t.flatten_dissolve,
      TokenStream.flatten_dissolve ts, TokenStream.flatten_cons]

end

mutual

theorem TokenTree.render_dissolve_lessSpaces (t : TokenTree) :
    LessSpaces (TokenStream.render t.dissolve).toList t.render.toList := by
  cases t with
  | ident | literal | punct => exact LessSpaces.refl _
  | group d trees span =>
    have hinner := TokenStream.render_dissolve_lessSpaces trees
    by_cases hd : d = .invisible
    · subst hd
      exact hinner
    · rw [TokenTree.dissolve, if_neg hd, TokenStream.render, TokenTree.render, TokenTree.render]
      exact Delimiter.wrap_lessSpaces hinner

/-- Nothing but spaces is lost from a rendering when the invisible groups are dissolved. -/
theorem TokenStream.render_dissolve_lessSpaces (ts : List TokenTree) :
    LessSpaces (TokenStream.render (TokenStream.dissolve ts)).toList
      (TokenStream.render ts).toList := by
  cases ts with
  | nil => exact LessSpaces.refl _
  | cons t ts =>
    rw [TokenStream.dissolve, TokenStream.toList_render_append, TokenStream.toList_render_cons_gapTo]
    exact t.render_dissolve_lessSpaces.append
      ((TokenStream.gapTo_dissolve_lessSpaces t ts).append (TokenStream.render_dissolve_lessSpaces ts))

end

mutual

theorem TokenTree.render_dissolve_eq_iff (t : TokenTree) :
    TokenStream.render t.dissolve = t.render ↔
      ∀ u v, (u, some v) ∈ t.neighbours → u.KeepsGap v := by
  cases t with
  | ident | literal | punct =>
    simp [TokenTree.dissolve, TokenStream.render, TokenTree.neighbours]
  | group d trees span =>
    rw [TokenTree.neighbours, ← TokenStream.render_dissolve_eq_iff trees]
    by_cases hd : d = .invisible
    · subst hd
      exact Iff.rfl
    · rw [TokenTree.dissolve, if_neg hd, TokenStream.render, TokenTree.render, TokenTree.render]
      exact Delimiter.wrap_inj

theorem TokenStream.render_dissolve_eq_iff (ts : List TokenTree) :
    TokenStream.render (TokenStream.dissolve ts) = TokenStream.render ts ↔
      ∀ t u, (t, some u) ∈ TokenStream.neighbours ts → t.KeepsGap u := by
  cases ts with
  | nil => simp [TokenStream.dissolve, TokenStream.neighbours]
  | cons t ts =>
    have hgap := TokenStream.gapTo_dissolve_lessSpaces t ts
    have htail := TokenStream.render_dissolve_lessSpaces ts
    rw [← String.toList_inj, TokenStream.dissolve, TokenStream.toList_render_append,
      TokenStream.toList_render_cons_gapTo,
      t.render_dissolve_lessSpaces.append_eq_iff (hgap.append htail), hgap.append_eq_iff htail,
      String.toList_inj, String.toList_inj, t.render_dissolve_eq_iff,
      TokenStream.render_dissolve_eq_iff ts, TokenStream.forall_neighbours_cons]
    constructor
    · rintro ⟨htree, hsame, hrest⟩
      exact ⟨(TokenStream.gapTo_dissolve_eq hrest).1 hsame, htree, hrest⟩
    · rintro ⟨hhead, htree, hrest⟩
      exact ⟨htree, (TokenStream.gapTo_dissolve_eq hrest).2 hhead, hrest⟩

end

/-- The rendering of a stream without its invisible groups is that of the stream less some spaces, and
the same exactly if, at every depth, the gap between two neighbours stays. -/
theorem TokenStream.render_dissolve (ts : List TokenTree) :
    LessSpaces (render (dissolve ts)).toList (render ts).toList ∧
      (render (dissolve ts) = render ts ↔
        ∀ t u, (t, some u) ∈ neighbours ts → t.KeepsGap u) :=
  ⟨render_dissolve_lessSpaces ts, render_dissolve_eq_iff ts⟩

/-- The joint `+` ends a group, and one group has nothing in it. -/
theorem TokenStream.render_dissolve_ne :
    let trees : List TokenTree := [.group .invisible [.punct '+' .joint .callSite] .callSite,
      .punct '=' .alone .callSite, .group .invisible [] .callSite, .ident "a" .callSite]
    render trees = "+ =  a" ∧ render (dissolve trees) = "+= a" ∧
      render (dissolve trees) ≠ render trees := by
  intro trees
  exact ⟨by decide +kernel, by decide +kernel, by decide +kernel⟩

end TokenParsing
