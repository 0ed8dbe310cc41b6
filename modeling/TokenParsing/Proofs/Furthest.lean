import TokenParsing.Proofs.Merging

/-!
# The furthest of many failures

Failures that are merged one after the other leave one failure behind, however many they are. Only
those count that are furthest on (`Failure.Furthest`): the first of them says where it is and what
stood there, and the labels of the later ones are put behind its own (`Failure.joined`).

Each failure that is merged in is nearer than these, or is one more of them, or is the only one left
(`Failure.Furthest.snoc`). So they can be followed from the first failure of a list to the last
(`Failure.foldl_merge`).
-/

namespace TokenParsing

/-- The labels that are not among those seen before, each one once, in the order first seen. -/
def newLabels (seen labels : List String) : List String :=
  (labels.filter (· ∉ seen)).eraseDups

theorem newLabels_append_singleton (seen labels : List String) (label : String) :
    newLabels seen (labels ++ [label]) =
      if label ∈ seen ∨ label ∈ labels then newLabels seen labels
      else newLabels seen labels ++ [label] := by
  rw [newLabels, List.filter_append, List.eraseDups_append]
  by_cases hseen : label ∈ seen
  · rw [if_pos (.inl hseen)]
    simp [newLabels, hseen]
  · by_cases hlabels : label ∈ labels
    · rw [if_pos (.inr hlabels)]
      simp [newLabels, List.removeAll, hseen, hlabels]
    · rw [if_neg (by tauto)]
      simp [newLabels, List.removeAll, List.eraseDups_cons, hseen, hlabels]

theorem unionLabels_eq_append (left right : List String) :
    unionLabels left right = left ++ newLabels left right := by
  induction right using List.reverseRecOn with
  | nil => simp [unionLabels, newLabels]
  | append_singleton right label ih =>
    rw [unionLabels_append_singleton, newLabels_append_singleton, ih]
    split
    · rfl
    · rw [List.append_assoc]

/-- Labels that stand twice on the left stay, and those on the right come once. -/
example : unionLabels ["a", "b", "a"] ["c", "b", "c"] = ["a", "b", "a", "c"] := by decide

namespace Failure

/-- A failure that later ones at its place have joined. -/
def joined (first : Failure) (later : List Failure) : Failure where
  position := first.position
  unexpected := first.unexpected
  expected := first.expected ++ newLabels first.expected (later.flatMap expected)
  committed := (first :: later).any committed

/-- The failures of a list that are furthest on: the first of them, and the later ones. -/
structure Furthest (es : List Failure) (first : Failure) (later : List Failure) : Prop where
  /-- No failure is further on. -/
  le : ∀ e ∈ es, e.ordinal ≤ first.ordinal
  /-- Those at the same place, in the order of the list. -/
  filter_eq : es.filter (·.ordinal = first.ordinal) = first :: later

variable {e first : Failure} {later es : List Failure}

@[simp]
theorem joined_nil (e : Failure) : e.joined [] = e := by
  simp [joined, newLabels]

@[simp]
theorem ordinal_joined : (first.joined later).ordinal = first.ordinal := rfl

theorem joined_merge (h : e.ordinal = first.ordinal) :
    (first.joined later).merge e = first.joined (later ++ [e]) := by
  have hlabels : unionLabels (first.joined later).expected e.expected =
      (first.joined (later ++ [e])).expected := by
    simp only [joined, ← unionLabels_eq_append, List.flatMap_append, List.flatMap_singleton]
    simp only [unionLabels, List.foldl_append]
  rw [merge_of_eq (ordinal_joined.trans h.symm), hlabels]
  simp [joined, Bool.or_assoc]

namespace Furthest

theorem singleton (e : Failure) : Furthest [e] e [] where
  le := by simp
  filter_eq := by simp

theorem mem (h : Furthest es first later) : first ∈ es :=
  List.mem_of_mem_filter (h.filter_eq ▸ List.mem_cons_self ..)

theorem unique {first' : Failure} {later' : List Failure} (h : Furthest es first later)
    (h' : Furthest es first' later') : first = first' ∧ later = later' := by
  have heq : first.ordinal = first'.ordinal := Int.le_antisymm (h'.le _ h.mem) (h.le _ h'.mem)
  have hlist : first :: later = first' :: later' := by rw [← h.filter_eq, ← h'.filter_eq, heq]
  exact List.cons.inj hlist

/-- With one more failure at the end of the list the furthest ones are the same as before, or the new
one is one of them, or the only one. In each case merging it in comes to what they come to. -/
theorem snoc (h : Furthest es first later) (e : Failure) : ∃ first' later',
    Furthest (es ++ [e]) first' later' ∧ (first.joined later).merge e = first'.joined later' := by
  have hall {n : Int} (hes : ∀ f ∈ es, f.ordinal ≤ n) (he : e.ordinal ≤ n) :
      ∀ f ∈ es ++ [e], f.ordinal ≤ n := fun f hf =>
    (List.mem_append.1 hf).elim (hes f) fun hf => List.mem_singleton.1 hf ▸ he
  -- each case says twice what is left: of the list by filtering it, and of the failures by merging
  rcases lt_trichotomy e.ordinal first.ordinal with hlt | heq | hgt
  · refine ⟨first, later, ⟨hall h.le hlt.le, ?_⟩, merge_of_gt hlt⟩
    rw [List.filter_append, h.filter_eq]
    simp [hlt.ne]
  · refine ⟨first, later ++ [e], ⟨hall h.le heq.le, ?_⟩, joined_merge heq⟩
    rw [List.filter_append, h.filter_eq]
    simp [heq]
  · have hnear : ∀ f ∈ es, f.ordinal < e.ordinal := fun f hf => (h.le f hf).trans_lt hgt
    refine ⟨e, [], ⟨hall (fun f hf => (hnear f hf).le) le_rfl, ?_⟩, ?_⟩
    · have hnone : es.filter (·.ordinal = e.ordinal) = [] :=
        List.filter_eq_nil_iff.2 fun f hf => by simpa using (hnear f hf).ne
      rw [List.filter_append, hnone]
      simp
    · rw [joined_nil]
      exact merge_of_lt hgt

end Furthest

/-- Failures that are merged from the first to the last come to the furthest of them. -/
theorem foldl_merge (e : Failure) (es : List Failure) : ∃ first later,
    Furthest (e :: es) first later ∧ es.foldl merge e = first.joined later := by
  induction es using List.reverseRecOn with
  | nil => exact ⟨e, [], .singleton e, (joined_nil e).symm⟩
  | append_singleton es f ih =>
    obtain ⟨first, later, hfurthest, hmerge⟩ := ih
    obtain ⟨first', later', hfurthest', hmerge'⟩ := hfurthest.snoc f
    refine ⟨first', later', hfurthest', ?_⟩
    rw [List.foldl_append, hmerge]
    exact hmerge'

/-- Failures may be merged in any grouping. From the first to the last, they come to a failure at the
furthest place of all, which is the first of those at this place with the labels of the later ones
behind its own; it is committed if one of those is. -/
theorem merge_all (e f g : Failure) (es : List Failure) :
    (e.merge f).merge g = e.merge (f.merge g) ∧ ∃ first later,
      Furthest (e :: es) first later ∧ es.foldl merge e = first.joined later :=
  ⟨e.merge_assoc f g, foldl_merge e es⟩

end Failure

end TokenParsing
