import Mathlib.Logic.Function.Iterate
import TokenParsing.Proofs.AtHand
import TokenParsing.Proofs.Unread

/-!
# Opening again what is left

The levels of an input are settled whenever it is read, so that the trees rebuilt from what is left of it
start with the next token: this may stand within invisible groups, but none without tokens is in front of
it (`TokenStream.StartsWithToken`). Opening these trees then drops nothing, and rebuilding them gives them
back, however often this is done (`Input.intoTrees_stable`).
-/

namespace TokenParsing

namespace TokenStream

/-- There is a first tree, and nothing of it goes when it is opened. -/
def StartsWithToken (ts : List TokenTree) : Prop := ∃ t rest, ts = t :: rest ∧ t.trimmed? = some t

namespace StartsWithToken

variable {ts : List TokenTree}

theorem trimmed_eq (h : StartsWithToken ts) : trimmed ts = ts := by
  obtain ⟨t, rest, rfl, ht⟩ := h
  rw [trimmed, ht]

theorem append (h : StartsWithToken ts) (us : List TokenTree) : StartsWithToken (ts ++ us) := by
  obtain ⟨t, rest, rfl, ht⟩ := h
  exact ⟨t, rest ++ us, rfl, ht⟩

theorem group (h : StartsWithToken ts) (span : Span) : StartsWithToken [.group .invisible ts span] := by
  refine ⟨_, [], rfl, ?_⟩
  rw [TokenTree.trimmed?, h.trimmed_eq]
  obtain ⟨t, rest, rfl, -⟩ := h
  rfl

theorem enclosed (h : StartsWithToken ts) (e : Enclosure) : StartsWithToken (e.rebuild ts) := by
  cases e with
  | outermost => exact h
  | invisible span => exact h.group span
  | visible closer span => exact h.append _

theorem rebuild (h : StartsWithToken ts) (levels : List Level) :
    StartsWithToken (Level.rebuild ts levels) := by
  induction levels generalizing ts with
  | nil => exact h
  | cons l outer ih => exact ih ((h.append l.rest).enclosed l.enclosure)

end StartsWithToken

end TokenStream

/-- What is rebuilt from levels of which the first look tells the next token starts with this token. -/
theorem Level.AtHand.startsWithToken_rebuild {levels : List Level} {found : Token × List Level}
    (h : AtHand levels (some found)) : TokenStream.StartsWithToken (rebuild [] levels) := by
  have hfirst (e : Enclosure) {t : TokenTree} (ht : t.trimmed? = some t) (rest : List TokenTree)
      (outer : List Level) : TokenStream.StartsWithToken (rebuild [] (⟨e, t :: rest⟩ :: outer)) :=
    .rebuild (.enclosed ⟨t, rest, rfl, ht⟩ e) outer
  cases h with
  | closer closer span outer => exact .rebuild ⟨_, [], rfl, rfl⟩ outer
  | @leaf u t ht e rest outer =>
    refine hfirst e ?_ rest outer
    cases u with
    | delim => cases ht
    | ident | literal | punct => cases ht; rfl
  | @opener d opener closer hd e trees rest span outer =>
    refine hfirst e ?_ rest outer
    cases d with
    | invisible => cases hd
    | parenthesis | brace | bracket => rfl

theorem Level.Settled.trimmed_rebuild {levels : List Level} (h : Settled levels) :
    TokenStream.trimmed (rebuild [] levels) = rebuild [] levels := by
  obtain ⟨found, hfound⟩ := h.exists_atHand
  cases found with
  | none => cases hfound; rfl
  | some found => exact hfound.startsWithToken_rebuild.trimmed_eq

namespace Input

variable {trees : List TokenTree} {i : Input}

/-- The trees that are rebuilt from what is left of an input, however it was read, come back when they
are opened and rebuilt again, groups, spacing, spans and all, and so they do any number of times. -/
theorem intoTrees_stable (hi : (Stream.input i).Reachable trees) :
    (ofTrees i.intoTrees).intoTrees = i.intoTrees ∧
      ∀ n, (fun ts => (ofTrees ts).intoTrees)^[n] i.intoTrees = i.intoTrees := by
  obtain ⟨n, h⟩ := hi.input_at
  have hfixed : (ofTrees i.intoTrees).intoTrees = i.intoTrees :=
    (intoTrees_ofTrees i.intoTrees).trans h.settled.trimmed_rebuild
  exact ⟨hfixed, Function.iterate_fixed (f := fun ts => (ofTrees ts).intoTrees) hfixed⟩

/-- Of `( a { b } c ) +`, with an invisible group around the braces and `c`, behind `{`: the groups that
are open are rebuilt with what is left of them, and the closing delimiters stand there as punctuation. -/
theorem intoTrees_stable_nested :
    let braces : Span := ⟨"<input>", 1, 5, 1, 10, ""⟩
    let parens : Span := ⟨"<input>", 1, 1, 1, 14, ""⟩
    let leaf (text : String) : TokenTree := .ident text .callSite
    let trees : List TokenTree := [.group .parenthesis [leaf "a",
      .group .invisible [.group .brace [leaf "b"] braces, leaf "c"] .callSite] parens,
      .punct '+' .alone .callSite]
    let i := (ofTrees trees).next.2.next.2.next.2
    (Stream.input i).Reachable trees ∧
      TokenStream.same i.intoTrees [.group .invisible [leaf "b", .punct '\x7d' .alone braces, leaf "c"]
        .callSite, .punct ')' .alone parens, .punct '+' .alone .callSite] = true ∧
      (ofTrees i.intoTrees).intoTrees = i.intoTrees ∧
      ∀ n, (fun ts => (ofTrees ts).intoTrees)^[n] i.intoTrees = i.intoTrees := by
  intro braces parens leaf trees i
  have hstart : (Stream.input (ofTrees trees)).Reachable trees := .ofTrees
  have hi : (Stream.input i).Reachable trees := hstart.next.next.next
  exact ⟨hi, by decide +kernel, intoTrees_stable hi⟩

end Input

end TokenParsing
