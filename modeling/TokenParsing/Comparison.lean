import TokenParsing.Token

/-!
# Comparing things of different kinds

Things of different kinds are never equal. Trees and streams are compared without their spans,
tokens by kind and text, spans without their text, and positions by their number of tokens. Only
positions and texts are ordered.
-/

namespace TokenParsing

/-- Something that can stand beside other things in one collection. -/
inductive Item where
  | token (t : Token)
  | tree (t : TokenTree)
  | stream (ts : List TokenTree)
  | span (s : Span)
  | position (p : Position)
  | text (s : String)
  deriving Repr

namespace Item

def same : Item → Item → Bool
  | .token a, .token b => a.same b
  | .tree a, .tree b => a.same b
  | .stream a, .stream b => TokenStream.same a b
  | .span a, .span b => a.same b
  | .position a, .position b => a.ordinal == b.ordinal
  | .text a, .text b => a == b
  | _, _ => false

def compare? : Item → Item → Option Ordering
  | .position a, .position b => some (compare a.ordinal b.ordinal)
  | .text a, .text b => some (compare a b)
  | _, _ => none

/-- The number of things that differ from all those before them. -/
def countDistinct (items : List Item) : Nat :=
  (items.foldl (fun seen i => if seen.any i.same then seen else i :: seen) []).length

end Item

end TokenParsing
