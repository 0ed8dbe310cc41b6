import TokenParsing.Token

/-!
# Values

What a parser makes of the tokens it reads: tokens and leaves, the tuple of a sequence, the list of
a repetition, and what the caller puts in their place.
-/

namespace TokenParsing

inductive Value where
  | null
  | bool (b : Bool)
  | int (n : Int)
  | text (s : String)
  | tree (t : TokenTree)
  | token (t : Token)
  | tuple (values : List Value)
  | list (values : List Value)
  deriving Repr, Inhabited

/-- Why a value could not be taken apart. -/
inductive ValueError where
  | missingElement
  | notAList
  deriving DecidableEq, Repr

namespace Value

/-- The elements of a tuple or list. -/
def elements? : Value → Option (List Value)
  | .tuple vs => some vs
  | .list vs => some vs
  | _ => none

/-- An element of a tuple or list. -/
def element (n : Nat) (v : Value) : Except ValueError Value :=
  match (v.elements?.getD [])[n]? with
  | some u => .ok u
  | none => .error .missingElement

/-- The first element in front of the second, which is a list. -/
def consList (v : Value) : Except ValueError Value := do
  let first ← v.element 0
  match ← v.element 1 with
  | .list rest => .ok (.list (first :: rest))
  | _ => .error .notAList

/-- A value, or the empty list if there is none. -/
def orEmpty : Value → Value
  | .null => .list []
  | v => v

mutual

/-- The text of a value. Tuples and lists come out as the list of their elements' texts; nothing,
numbers and truth values stay as they are. -/
def toText : Value → Value
  | .tuple vs => .list (toTexts vs)
  | .list vs => .list (toTexts vs)
  | .tree t => .text t.render
  | .token t => .text t.text
  | .text s => .text s
  | .null => .null
  | .bool b => .bool b
  | .int n => .int n

def toTexts : List Value → List Value
  | [] => []
  | v :: vs => v.toText :: toTexts vs

end

def size (v : Value) : Nat := (v.elements?.getD []).length

/-- The first element, or the value itself if it has none. -/
def first (v : Value) : Value := ((v.elements?.getD []).head?).getD v

/-- The last element, or the value itself if it has none. -/
def last (v : Value) : Value := ((v.elements?.getD []).getLast?).getD v

end Value

end TokenParsing
