import TokenParsing.TokenTree

/-!
# Selecting from a list of trees

A tree is selected by its number, and several by where to start, where to stop and how far to step.
Negative numbers count from the end. A slice never reaches beyond the list; a single number must
not.
-/

namespace TokenParsing

inductive Selection where
  | index (i : Int)
  | slice (start stop step : Option Int)
  deriving DecidableEq, Repr

/-- Why nothing could be selected. -/
inductive SelectionError where
  | outOfRange
  | zeroStep
  deriving DecidableEq, Repr

def SelectionError.message : SelectionError → String
  | .outOfRange => "index out of range"
  | .zeroStep => "slice step cannot be zero"

/-- What was selected: one tree or several. -/
inductive Selected where
  | one (t : TokenTree)
  | several (ts : List TokenTree)
  deriving Repr

namespace Selection

/-- A bound of a slice, counted from the end if it is negative and kept between `low` and `high`. -/
def clamp (size low high : Int) (bound : Int) : Int :=
  let b := if bound < 0 then bound + size else bound
  max low (min high b)

/-- The numbers that a slice of a list of the given size selects, for a step that is not zero. -/
def places (size : Nat) (start stop : Option Int) (step : Int) : List Nat :=
  let n : Int := size
  if 0 < step then
    let a := (start.map (clamp n 0 n)).getD 0
    let b := (stop.map (clamp n 0 n)).getD n
    (List.range ((b - a + step - 1) / step).toNat).map fun (k : Nat) => (a + k * step).toNat
  else
    let a := (start.map (clamp n (-1) (n - 1))).getD (n - 1)
    let b := (stop.map (clamp n (-1) (n - 1))).getD (-1)
    (List.range ((a - b - step - 1) / (-step)).toNat).map fun (k : Nat) => (a + k * step).toNat

def apply (trees : List TokenTree) : Selection → Except SelectionError Selected
  | .index i =>
    let place := if i < 0 then i + trees.length else i
    match if place < 0 then none else trees[place.toNat]? with
    | some t => .ok (.one t)
    | none => .error .outOfRange
  | .slice start stop step =>
    let step := step.getD 1
    if step = 0 then .error .zeroStep
    else .ok (.several ((places trees.length start stop step).filterMap (trees[·]?)))

end Selection

end TokenParsing
