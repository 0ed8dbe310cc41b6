import TokenParsing.Text.CharClass

/-!
# Numerals

Whole numbers as a user types them: blanks around them, a sign in front, decimal digits of any
script, and single underscores between digits. A number with very many digits is neither read nor
printed.
-/

namespace TokenParsing.Text.Numeral

/-- The most digits that a number is read or printed with. -/
def maxDigits : Nat := 4300

/-- A blank beside a numeral. The ASCII information separators are no blanks here. -/
def isPadding (c : Char) : Bool :=
  isBlank c && !(28 ≤ c.toNat && c.toNat ≤ 31)

/-- The values of the digits; each underscore stands between two digits. -/
def digits? : List Char → Option (List Nat)
  | [] => none
  | [c] => (decimalValue? c).map ([·])
  | c :: '_' :: rest => do
    let d ← decimalValue? c
    let ds ← digits? rest
    pure (d :: ds)
  | c :: rest => do
    let d ← decimalValue? c
    let ds ← digits? rest
    pure (d :: ds)

/-- The number that a run of decimal digits stands for. -/
def value (digits : List Nat) : Nat :=
  digits.foldl (fun n d => 10 * n + d) 0

/-- An unsigned numeral. -/
def nat? (text : List Char) : Option Nat := do
  let ds ← digits? text
  if ds.length ≤ maxDigits then some (value ds) else none

/-- A numeral with its sign, if any. -/
def signed? : List Char → Option Int
  | '-' :: rest => (nat? rest).map fun n => -(n : Int)
  | '+' :: rest => (nat? rest).map Int.ofNat
  | text => (nat? text).map Int.ofNat

/-- The least number that has more digits. -/
def bound : Nat := Nat.pow 10 maxDigits

/-- Why a number cannot be printed. -/
inductive PrintError where
  | tooManyDigits
  deriving DecidableEq, Repr

def PrintError.message : PrintError → String
  | .tooManyDigits =>
    "Exceeds the limit (" ++ toString maxDigits ++ " digits) for integer string conversion; " ++
      "use sys.set_int_max_str_digits() to increase the limit"

/-- A number in decimal digits. Its sign is no digit. -/
def print (n : Int) : Except PrintError String :=
  if n.natAbs < bound then .ok (toString n) else .error .tooManyDigits

end Numeral

def int? (text : String) : Option Int :=
  let body := text.toList.dropWhile Numeral.isPadding
  Numeral.signed? (body.reverse.dropWhile Numeral.isPadding).reverse

end TokenParsing.Text
