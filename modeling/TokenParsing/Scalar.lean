import TokenParsing.Text.Quoted

/-!
# Arguments from outside

What is asked for comes as an argument that may be of any simple kind, and not only a text. A
message about an argument shows it as it was given.
-/

namespace TokenParsing

/-- An argument as it comes from outside. -/
inductive Scalar where
  | null
  | bool (b : Bool)
  | int (n : Int)
  | text (s : String)
  deriving DecidableEq, Repr

namespace Scalar

def plain : Scalar → String
  | .null => "None"
  | .bool true => "True"
  | .bool false => "False"
  | .int n => toString n
  | .text s => s

/-- An argument in a message, texts between quotes. -/
def describe : Scalar → String
  | .text s => Text.quoted s
  | s => s.plain

end Scalar

end TokenParsing
