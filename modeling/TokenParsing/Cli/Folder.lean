import TokenParsing.Cli.Report

/-!
# Names in a folder

What a path stands for where the working folder holds some files and no other folder. Empty parts of
a path and single dots say nothing; two dots lead to a folder above, of which nothing more is known.
-/

namespace TokenParsing.Cli

/-- The files of a folder by name. -/
abbrev Folder := List (String × List UInt8)

namespace Folder

def maxPart : Nat := 255

def maxPath : Nat := 4095

/-- The parts of a path that say something. -/
def parts (path : List Char) : List (List Char) :=
  (path.splitOn '/').filter fun part => part ≠ [] ∧ part ≠ ['.']

/-- The number of bytes of a path that is put together again from its parts. -/
def size (parts : List (List Char)) : Nat :=
  ("/".intercalate (parts.map String.ofList)).utf8ByteSize

/-- What the parts of a path stand for, from the working folder. -/
def walk (folder : Folder) : List (List Char) → Entry
  | [] => .directory
  | [part] =>
    if part = ['.', '.'] then .directory
    else if maxPart < (String.ofList part).utf8ByteSize then .tooLong
    else (folder.lookup (String.ofList part)).elim .missing .file
  | part :: rest =>
    if part = ['.', '.'] then walk [] rest
    else if maxPart < (String.ofList part).utf8ByteSize then .tooLong
    else .missing

def lookup (folder : Folder) (path : String) : Entry :=
  let ps := parts path.toList
  if path.toList.contains '\x00' then .missing
  else if maxPath < size ps then .tooLong
  else if path.toList.head? = some '/' then walk [] ps
  else walk folder ps

end Folder

end TokenParsing.Cli
