import TokenParsing.Lookahead
import TokenParsing.Leftover
import TokenParsing.Text.Numeral

/-!
# Command line options

Arguments are read from left to right. An argument is an option, by its full name or by the start of
it that fits no other option, or else an operand: everything behind a `--` is one. An option that
takes a number has it behind an equals sign or as the next operand; a `--` behind the equals sign
leaves the number blank. There is one operand, the source, and a `--` stands next to it or not at
all.

These are the rules of `argparse` up to 3.11.8 and 3.12.2. Later versions refuse a number that is left
blank, and take `-hx` for a call for help.
-/

namespace TokenParsing.Cli

inductive Opt where
  | help
  | tokens
  | trailing
  | lookahead
  | maxTrailing
  | debug
  deriving DecidableEq, Repr

namespace Opt

/-- All options, in the order that they are matched in. -/
def all : List Opt := [.help, .tokens, .trailing, .lookahead, .maxTrailing, .debug]

def name : Opt → String
  | .help => "--help"
  | .tokens => "--tokens"
  | .trailing => "--trailing"
  | .lookahead => "--lookahead"
  | .maxTrailing => "--max-trailing"
  | .debug => "--debug"

def takesNumber : Opt → Bool
  | .trailing | .lookahead | .maxTrailing => true
  | .help | .tokens | .debug => false

/-- The option of a name in full. -/
def ofName? (text : List Char) : Option Opt :=
  if text = ['-', 'h'] then some .help else all.find? (·.name.toList == text)

def startingWith (text : List Char) : List Opt := all.filter (text.isPrefixOf ·.name.toList)

end Opt

/-- What an option has for its number. -/
inductive Amount where
  | number (n : Int)
  /-- The number was left blank. Nothing is wrong with that until the number is needed. -/
  | blank
  deriving DecidableEq, Repr

/-- The amount that a text gives. -/
def Amount.ofText? (text : String) : Option Amount :=
  if text = "--" then some .blank else (Text.int? text).map .number

structure Options where
  source : String
  tokens : Bool := false
  trailing : Option Amount := none
  lookahead : Amount := .number Window.defaultHorizon
  maxTrailing : Amount := .number Leftover.defaultLimit
  debug : Bool := false
  deriving DecidableEq, Repr

/-- Why the arguments ask for nothing that could be done. -/
inductive Refusal where
  /-- How to use the program was asked for. -/
  | help
  | usage
  deriving DecidableEq, Repr

/-- An argument by itself. -/
inductive Word where
  | operand (text : String)
  | separator
  | option (o : Opt) (value : Option String)
  /-- It looks like an option and is none. -/
  | unknown
  deriving DecidableEq, Repr

namespace Word

def isNegativeNumber : List Char → Bool
  | '-' :: body =>
    let body := if body.getLast? = some '\n' then body.dropLast else body
    match body.dropWhile Text.isDecimal with
    | [] => !body.isEmpty
    | '.' :: places => !places.isEmpty && places.all Text.isDecimal
    | _ => false
  | _ => false

/-- The parts of an argument in front of and behind its first equals sign. -/
def splitValue (text : List Char) : List Char × Option String :=
  match text.dropWhile (· != '=') with
  | [] => (text, none)
  | _ :: value => (text.takeWhile (· != '='), some (String.ofList value))

/-- What stands behind the letter of a short option, as a value. More of the one letter there is,
`h`, asks for the same again and is no value. -/
def valueBehindLetter (tail : List Char) : Option String :=
  if !tail.isEmpty && tail.all (· = 'h') then none else some (String.ofList tail)

/-- What an argument with a dash in front is if it is not the name of an option. -/
def ofDashed (text : List Char) : Word :=
  if isNegativeNumber text || text.contains ' ' then .operand (String.ofList text) else .unknown

/-- An argument in front of any `--`. Two options that fit are a mistake. -/
def ofArgument (arg : String) : Except Refusal Word :=
  let text := arg.toList
  match text, Opt.ofName? text, splitValue text with
  | '-' :: _ :: _, some o, _ => .ok (.option o none)
  | '-' :: second :: rest, none, (name, value) =>
    match value, Opt.ofName? name with
    | some v, some o =>
      .ok (.option o (if second = '-' then some v else valueBehindLetter v.toList))
    | _, _ =>
      if second = '-' then
        match Opt.startingWith name with
        | [o] => .ok (.option o value)
        | [] => .ok (ofDashed text)
        | _ => .error .usage
      else if second = 'h' then .ok (.option .help (valueBehindLetter rest))
      else .ok (ofDashed text)
  | _, _, _ => .ok (.operand arg)

def ofArguments : List String → Except Refusal (List Word)
  | [] => .ok []
  | arg :: rest =>
    if arg = "--" then .ok (.separator :: rest.map .operand)
    else do
      let w ← ofArgument arg
      let ws ← ofArguments rest
      return w :: ws

end Word

/-- What has been read of the arguments: the source, if it is known; the other options; and whether
there was an argument too many. -/
structure Draft where
  source : Option String := none
  options : Options := { source := "" }
  surplus : Bool := false

namespace Draft

/-- An option without a number. -/
def setFlag (d : Draft) : Opt → Except Refusal Draft
  | .help => .error .help
  | .tokens => .ok { d with options := { d.options with tokens := true } }
  | .debug => .ok { d with options := { d.options with debug := true } }
  | _ => .error .usage

/-- An option with its number; the last one of a name counts. -/
def setNumber (d : Draft) (o : Opt) (text : String) : Except Refusal Draft :=
  match Amount.ofText? text, o with
  | some a, .trailing => .ok { d with options := { d.options with trailing := some a } }
  | some a, .lookahead => .ok { d with options := { d.options with lookahead := a } }
  | some a, .maxTrailing => .ok { d with options := { d.options with maxTrailing := a } }
  | _, _ => .error .usage

/-- An operand: the source if there is none yet. -/
def setSource (d : Draft) (text : String) : Draft :=
  if d.source.isNone then { d with source := some text } else { d with surplus := true }

/-- Reads the arguments that are left. -/
def read (d : Draft) : List Word → Except Refusal Draft
  | [] => .ok d
  | .option o (some value) :: rest => do
    let d ← if o.takesNumber then d.setNumber o value else throw .usage
    read d rest
  | .option o none :: .operand text :: rest =>
    if o.takesNumber then do
      let d ← d.setNumber o text
      read d rest
    else do
      let d ← d.setFlag o
      read d (.operand text :: rest)
  | .option o none :: rest => do
    let d ← d.setFlag o
    read d rest
  | .unknown :: rest => read { d with surplus := true } rest
  | .operand text :: .separator :: rest => read (d.setSource text) rest
  | .operand text :: rest => read (d.setSource text) rest
  | .separator :: .operand text :: rest => read (d.setSource text) rest
  | .separator :: rest => read { d with surplus := true } rest

end Draft

def Options.ofArguments (args : List String) : Except Refusal Options := do
  let d ← ({} : Draft).read (← Word.ofArguments args)
  match d.source, d.surplus with
  | some source, false => return { d.options with source }
  | _, _ => throw .usage

end TokenParsing.Cli
