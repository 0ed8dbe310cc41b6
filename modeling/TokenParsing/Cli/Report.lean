import TokenParsing.Cli.Options
import TokenParsing.Lexer
import TokenParsing.Text.Utf8

/-!
# Command line reports

A run reads one source and prints its trees, the list of its tokens, or what is left of it behind
some tokens. What it prints is a function of the arguments and of what stands under the name of the
source. Of a run that is refused or breaks off only the reason is kept, not the help text, the words of
the refusal or the trace that the user sees.
-/

namespace TokenParsing.Cli

/-- What a name stands for among the files, all through a run. -/
inductive Entry where
  | missing
  | directory
  /-- No file can have such a name. -/
  | tooLong
  /-- A folder on the way there may not be searched. -/
  | barred
  /-- It is there and may not be read. -/
  | unreadable
  /-- It is there and may be read, but opening or reading it goes wrong in some other way. -/
  | faulty
  | file (bytes : List UInt8)
  deriving DecidableEq, Repr

/-- Why a run breaks off without an error message. -/
inductive Crash where
  | directory
  | nameTooLong
  | notSearchable
  | readFailure
  | horizonTooLarge
  /-- A number is needed that was left blank. -/
  | blankNumber
  deriving DecidableEq, Repr

/-- What comes of a run: its exit status, its output, its log, and the crash if it did not end well.
-/
structure Report where
  exit : UInt8
  output : String := ""
  log : List String := []
  crash : Option Crash := none
  deriving DecidableEq, Repr

namespace Report

/-- Lines of text, each with its line end. -/
def ofLines (lines : List String) : String := String.join (lines.map (· ++ "\n"))

def success (lines : List String) (log : List String) : Report := ⟨0, ofLines lines, log, none⟩

def failure (lines : List String) (log : List String) : Report := ⟨1, ofLines lines, log, none⟩

/-- A run that breaks off behind some lines. -/
def crashed (c : Crash) (lines : List String) (log : List String) : Report :=
  ⟨1, ofLines lines, log, some c⟩

def refused : Refusal → Report
  | .help => ⟨0, "", [], none⟩
  | .usage => ⟨2, "", [], none⟩

end Report

def padRight (width : Nat) (s : String) : String :=
  s ++ String.ofList (List.replicate (width - s.length) ' ')

def padLeft (width : Nat) (s : String) : String :=
  String.ofList (List.replicate (width - s.length) ' ') ++ s

def kindName : Token.Kind → String
  | .delim => "DELIM"
  | .punct => "PUNCT"
  | .ident => "IDENT"
  | .literal => "LITERAL"

def tokenLine (p : Position) (t : Token) : String :=
  padLeft 5 (toString p.ordinal) ++ "  " ++ padRight 8 (kindName t.kind) ++ " " ++
    padRight 24 t.text ++ " " ++ t.span.describe

/-- The next tokens, at most `count`, each with the position in front of it. -/
def positioned : (count : Nat) → Stream → List (Position × Token)
  | 0, _ => []
  | count + 1, s =>
    match s.next with
    | (some t, s') => (s.position, t) :: positioned count s'
    | (none, _) => []

def treeLines (trees : List TokenTree) : List String :=
  [toString trees.length ++ " top-level token trees:", String.ofList (List.replicate 50 '='),
    TokenStream.render trees]

def tokenLines (trees : List TokenTree) (horizon : Int) : Except HorizonError (List String) := do
  let w ← Window.ofHorizon horizon
  let s : Stream := .lookahead w (.input (.ofTrees trees))
  let tokens := positioned (s.remaining + 1) s
  return tokens.map (fun e => tokenLine e.1 e.2) ++ ["", toString tokens.length ++ " tokens"]

def remainderLines (i : Input) : List String :=
  ["Remaining input after " ++ i.position.describe ++ ":",
    "  " ++ TokenStream.render i.intoTrees]

def nothingLeft : String := "Nothing left to report"

/-- The last line of the report on what is left of an input, with at most `limit` leaves of it, and what
the log says of that. -/
def trailingLine (i : Input) (limit : Int) :
    Except Text.Numeral.PrintError String × List String :=
  match (Leftover.ofSource? limit i).1 with
  | none => (.ok nothingLeft, [])
  | some l =>
    let log :=
      if l.isCut then
        ["DEBUG - diagnostic - trailing input truncated to " ++ toString limit ++ " of " ++
          toString l.total ++ " tokens"]
      else []
    (l.print.map Leftover.announce, log)

/-- Why bytes are no text, in words. -/
def decodingMessage (e : Text.Utf8.Fault) : String :=
  let cause := match e.cause with
    | .invalidStart => "invalid start byte"
    | .invalidContinuation => "invalid continuation byte"
    | .truncated => "unexpected end of data"
  let place :=
    if e.count = 1 then
      "byte 0x" ++ Text.hexPadded 2 e.lead.toNat ++ " in position " ++ toString e.start
    else
      "bytes in position " ++ toString e.start ++ "-" ++ toString (e.start + e.count - 1)
  "'utf-8' codec can't decode " ++ place ++ ": " ++ cause

/-- The report on the tokens of a source, with the log so far. -/
def reportTokens (trees : List TokenTree) (horizon : Amount) (log : List String) : Report :=
  match horizon with
  | .blank => .crashed .blankNumber [] log
  | .number k =>
    match tokenLines trees k with
    | .ok lines => .success lines log
    -- a horizon that was read has no more digits than can be printed
    | .error (.belowOne k) => .failure ["Error: " ++ (HorizonError.belowOne k).message] log
    | .error (.tooLarge _) => .crashed .horizonTooLarge [] log

/-- The report on what is left of an input, with the log so far. Its first lines are printed before the
last one is made. No limit is needed where nothing is left. -/
def reportRemainder (i : Input) (limit : Amount) (debug : Bool) (log : List String) : Report :=
  match limit with
  | .number n =>
    let (line, more) := trailingLine i n
    let log := log ++ if debug then more else []
    match line with
    | .ok line => .success (remainderLines i ++ [line]) log
    | .error e => .failure (remainderLines i ++ ["Error: " ++ e.message]) log
  | .blank =>
    if i.isEmpty then .success (remainderLines i ++ [nothingLeft]) log
    else .crashed .blankNumber (remainderLines i) log

def report (o : Options) (trees : List TokenTree) (log : List String) : Report :=
  if o.tokens then reportTokens trees o.lookahead log
  else
    match o.trailing with
    | some (.number skip) =>
      let i := (TokenSource.take skip.toNat (Input.ofTrees trees)).2
      reportRemainder i o.maxTrailing o.debug log
    | some .blank => .crashed .blankNumber [] log
    | none => .success (treeLines trees) log

/-- The report on the bytes of a source. -/
def reportBytes (o : Options) (bytes : List UInt8) : Report :=
  match Text.decodeUtf8 bytes with
  | .error e =>
    .failure ["Error: Cannot decode file '" ++ o.source ++ "': " ++ decodingMessage e,
      "  Hint: Make sure the file is a text file with UTF-8 encoding"] []
  | .ok chars =>
    match tokenize o.source (String.ofList (Text.unifyLineEnds chars)) with
    | .error e => .failure ["Error: " ++ e.describe] []
    | .ok trees =>
      let log :=
        if o.debug then
          ["DEBUG - token_tree - tokenized " ++ o.source ++ " into " ++ toString trees.length ++
            " top-level trees"]
        else []
      report o trees log

def reportEntry (o : Options) : Entry → Report
  | .missing => .failure ["Error: Source file '" ++ o.source ++ "' does not exist"] []
  | .directory => .crashed .directory [] []
  | .tooLong => .crashed .nameTooLong [] []
  | .barred => .crashed .notSearchable [] []
  | .unreadable =>
    .failure ["Error: Permission denied reading '" ++ o.source ++ "'",
      "  Hint: Make sure you have read permissions for this file"] []
  | .faulty => .crashed .readFailure [] []
  | .file bytes => reportBytes o bytes

/-- A run: `lookup` says what stands under a name. -/
def run (args : List String) (lookup : String → Entry) : Report :=
  match Options.ofArguments args with
  | .error e => .refused e
  | .ok o => reportEntry o (lookup o.source)

end TokenParsing.Cli
