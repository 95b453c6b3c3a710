import RpnCalculator.Session
import RpnCalculator.Text.Typing

/-!
# The command line

Arguments are read from left to right, and the first that is wrong ends the reading, as
does a request for help or for the version.  A letter option can be joined to others
(`-dl2`), and a value can be joined to its option (`-l2`, `-l=2`, `--levels=2`) or be the
next argument.  The next argument is not a value if it looks like an option; a single
dash does not.

The calculator evaluates the words it is given, or a script, or what comes in, line by
line.  The first two are reported on once, the third after every line.  What comes in counts
as typed, so a backspace in it takes back what is before it (`Text.typed?`).
-/

namespace RpnCalculator

namespace CommandLine

/-! ## Arguments -/

/-- What the arguments ask for, each option at most once. -/
structure Options where
  debug : Bool := false
  eval : Option String := none
  file : Option String := none
  levels : Option Nat := none
  deriving DecidableEq, Repr

/-- The options that have a value. -/
inductive Setting where
  | eval
  | file
  | levels
  deriving DecidableEq, Repr

/-- What the arguments come to. -/
inductive Request where
  | start (options : Options)
  | help
  | version
  /-- The arguments are wrong. -/
  | usage
  deriving DecidableEq, Repr

/-- Whether an argument in the place of a value is an option instead. -/
def looksLikeOption (arg : List Char) : Bool := arg.head? == some '-' && arg != ['-']

/-- One more than the largest number of levels. -/
def levelLimit : Nat := 18446744073709551616

/-- A number of levels.  A plus sign in front of it is allowed. -/
def readLevels? (cs : List Char) : Option Nat :=
  let ds := if cs.head? = some '+' then cs.tail else cs
  if Text.isNumeral ds ∧ Text.readDecimal ds < levelLimit then some (Text.readDecimal ds)
  else none

/-- Give an option its value, unless it has one or the value is wrong for it. -/
def Options.set? (o : Options) (s : Setting) (value : List Char) : Option Options :=
  match s with
  | .eval =>
    if o.eval.isSome then none else some { o with eval := some (String.ofList value) }
  | .file =>
    if o.file.isSome ∨ value = [] then none
    else some { o with file := some (String.ofList value) }
  | .levels =>
    if o.levels.isSome then none
    else (readLevels? value).map fun n => { o with levels := some n }

/-- The option with a value that a letter names. -/
def settingOfLetter? : Char → Option Setting
  | 'e' => some .eval
  | 'f' => some .file
  | 'l' => some .levels
  | _ => none

/-- The option with a value that a name of several letters names. -/
def settingOfName? (name : List Char) : Option Setting :=
  if name = "eval".toList then some .eval
  else if name = "file".toList then some .file
  else if name = "levels".toList then some .levels
  else none

/-- How far an argument has been understood. -/
inductive Progress where
  /-- The argument is done. -/
  | next (options : Options)
  /-- The option needs the next argument as its value. -/
  | needs (options : Options) (setting : Setting)
  /-- Nothing after this counts. -/
  | done (request : Request)

/-- The option for debugging has no value, and is given once. -/
def Options.setDebug (o : Options) : Progress :=
  if o.debug then .done .usage else .next { o with debug := true }

/-- A value that is joined to its option. -/
def Options.setJoined (o : Options) (s : Setting) (value : List Char) : Progress :=
  match o.set? s value with
  | some o => .next o
  | none => .done .usage

/-- Letters after a dash. -/
def readLetters (o : Options) : List Char → Progress
  | [] => .next o
  | c :: cs =>
    if c = 'd' then
      match o.setDebug with
      | .next o => readLetters o cs
      | p => p
    else if c = 'h' then .done .help
    else if c = 'V' then .done .version
    else
      match settingOfLetter? c, cs with
      | none, _ => .done .usage
      | some s, [] => .needs o s
      | some s, '=' :: value => o.setJoined s value
      | some s, value => o.setJoined s value

/-- A name after two dashes, with or without a value. -/
def readName (o : Options) (cs : List Char) : Progress :=
  let name := cs.takeWhile (· != '=')
  let value := (cs.dropWhile (· != '=')).tail
  let joined := cs.any (· == '=')
  match settingOfName? name with
  | some s => if joined then o.setJoined s value else .needs o s
  | none =>
    if joined then .done .usage
    else if name = "debug".toList then o.setDebug
    else if name = "help".toList then .done .help
    else if name = "version".toList then .done .version
    else .done .usage

/-- One argument in the place of an option. -/
def readArgument (o : Options) : List Char → Progress
  | '-' :: '-' :: cs => readName o cs
  | '-' :: c :: cs => readLetters o (c :: cs)
  | _ => .done .usage

/-- The request when all arguments are read.  The words to evaluate and a script exclude
each other. -/
def Options.request (o : Options) : Request :=
  if o.eval.isSome && o.file.isSome then .usage else .start o

/-- All arguments, the first of which can be the value of an option before it. -/
def readArguments (o : Options) (pending : Option Setting) : List (List Char) → Request
  | [] => if pending.isSome then .usage else o.request
  | arg :: args =>
    match pending with
    | some s =>
      if looksLikeOption arg then .usage
      else
        match o.set? s arg with
        | some o => readArguments o none args
        | none => .usage
    | none =>
      if arg = ['-', '-'] then
        -- After two dashes alone come words that are no options, and there are none.
        if args = [] then o.request else .usage
      else
        match readArgument o arg with
        | .next o => readArguments o none args
        | .needs o s => readArguments o (some s) args
        | .done r => r

/-- What a list of arguments asks for. -/
def request (args : List String) : Request := readArguments {} none (args.map String.toList)

/-! ## Running -/

/-- What a run leaves behind. -/
structure Outcome where
  exitCode : Nat := 0
  stdout : String := ""
  stderr : String := ""
  disk : Disk

/-- Lines, each with its end. -/
def printed (lines : List String) : String := String.join (lines.map (· ++ "\n"))

/-- The exit code of a program that breaks off at a line it cannot read. -/
def brokenOff : Nat := 101

/-- The lines of the input as they were typed; none in the place of a line that cannot be
read. -/
def typedLines (input : String) : List (Option String) :=
  (Text.lines input.toList).map fun line => (Text.typed? line).map String.ofList

/-- Evaluate lines until one of them quits or cannot be read, and report after each.  The result
is the exit code, the output and the session after it. -/
def replay (bound : Nat) (s : Session) :
    List (Option String) → Option (Nat × List String × Session)
  | [] => some (0, [], s)
  | none :: _ => some (brokenOff, [], s)
  | some line :: rest =>
    match s.executeLine bound line with
    | none => none
    | some (status, s) =>
      match status with
      | .stopped => some (0, s.report)
      | .exhausted =>
        (replay bound s.report.2 rest).map fun (code, out, s') => (code, s.report.1 ++ out, s')

/-- The text that explains the options. -/
def helpText : String :=
  printed
    ["Reverse Polish calculator", "", "Usage: clac [OPTIONS]", "", "Options:",
      "  -d, --debug       Log dispatch decisions to stderr",
      "  -e, --eval WORDS  Evaluate WORDS, print the top of the stack and exit",
      "  -f, --file PATH   Evaluate a script file, print the top of the stack and exit",
      "  -l, --levels N    Number of stack levels shown (0 shows only the top)",
      "  -h, --help        Print help",
      "  -V, --version     Print version"]

/-- What comes of a script that cannot be opened. -/
def unopened (f : Fault) (disk : Disk) : Outcome :=
  { exitCode := 1, stderr := printed ["Error: " ++ f.message], disk }

/-- Start a calculator with the given options. -/
def start (bound : Nat) (o : Options) (input : String) (disk : Disk) : Option Outcome :=
  let s : Session := { machine := { disk }, levels := o.levels.getD 0 }
  match o.eval, o.file with
  | some words, _ =>
    (s.executeLine bound words).map fun (_, s) =>
      { stdout := printed s.report.1, disk := s.machine.disk }
  | none, some path =>
    (s.executeFile bound path).map fun
      | (.error f, s) => unopened f s.machine.disk
      | (.ok _, s) => { stdout := printed s.report.1, disk := s.machine.disk }
  | none, none =>
    (replay bound s (typedLines input)).map fun (exitCode, out, s) =>
      { exitCode, stdout := printed out, disk := s.machine.disk }

/-- What a request comes to before any word is read: a text that was asked for, the same text as a
complaint, or nothing if a calculator is started. -/
def reply (disk : Disk) : Request → Outcome
  | .start _ => { disk }
  | .help => { stdout := helpText, disk }
  | .version => { stdout := printed ["clac " ++ version], disk }
  | .usage => { exitCode := 2, stderr := helpText, disk }

/-- The whole command: arguments and input to output, exit code and files. -/
def run (bound : Nat) (args : List String) (input : String) (disk : Disk) : Option Outcome :=
  match request args with
  | .start o => start bound o input disk
  | r => some (reply disk r)

end CommandLine

end RpnCalculator
