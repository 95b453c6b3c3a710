import RpnCalculator.CommandLine

/-!
# The program

Arguments, input and files of the system on one side, `Machine` and `Session` on the
other.  The calculator is a function on values, and its files are a value as well, so
before a word that is about a file (`Machine.wanted?`) the program looks up what the path of
the word leads to, and after the word it saves what the word has written.

A write that the system refuses is carried out again on a disk that refuses, so that its
fault is reported like any other and nothing else is changed.
-/

namespace RpnCalculator

namespace Program

/-- What the system has at a path.  The name `.` can be opened in folders alone. -/
def lookAt (path : String) : IO (Option DiskEntry) := do
  match ← (IO.FS.readBinFile path).toBaseIO with
  | .ok bytes => return some (.file bytes.toList)
  | .error _ =>
    match ← (IO.FS.Handle.mk (path ++ "/.") .read).toBaseIO with
    | .ok _ => return some .folder
    | .error _ => return none

/-- What the system has on the way along a path, up to the first name that is not there. -/
def lookAlong (path : String) : IO (List (String × DiskEntry)) := do
  let mut found := #[]
  let mut along := if Disk.isAbsolute path then "/" else ""
  for name in Disk.names path do
    along := along ++ name
    match ← lookAt along with
    | some e => found := found.push (name, e)
    | none => break
    along := along ++ "/"
  return found.toList

/-- Put bytes in the place of a file, by way of a new file beside it. -/
def save (path : String) (bytes : List UInt8) : IO Unit := do
  let draft := path ++ "~"
  IO.FS.writeBinFile draft (ByteArray.mk bytes.toArray)
  IO.FS.rename draft path

/-- The machine with a disk that holds what the system has along a path, and nothing else. -/
def refresh (m : Machine) (path : String) : IO Machine := do
  let disk := Disk.roomFor path
  return { m with disk := disk.mount (disk.startOf path) (← lookAlong path) }

/-- Take one word. -/
def advance (m : Machine) : IO Machine.Turn := do
  match m.wanted? with
  | none => return m.advance
  | some path =>
    let m ← refresh m path
    match m.advance with
    | .ended status m => return .ended status m
    | .running m' =>
      match m.disk.written? m'.disk path with
      | none => return .running m'
      | some bytes =>
        match ← (save path bytes).toBaseIO with
        | .ok _ => return .running m'
        | .error _ =>
          match { m with disk := m.disk.refusing .inputOutput }.advance with
          | .ended status m' => return .ended status { m' with disk := m.disk }
          | .running m' => return .running { m' with disk := m.disk }

/-- Take words until the run ends. -/
partial def run (m : Machine) : IO (Status × Machine) := do
  match ← advance m with
  | .ended status m => return (status, m)
  | .running m => run m

/-- Print what there is to say without a report. -/
def printOutcome (out : CommandLine.Outcome) : IO UInt32 := do
  IO.print out.stdout
  IO.eprint out.stderr
  return UInt32.ofNat out.exitCode

/-- Print the report of a session. -/
def printReport (s : Session) : IO Session := do
  IO.print (CommandLine.printed s.report.1)
  return s.report.2

/-- Evaluate lines from the input until one of them quits or cannot be read. -/
partial def converse (s : Session) : IO UInt32 := do
  let line ← (← IO.getStdin).getLine
  if line = "" then return 0
  match Text.typed? (Text.dropEnd line.toList) with
  | none => return UInt32.ofNat CommandLine.brokenOff
  | some line =>
    let (status, m) ← run (s.machine.submit (String.ofList line))
    let s ← printReport { s with machine := m }
    if status = .stopped then return 0
    converse s

/-- Start a calculator with the given options. -/
def start (o : CommandLine.Options) : IO UInt32 := do
  let s : Session := { machine := {}, levels := o.levels.getD 0 }
  match o.eval, o.file with
  | some words, _ =>
    let (_, m) ← run (s.machine.submit words)
    let _ ← printReport { s with machine := m }
    return 0
  | none, some path =>
    match (← refresh s.machine path).includeFile path with
    | .error f => printOutcome (CommandLine.unopened f s.machine.disk)
    | .ok m =>
      let (_, m) ← run m
      let _ ← printReport { s with machine := m }
      return 0
  | none, none => converse s

end Program

end RpnCalculator

open RpnCalculator in
/-- The command. -/
def main (args : List String) : IO UInt32 := do
  match CommandLine.request args with
  | .start o => Program.start o
  | r => Program.printOutcome (CommandLine.reply .empty r)
