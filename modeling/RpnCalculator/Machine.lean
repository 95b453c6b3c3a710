import RpnCalculator.Vocabulary
import RpnCalculator.Value.Arithmetic
import RpnCalculator.Value.Functions
import RpnCalculator.Literal
import RpnCalculator.Source
import RpnCalculator.Stack
import RpnCalculator.Disk

/-!
# The calculator

A `Machine` is the whole state of a calculator: operands, sources of words, settings,
variables, messages not yet shown, and the files.

A word is carried out by `Machine.perform`.  That is a `Procedure`, which works on the
machine bit by bit, and what it has changed when it fails stays changed.  Each word
therefore looks at all it needs before it changes anything, and what it does after its first
change cannot fail.  `Machine.step` adds the message of a fault to the machine that the
fault left behind.

## What a word means

In this order: the empty word repeats the top; a builtin does what it does; a literal is
pushed; a variable is recalled; and any other word is dropped without a message.

## Running

`Machine.advance` takes one word, and `Machine.run` takes words until none is pending or
`quit` is read.  A script can include itself, so a run need not end.  The function takes a
bound on the number of words and has no answer when the bound is too small; a larger bound
never changes an answer (`Machine.run_mono`).
-/

namespace RpnCalculator

/-- Information that is not a fault. -/
inductive Notice where
  | banner
  | quitReminder
  deriving DecidableEq, Repr

/-- The version of the calculator. -/
def version : String := "0.1.0"

def Notice.text : Notice → String
  | .banner => "Clac version " ++ version ++ ", an RPN calculator"
  | .quitReminder => "Use 'quit' to terminate Clac"

/-- Something to be shown to the user. -/
inductive Message where
  | fault (f : Fault)
  | notice (n : Notice)
  deriving DecidableEq, Repr

/-- The line that shows a message. -/
def Message.line : Message → String
  | .fault f => "Error: " ++ f.message
  | .notice n => n.text

/-- How a run ends. -/
inductive Status where
  /-- No word is pending. -/
  | exhausted
  /-- The word `quit` was read. -/
  | stopped
  deriving DecidableEq, Repr

/-- The state of a calculator. -/
structure Machine where
  stack : Stack := []
  sources : Sources := []
  display : Display := {}
  /-- The variables. -/
  bindings : Directory Value := []
  /-- Messages to be shown, oldest first. -/
  messages : List Message := []
  disk : Disk := .empty
  /-- Whether `quit` was read. -/
  stopped : Bool := false

namespace Machine

/-! ## Arguments -/

/-- One more than the largest count. -/
def countLimit : Int := 18446744073709551616

/-- The count on top of the stack.  Anything that becomes an integer is a count if the
integer is not negative and not too large. -/
def count (m : Machine) : Except Fault Nat :=
  match m.stack.level 0 with
  | .error f => .error f
  | .ok top =>
    match top.convert m.display .integer with
    | .ok (.integer n) =>
      if n < 0 then .error (.domain .negativeCount)
      else if countLimit ≤ n then .error (.domain .countTooLarge)
      else .ok n.toNat
    | _ => .error (.wrongKind .integer top.kind)

/-- The string on top of the stack. -/
def name (m : Machine) : Except Fault String :=
  match m.stack.level 0 with
  | .error f => .error f
  | .ok (.string s) => .ok s
  | .ok v => .error (.wrongKind .string v.kind)

/-- A count of levels below it on the stack: there must be as many. -/
def levels (m : Machine) (least : Nat) : Except Fault Nat :=
  match m.count with
  | .error f => .error f
  | .ok n =>
    let n := max n least
    let available := m.stack.length - 1
    if available < n then .error (.tooShort n available) else .ok n

/-! ## Actions -/

/-- A computation on a machine. -/
abbrev Procedure := Effect Machine Fault

/-- Change the settings. -/
def configure (f : Display → Display) : Procedure Unit :=
  .change fun m => { m with display := f m.display }

/-- Put a value on the stack. -/
def push (m : Machine) (v : Value) : Machine := { m with stack := v :: m.stack }

/-- Put a value in the place of the top. -/
def replaceTop (v : Value) : Procedure Unit :=
  .change fun m => { m with stack := m.stack.put v }

/-- Take the top off, if there is one. -/
def pop : Procedure (Option Value) := fun m =>
  (.ok m.stack.head?, { m with stack := m.stack.tail })

/-- Take off a value that was looked at before. -/
def discard : Procedure Unit := do
  let _ ← pop

/-- Rearrange the stack as a whole. -/
def rearrange (f : Stack → Except Fault Stack) : Procedure Unit :=
  Effect.within stack (fun s m => { m with stack := s }) id (.attempt f)

/-- Work on the disk. -/
def onDisk {α : Type} (e : Effect Disk StorageFault α) : Procedure α :=
  e.within disk (fun disk m => { m with disk }) .storage

/-- Queue a message that is not of a fault. -/
def notify (n : Notice) : Procedure Unit :=
  .change fun m => { m with messages := m.messages ++ [.notice n] }

/-- What is to be included by the top of the stack: a script by its name, or a program. -/
def included (m : Machine) : Except Fault Source :=
  match m.stack.level 0 with
  | .error f => .error f
  | .ok (.string path) =>
    match m.disk.openScript path with
    | .ok bytes => .ok (.ofBytes bytes)
    | .error f => .error (.storage (.cannotOpen path f))
  | .ok (.program text) => .ok (.ofText text)
  | .ok v => .error (.wrongKind .string v.kind)

/-- The object that is stored at a path. -/
def stored (path : String) (m : Machine) : Except Fault Value :=
  match m.disk.readObject path with
  | .ok v => .ok v
  | .error f => .error (.storage f)

/-- The word on top of the stack, shifted. -/
def shifted (op : UnaryOperator) (m : Machine) : Except Fault Value :=
  match m.stack.level 0 with
  | .error f => .error f
  | .ok top =>
    if top.kind = .binary then op.apply m.display top
    else .error (.wrongKind .binary top.kind)

/-- Carry out an action. -/
def act : Action → Procedure Unit
  | .setBase base => configure ({ · with base })
  | .setAngle angle => configure ({ · with angle })
  | .setComplex complex => configure ({ · with complex })
  | .setFloat float => do
    let decimals ← .look count
    if Display.maxDecimals < decimals then .fail (.domain .tooManyDecimals)
    else
      discard
      configure ({ · with float, decimals })
  | .setWordSize => do
    let wordSize ← .look count
    if 1 ≤ wordSize ∧ wordSize ≤ Display.maxWordSize then
      discard
      configure ({ · with wordSize })
    else .fail (.domain .wordSizeOutOfRange)
  | .clear => .change fun m => { m with stack := [] }
  | .drop => rearrange Stack.discard
  | .dropCount => do
    let n ← .look (levels · 0)
    discard.times (n + 1)
  | .duplicate => do
    let v ← .look (·.stack.level 0)
    .change (·.push v)
  | .duplicateCount => do
    let n ← .look (levels · 0)
    discard
    Effect.times (do
      let v ← .look (·.stack.level (n - 1))
      .change (·.push v)) n
  | .swap => rearrange Stack.swap
  | .rotate => rearrange Stack.rotate
  | .rollUp => do
    let n ← .look (levels · 1)
    discard
    rearrange (Stack.rollUp n)
  | .rollDown => do
    let n ← .look (levels · 1)
    discard
    rearrange (Stack.rollDown n)
  | .includeSource => do
    let source ← .look included
    discard
    .change fun m => { m with sources := source :: m.sources }
  | .banner => notify .banner
  | .quitReminder => notify .quitReminder
  | .store => do
    let name ← .look name
    let _ ← .look (·.stack.level 1)
    discard
    match ← pop with
    | some v => .change fun m => { m with bindings := Directory.insert name v m.bindings }
    | none => pure ()
  | .purge => do
    let name ← .look name
    discard
    .change fun m => { m with bindings := Directory.erase name m.bindings }
  | .writeObject => do
    let path ← .look name
    let v ← .look (·.stack.level 1)
    onDisk (Disk.writeObject path v)
    discard
  | .readObject => do
    let path ← .look name
    let v ← .look (stored path)
    replaceTop v
  | .shiftLeft => do
    let v ← .look (shifted .shiftLeft)
    replaceTop v
  | .shiftRight => do
    let v ← .look (shifted .shiftRight)
    replaceTop v

/-! ## Words -/

/-- The result of an operator on the two top values. -/
def binaryResult (op : BinaryOperator) (m : Machine) : Except Fault Value :=
  match m.stack with
  | r :: l :: _ => op.apply m.display l r
  | _ => .error .underflow

/-- The result of an operator or a conversion on the top value. -/
def unaryResult (w : UnaryWord) (m : Machine) : Except Fault Value :=
  match m.stack with
  | [] => .error .underflow
  | v :: _ =>
    match w with
    | .apply op => op.apply m.display v
    | .convert target => v.convert m.display target

/-- Carry out a builtin word. -/
def execute : Builtin → Procedure Unit
  | .binary op => do
    let v ← .look (binaryResult op)
    discard
    replaceTop v
  | .unary w => do
    let v ← .look (unaryResult w)
    replaceTop v
  | .action a => act a

/-- Carry out a word that is no builtin: a literal, a variable, or nothing. -/
def performOther (m : Machine) (word : String) : Machine :=
  match Literal.parse m.display word with
  | .ok v => m.push v
  | .error _ =>
    match Directory.find? word m.bindings with
    | some v => m.push v
    | none => m

/-- Carry out a word. -/
def perform (word : String) : Procedure Unit :=
  if word = "" then act .duplicate
  else
    match Builtin.ofWord? word with
    | some b => execute b
    | none => .change (·.performOther word)

/-- Queue the message of a fault. -/
def report (m : Machine) (f : Fault) : Machine :=
  { m with messages := m.messages ++ [.fault f] }

/-- Carry out a word, or say why it fails. -/
def step (m : Machine) (word : String) : Machine :=
  match perform word m with
  | (.ok (), m') => m'
  | (.error f, m') => m'.report f

/-! ## Runs -/

/-- What taking a word comes to: the end of the run, or a machine that goes on. -/
inductive Turn where
  | ended (status : Status) (m : Machine)
  | running (m : Machine)

/-- Take one word. -/
def advance (m : Machine) : Turn :=
  if m.stopped then .ended .stopped m
  else
    match Sources.next? m.sources with
    | none => .ended .exhausted { m with sources := [] }
    | some (word, sources) =>
      if word = quitWord then .ended .stopped { m with sources, stopped := true }
      else .running (step { m with sources } word)

/-- Take words until the run ends, at most `bound` of them counting its end. -/
def run : Nat → Machine → Option (Status × Machine)
  | 0, _ => none
  | bound + 1, m =>
    match m.advance with
    | .ended status m => some (status, m)
    | .running m => run bound m

/-- A run that ends within a bound ends in the same way within a larger one. -/
theorem run_mono {bound larger : Nat} (h : bound ≤ larger) {m : Machine}
    {r : Status × Machine} (hr : m.run bound = some r) : m.run larger = some r := by
  induction bound generalizing larger m with
  | zero => exact absurd hr (by simp [run])
  | succ bound ih =>
    obtain ⟨k, rfl⟩ : ∃ k, larger = k + 1 := ⟨larger - 1, by omega⟩
    unfold run at hr ⊢
    cases ha : m.advance with
    | ended status m' => simpa [ha] using hr
    | running m' =>
      simp only [ha] at hr ⊢
      exact ih (by omega) hr

/-- The path of the file that the next word is about.  Words of no other kind look at the
disk, and none looks at more than what its path leads to. -/
def wanted? (m : Machine) : Option String :=
  match Sources.next? m.sources, m.stack with
  | some (word, _), .string path :: _ =>
    match Builtin.ofWord? word with
    | some (.action a) => if a.usesFile then some path else none
    | _ => none
  | _, _ => none

/-! ## Input -/

/-- Queue a line of words. -/
def submit (m : Machine) (line : String) : Machine :=
  { m with sources := .ofText line :: m.sources }

/-- Queue a script. -/
def includeFile (m : Machine) (path : String) : Except Fault Machine :=
  match m.disk.openScript path with
  | .ok bytes => .ok { m with sources := .ofBytes bytes :: m.sources }
  | .error f => .error (.storage (.cannotOpen path f))

/-- Queue a line and run. -/
def evaluate (bound : Nat) (m : Machine) (line : String) : Option (Status × Machine) :=
  (m.submit line).run bound

/-- Take the messages that are to be shown. -/
def takeMessages (m : Machine) : List Message × Machine := (m.messages, { m with messages := [] })

/-- The text of the top value. -/
def topText? (m : Machine) : Option String := m.stack.head?.map (Value.render m.display)

end Machine

end RpnCalculator
