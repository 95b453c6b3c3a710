import RpnCalculator.Machine

/-!
# Sessions

What a terminal shows of a calculator.  After each line come the messages it caused, and
then the stack: the top value alone, or as many levels as were asked for, the deepest
first and each with its number and kind.
-/

namespace RpnCalculator

/-- A calculator and the number of stack levels to show; zero shows the top alone. -/
structure Session where
  machine : Machine := {}
  levels : Nat := 0

namespace Session

/-- Shown in the place of a value when there is none. -/
def emptyStack : String := "parameter stack empty"

/-- The top value, or a remark that there is none. -/
def topLine (s : Session) : String := s.machine.topText?.getD emptyStack

/-- A number, filled up with blanks to two places. -/
def levelNumber (n : Nat) : String :=
  let ds := Text.writeDecimal n
  String.ofList (List.replicate (2 - ds.length) ' ' ++ ds)

/-- A level of the stack with its number and kind. -/
def levelLine (d : Display) (n : Nat) (v : Value) : String :=
  levelNumber n ++ ": " ++ v.kind.abbreviation ++ " : " ++ v.render d

/-- The levels that are shown, the deepest first. -/
def stackView (s : Session) : List String :=
  ((s.machine.stack.take s.levels).mapIdx (levelLine s.machine.display)).reverse

/-- The stack as it is shown after the messages. -/
def stackLines (s : Session) : List String :=
  if s.levels = 0 ∨ s.machine.stack = [] then [s.topLine] else s.stackView

/-- Take the messages that are to be shown, as lines. -/
def takeMessages (s : Session) : List String × Session :=
  (s.machine.messages.map Message.line, { s with machine := s.machine.takeMessages.2 })

/-- The lines after a command: messages, then the stack. -/
def report (s : Session) : List String × Session :=
  let (lines, s') := s.takeMessages
  (lines ++ s.stackLines, s')

/-- Evaluate a line. -/
def executeLine (bound : Nat) (s : Session) (line : String) : Option (Status × Session) :=
  (s.machine.evaluate bound line).map fun (status, m) => (status, { s with machine := m })

/-- Evaluate a script. -/
def executeFile (bound : Nat) (s : Session) (path : String) :
    Option (Except Fault Status × Session) :=
  match s.machine.includeFile path with
  | .error f => some (.error f, s)
  | .ok m => (m.run bound).map fun (status, m) => (.ok status, { s with machine := m })

end Session

end RpnCalculator
