/-!
# Reading numbers

Numbers from their digits.  Only the ASCII digits count; a digit of another script is
an ordinary character here.
-/

namespace RpnCalculator
namespace Text

def isDigit (c : Char) : Bool := '0' ≤ c && c ≤ '9'

/-- The value of a digit in any base up to sixteen, in either case. -/
def digitValue? (c : Char) : Option Nat :=
  if isDigit c then some (c.toNat - '0'.toNat)
  else if 'a' ≤ c && c ≤ 'f' then some (c.toNat - 'a'.toNat + 10)
  else if 'A' ≤ c && c ≤ 'F' then some (c.toNat - 'A'.toNat + 10)
  else none

def isHexDigit (c : Char) : Bool := (digitValue? c).isSome

/-- The number that digits of a base stand for, most significant first; none if one of
them is not a digit of that base. -/
def readBase? (base : Nat) : List Char → Option Nat :=
  go 0
where
  /-- The digits after those that gave `n`. -/
  go (n : Nat) : List Char → Option Nat
    | [] => some n
    | c :: cs =>
      match digitValue? c with
      | some v => if v < base then go (n * base + v) cs else none
      | none => none

/-- The number that decimal digits stand for. -/
def readDecimal (ds : List Char) : Nat := Nat.ofDigitChars 10 ds 0

/-- Whether there is at least one character and all are digits. -/
def isNumeral (cs : List Char) : Bool := !cs.isEmpty && cs.all isDigit

/-- A sign, taken off: whether it was a minus, and what follows it. -/
def splitSign : List Char → Bool × List Char
  | '-' :: cs => (true, cs)
  | '+' :: cs => (false, cs)
  | cs => (false, cs)

/-- An integer with an optional sign. -/
def readInteger? (cs : List Char) : Option Int :=
  let (negative, ds) := splitSign cs
  if isNumeral ds then
    some (if negative then -(readDecimal ds : Int) else readDecimal ds)
  else none

end Text
end RpnCalculator
