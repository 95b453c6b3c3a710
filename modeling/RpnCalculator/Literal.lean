import RpnCalculator.Literal.Decimal
import RpnCalculator.Token
import RpnCalculator.Value.Conversion

/-!
# Literals

A word that stands for a value is written in one of six forms:

* `"text"`, with or without the second quote, is a string;
* digits, with or without a sign, are an integer;
* digits with a point or an exponent are a float;
* `n/d` is a rational;
* `(x,y)` is a complex number by its parts, and `(r@t)` by length and angle;
* `#digits` is a binary word, and a letter after the digits names their base.

No word has two of these forms, so the order in which they are tried does not matter.
A word of a form can still fail to be a literal: a float can be too large, and a digit
can be wrong for its base.  Only a rational over zero fails with a message of its own.

## The letter after a word

The letters `b` and `d` are also digits.  At the end of a word they name the base whenever
a digit precedes them: `#1d` is one in decimal, `#d` alone is thirteen.
-/

namespace RpnCalculator

namespace Literal

/-- A number part of a complex literal, with blanks around it. -/
def readReal? (cs : List Char) : Option Double :=
  (Decimal.read? (Text.trim cs)).bind Decimal.toDouble?

/-- Text after a quote, without one quote at its end. -/
def dropQuote (cs : List Char) : List Char :=
  if cs.getLast? = some '"' then cs.dropLast else cs

/-! ## Rationals -/

/-- The two numbers of `n/d`. -/
def splitRatio? (cs : List Char) : Option (Int × Nat) :=
  match cs.dropWhile (· != '/') with
  | _ :: ds =>
    if Text.isNumeral ds then
      (Text.readInteger? (cs.takeWhile (· != '/'))).map fun n => (n, Text.readDecimal ds)
    else none
  | [] => none

/-! ## Complex numbers -/

/-- A character that can occur in a number part. -/
def isPart (c : Char) : Bool := c != ',' && c != '@' && c != '(' && c != ')'

/-- The two parts of a complex literal, and whether they are length and angle. -/
def splitPair? : List Char → Option (List Char × Bool × List Char)
  | '(' :: cs =>
    let first := cs.takeWhile isPart
    match cs.dropWhile isPart with
    | sep :: cs =>
      let second := cs.takeWhile isPart
      if (sep = ',' ∨ sep = '@') ∧ first ≠ [] ∧ second ≠ [] ∧
          cs.dropWhile isPart = [')'] then
        some (first, sep == '@', second)
      else none
    | [] => none
  | _ => none

/-- A complex number by its parts, or by length and angle in the unit in force. -/
def complexOf (d : Display) (polar : Bool) (x y : Double) : Complex :=
  if polar then .ofPolar x (d.toRadians y) else ⟨x, y⟩

/-! ## Words -/

/-- Digits of a binary word and their base. -/
def splitWord? (d : Display) : List Char → Option (List Char × Base)
  | '#' :: cs =>
    let body := cs.dropLast
    match cs.getLast? with
    | none => none
    | some c =>
      if (c = 'h' ∨ c = 'd' ∨ c = 'o' ∨ c = 'b') ∧ body ≠ [] ∧ body.all Text.isHexDigit then
        (Base.ofSuffix? c).map fun base => (body, base)
      else if cs.all Text.isHexDigit then some (cs, d.base)
      else none
  | _ => none

/-- One more than the largest number that a binary literal can denote. -/
def wordLimit : Nat := 18446744073709551616

/-- The number of a binary word, if its digits fit its base and it is not too large. -/
def readWord? (digits : List Char) (base : Base) : Option Nat :=
  match Text.readBase? base.radix digits with
  | some n => if n < wordLimit then some n else none
  | none => none

/-! ## All literals -/

/-- The value of a literal other than a string, by its characters. -/
def readChars? (d : Display) (cs : List Char) : Option (Except Fault Value) :=
  match Text.readInteger? cs with
  | some n => some (.ok (.integer n))
  | none =>
  match Decimal.read? cs with
  | some x => x.toDouble?.map fun y => .ok (.float y)
  | none =>
  match splitRatio? cs with
  | some (n, m) => some (Value.ofRatio n m)
  | none =>
  match splitPair? cs with
  | some (first, polar, second) =>
    match readReal? first, readReal? second with
    | some x, some y => some (.ok (.complex (complexOf d polar x y)))
    | _, _ => none
  | none =>
  match splitWord? d cs with
  | some (digits, base) => (readWord? digits base).map fun n => .ok (.ofWord d n)
  | none => none

/-- The value of a literal. -/
def parse (d : Display) (word : String) : Except Fault Value :=
  match word.toList with
  | '"' :: cs => .ok (.string (String.ofList (dropQuote cs)))
  | cs => (readChars? d cs).getD (.error (.unrecognized word))

end Literal

end RpnCalculator
