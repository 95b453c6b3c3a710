import RpnCalculator.Value.Basic
import RpnCalculator.Display
import RpnCalculator.Number.Notation

/-!
# Writing values

The text of a value under given display settings.  Brackets tell the kinds apart:
`{ … }` is a list, `[ … ]` a vector or a matrix, `<< … >>` a program, `#…h` a word.
Items are separated by single blanks, and a sequence without items keeps one blank.

Integers, rationals and words can be read back from their text; the other kinds are
written for the eye.
-/

namespace RpnCalculator

/-! ## Numbers -/

/-- A fraction, as it is stored. -/
def Fraction.text (q : Fraction) : List Char :=
  Text.writeInteger q.num ++ '/' :: Text.writeInteger q.den

namespace Display

/-- A word: its visible part in the base in force, between `#` and the letter of the
base. -/
def wordText (d : Display) (bits : UInt32) : List Char :=
  '#' :: (Nat.toDigits d.base.radix (d.word bits)).map Char.toUpper ++ [d.base.suffix]

/-- A decimal exponent: its sign and at least two digits. -/
def exponentText (e : Int) : List Char :=
  let ds := Text.writeDecimal e.natAbs
  'E' :: (if e < 0 then '-' else '+') :: (List.replicate (2 - ds.length) '0' ++ ds)

/-- A float in the form in force.  Infinities and NaNs have a word in every form. -/
def floatText (d : Display) (x : Double) : List Char :=
  if x.isNaN then ['n', 'a', 'n']
  else if x.isInfinite then x.sign ++ ['i', 'n', 'f']
  else
    match d.float with
    | .fixed => x.fixed d.decimals
    | .scientific => (x.scientific d.decimals).1 ++ exponentText (x.scientific d.decimals).2
    | .engineering => (x.engineering d.decimals).1 ++ exponentText (x.engineering d.decimals).2

/-- A complex number in the form in force. -/
def complexText (d : Display) (z : Complex) : List Char :=
  match d.complex with
  | .rectangular => '(' :: d.floatText z.re ++ [',', ' '] ++ d.floatText z.im ++ [')']
  | .polar =>
    '(' :: d.floatText z.norm ++ [' ', '@', ' '] ++ d.floatText (d.ofRadians z.arg) ++ [')']

end Display

/-! ## Values -/

namespace Value

mutual

/-- The characters of the text of a value. -/
def chars (d : Display) : Value → List Char
  | .binary bits => d.wordText bits
  | .complex z => d.complexText z
  | .directory entries => "DIR \x7b".toList ++ entriesChars d entries ++ [' ', '}']
  | .float x => d.floatText x
  | .integer n => Text.writeInteger n
  | .labeled label v => label.toList ++ ':' :: ' ' :: chars d v
  | .list items => '{' :: itemsChars d items ++ [' ', '}']
  | .matrix rows => '[' :: rowsChars d rows ++ [' ', ']']
  | .program text => '<' :: '<' :: ' ' :: text.toList ++ [' ', '>', '>']
  | .rational q => q.text
  | .string text => text.toList
  | .vector items => '[' :: itemsChars d items ++ [' ', ']']

/-- The items, with a blank before each. -/
def itemsChars (d : Display) : List Value → List Char
  | [] => []
  | v :: vs => ' ' :: chars d v ++ itemsChars d vs

/-- The rows in brackets, with a blank before each. -/
def rowsChars (d : Display) : List (List Value) → List Char
  | [] => []
  | row :: rows => ' ' :: '[' :: itemsChars d row ++ [' ', ']'] ++ rowsChars d rows

/-- The entries, with a blank before each. -/
def entriesChars (d : Display) : List (String × Value) → List Char
  | [] => []
  | (name, v) :: rest =>
    ' ' :: name.toList ++ ':' :: ' ' :: chars d v ++ entriesChars d rest

end

/-- The text of a value. -/
def render (d : Display) (v : Value) : String := String.ofList (v.chars d)

end Value

end RpnCalculator
