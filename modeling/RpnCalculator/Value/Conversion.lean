import RpnCalculator.Value.Rendering

/-!
# Conversion between kinds

`Value.convert` brings a value to a kind.  Among the numbers,

* an integer, a rational or a float becomes a word by dropping its fraction and keeping
  the low bits of what is left, in two's complement;
* a float becomes an integer by dropping its fraction, and a rational exactly, which an
  infinity or a NaN cannot;
* anything but a complex number becomes a complex number with imaginary part zero, and a
  complex number becomes nothing else.

Sequences are taken apart and put together: a matrix is a list of lists, a directory a
list of labeled values, a vector a list.  Everything has a text, and only a text becomes
a program.

A value of the target kind is returned as it is, except that a word loses the bits that
the width in force does not show.
-/

namespace RpnCalculator

namespace Value

/-- The word congruent to an integer. -/
def ofIntegerWord (d : Display) (n : Int) : Value := ofWord d (n % (d.modulus : Int)).toNat

/-- The rows of a matrix made from list items, each of which must be a sequence. -/
def rowsOf : List Value → Except Fault (List (List Value))
  | [] => .ok []
  | v :: vs =>
    match v with
    | .list row | .vector row => (rowsOf vs).map (row :: ·)
    | other => .error (.wrongKind .listOfRows other.kind)

/-- The entries of a directory made from list items, each of which must be labeled. -/
def entriesOf : List Value → Except Fault (List (String × Value))
  | [] => .ok []
  | v :: vs =>
    match v with
    | .labeled name value => (entriesOf vs).map ((name, value) :: ·)
    | other => .error (.wrongKind .labeledEntry other.kind)

/-- The exact value of a finite float. -/
def exactly (x : Double) : Except Fault Rat :=
  match x.toRat? with
  | some q => .ok q
  | none => .error (.domain .notFinite)

/-- The integer part of a finite float. -/
def wholePart (x : Double) : Except Fault Int :=
  match x.toInt? with
  | some n => .ok n
  | none => .error (.domain .notFinite)

def toBinary (d : Display) : Value → Except Fault Value
  | .integer n => .ok (ofIntegerWord d n)
  | .rational q => .ok (ofIntegerWord d q.toInt)
  | .float x => (wholePart x).map (ofIntegerWord d)
  | v => .error (.noConversion v.kind .binary)

def toComplex (d : Display) : Value → Except Fault Value
  | .binary bits => .ok (.complex (.ofReal (.ofNat (d.word bits))))
  | .float x => .ok (.complex (.ofReal x))
  | .integer n => .ok (.complex (.ofReal (.ofInt n)))
  | .rational q => .ok (.complex (.ofReal (.ofRat q.toRat)))
  | v => .error (.noConversion v.kind .complex)

def toFloat (d : Display) : Value → Except Fault Value
  | .binary bits => .ok (.float (.ofNat (d.word bits)))
  | .integer n => .ok (.float (.ofInt n))
  | .rational q => .ok (.float (.ofRat q.toRat))
  | v => .error (.noConversion v.kind .float)

def toInteger (d : Display) : Value → Except Fault Value
  | .binary bits => .ok (.integer (d.word bits))
  | .float x => (wholePart x).map .integer
  | .rational q => .ok (.integer q.toInt)
  | v => .error (.noConversion v.kind .integer)

def toRational (d : Display) : Value → Except Fault Value
  | .binary bits => .ok (.rational (.ofInt (d.word bits)))
  | .integer n => .ok (.rational (.ofInt n))
  | .float x => (exactly x).map ofRat
  | v => .error (.noConversion v.kind .rational)

def toList : Value → Except Fault Value
  | .vector items => .ok (.list items)
  | .matrix rows => .ok (.list (rows.map .list))
  | .directory entries => .ok (.list (entries.map fun e => .labeled e.1 e.2))
  | v => .error (.noConversion v.kind .list)

def toMatrix : Value → Except Fault Value
  | .vector items => .ok (.matrix [items])
  | .list items =>
    match rowsOf items with
    | .ok rows => ofRows rows
    | .error f => .error f
  | v => .error (.noConversion v.kind .matrix)

def toDirectory : Value → Except Fault Value
  | .list items => (entriesOf items).map fun es => .directory (Directory.ofList es)
  | v => .error (.noConversion v.kind .directory)

def toText (d : Display) : Value → Value
  | .program text => .string text
  | v => .string (v.render d)

def toProgram : Value → Except Fault Value
  | .string text => .ok (.program text)
  | v => .error (.noConversion v.kind .program)

def toVector : Value → Except Fault Value
  | .list items => .ok (.vector items)
  | v => .error (.noConversion v.kind .vector)

/-- A value seen through the width in force: a word loses its hidden bits. -/
def settle (d : Display) : Value → Value
  | .binary bits => ofWord d (d.word bits)
  | v => v

/-- The value as one of the target kind. -/
def convert (d : Display) (target : Kind) (v : Value) : Except Fault Value :=
  if v.kind = target then .ok (v.settle d)
  else
    match target with
    | .binary => v.toBinary d
    | .complex => v.toComplex d
    | .directory => v.toDirectory
    | .float => v.toFloat d
    | .integer => v.toInteger d
    | .labeled => .error (.noConversion v.kind .labeled)
    | .list => v.toList
    | .matrix => v.toMatrix
    | .program => v.toProgram
    | .rational => v.toRational d
    | .string => .ok (v.toText d)
    | .vector => v.toVector

theorem convert_self {d : Display} {v : Value} : v.convert d v.kind = .ok (v.settle d) := by
  simp [convert]

end Value

end RpnCalculator
