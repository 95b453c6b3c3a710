import RpnCalculator.Value.Basic
import RpnCalculator.Text.Utf8

/-!
# Writing stored objects

A stored object is a header and a payload:

| bytes | content                                       |
|-------|-----------------------------------------------|
| 10    | the signature `CLAC FILE` and a control-Z      |
| 8     | the length of the payload, least byte first    |
| 1     | the tag, the index of the kind of the value    |
| rest  | the payload                                    |

The payload is the index of the kind in four bytes and then the parts of the value.  All
numbers of fixed size have their least byte first.  Text is its length in bytes and its
bytes, and a sequence its number of items and the items.  An integer is a sign byte, the
number of its digits in base `2 ^ 32`, and the digits, least first.

Nothing marks the end of a part, so a payload can only be read from the front, and that
is enough: each part says how much of what follows belongs to it.
-/

namespace RpnCalculator

namespace StoredObject

/-! ## Fixed sizes -/

/-- A number in a fixed number of bytes, least byte first. -/
def number : Nat → Nat → List UInt8
  | 0, _ => []
  | size + 1, n => UInt8.ofNat n :: number size (n / 256)

@[simp] theorem length_number (size n : Nat) : (number size n).length = size := by
  induction size generalizing n with
  | zero => rfl
  | succ size ih => simp [number, ih]

/-- A length or a count. -/
def count (n : Nat) : List UInt8 := number 8 n

def double (x : Double) : List UInt8 := number 8 x.bits.toNat

/-! ## Text and integers -/

/-- Text: its length in bytes, and its bytes. -/
def text (s : String) : List UInt8 := count (Utf8.encode s).length ++ Utf8.encode s

/-- One more than the largest digit of a stored integer. -/
def digitBase : Nat := 4294967296

/-- The digits of a number, least first; zero has none. -/
def digits (n : Nat) : List Nat :=
  if n = 0 then [] else n % digitBase :: digits (n / digitBase)
termination_by n
decreasing_by exact Nat.div_lt_self (by omega) (by decide)

/-- The byte for the sign of an integer: one, zero or minus one. -/
def signByte (n : Int) : UInt8 := if n = 0 then 0 else if 0 < n then 1 else 255

def integer (n : Int) : List UInt8 :=
  signByte n :: count (digits n.natAbs).length ++ (digits n.natAbs).flatMap (number 4)

/-! ## Values -/

mutual

/-- The payload of a value. -/
def payload : Value → List UInt8
  | .binary bits => number 4 Kind.binary.index ++ number 4 bits.toNat
  | .complex z => number 4 Kind.complex.index ++ double z.re ++ double z.im
  | .directory entries =>
    number 4 Kind.directory.index ++ count entries.length ++ entriesPayload entries
  | .float x => number 4 Kind.float.index ++ double x
  | .integer n => number 4 Kind.integer.index ++ integer n
  | .labeled label v => number 4 Kind.labeled.index ++ text label ++ payload v
  | .list items => number 4 Kind.list.index ++ count items.length ++ itemsPayload items
  | .matrix rows => number 4 Kind.matrix.index ++ count rows.length ++ rowsPayload rows
  | .program s => number 4 Kind.program.index ++ text s
  | .rational q => number 4 Kind.rational.index ++ integer q.num ++ integer q.den
  | .string s => number 4 Kind.string.index ++ text s
  | .vector items => number 4 Kind.vector.index ++ count items.length ++ itemsPayload items

def itemsPayload : List Value → List UInt8
  | [] => []
  | v :: vs => payload v ++ itemsPayload vs

/-- Rows, each with its number of items. -/
def rowsPayload : List (List Value) → List UInt8
  | [] => []
  | row :: rows => count row.length ++ itemsPayload row ++ rowsPayload rows

/-- Entries, each a name and a value. -/
def entriesPayload : List (String × Value) → List UInt8
  | [] => []
  | (name, v) :: rest => text name ++ payload v ++ entriesPayload rest

end

/-- The bytes that every object begins with. -/
def signature : List UInt8 := [0x43, 0x4C, 0x41, 0x43, 0x20, 0x46, 0x49, 0x4C, 0x45, 0x1A]

/-- The length of the header. -/
def headerLength : Nat := 19

/-- The bytes of a stored object. -/
def encode (v : Value) : List UInt8 :=
  signature ++ count (payload v).length ++ UInt8.ofNat v.kind.index :: payload v

end StoredObject

end RpnCalculator
