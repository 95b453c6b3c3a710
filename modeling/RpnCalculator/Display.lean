import RpnCalculator.Number.Arithmetic

/-!
# Display settings

How values are shown, and the two settings that also enter computation: the
unit of angles and the width of binary words.

The width is a plain number here and is clamped to `1 … 32` wherever it is used
(`Display.width`).  A setting out of range therefore never has to be refused by
the arithmetic; the word that sets the width refuses it instead.

Angles are entered and shown in the unit in force and computed with in radians
(`Display.toRadians`, `Display.ofRadians`).  A half turn is 180 degrees or 200
gradians.  Both directions round twice, so going there and back need not give the
angle again; and a large angle in degrees is an infinity in radians, since it is
multiplied before it is divided.
-/

namespace RpnCalculator

/-- The unit of angles. -/
inductive AngleUnit where
  | radian
  | degree
  | gradian
  deriving DecidableEq, Repr

/-- The base in which binary words are written. -/
inductive Base where
  | decimal
  | binary
  | hexadecimal
  | octal
  deriving DecidableEq, Repr

namespace Base

def radix : Base → Nat
  | .decimal => 10
  | .binary => 2
  | .hexadecimal => 16
  | .octal => 8

/-- The letter written after the digits of a word. -/
def suffix : Base → Char
  | .decimal => 'd'
  | .binary => 'b'
  | .hexadecimal => 'h'
  | .octal => 'o'

/-- The base that a letter names, in either case. -/
def ofSuffix? : Char → Option Base
  | 'd' | 'D' => some .decimal
  | 'b' | 'B' => some .binary
  | 'h' | 'H' => some .hexadecimal
  | 'o' | 'O' => some .octal
  | _ => none

@[simp] theorem ofSuffix?_suffix (b : Base) : ofSuffix? b.suffix = some b := by
  cases b <;> rfl

theorem one_lt_radix (b : Base) : 1 < b.radix := by
  cases b <;> decide

end Base

/-- How a complex number is written: `(re, im)` or `(magnitude @ angle)`. -/
inductive ComplexForm where
  | rectangular
  | polar
  deriving DecidableEq, Repr

/-- How a float is written: with fixed decimals, with a mantissa and an exponent,
or with an exponent that is a multiple of three. -/
inductive FloatForm where
  | fixed
  | scientific
  | engineering
  deriving DecidableEq, Repr

/-- The settings of one calculator. -/
structure Display where
  angle : AngleUnit := .degree
  base : Base := .hexadecimal
  complex : ComplexForm := .rectangular
  float : FloatForm := .fixed
  /-- Decimals shown in every float form. -/
  decimals : Nat := 3
  /-- The width that was set for binary words, clamped where it is used. -/
  wordSize : Nat := 32
  deriving DecidableEq, Repr, Inhabited

namespace Display

/-- The largest width of a binary word. -/
def maxWordSize : Nat := 32

/-- The largest number of decimals that can be asked for. -/
def maxDecimals : Nat := 20

/-- The width in force. -/
def width (d : Display) : Nat := max 1 (min d.wordSize maxWordSize)

theorem one_le_width (d : Display) : 1 ≤ d.width := Nat.le_max_left ..

theorem width_le (d : Display) : d.width ≤ 32 := by
  unfold width maxWordSize
  omega

/-- The number of different words: two to the width. -/
def modulus (d : Display) : Nat := Nat.pow 2 d.width

theorem modulus_pos (d : Display) : 0 < d.modulus := Nat.pow_pos (by decide)

/-- The bits that a word of the width in force can have. -/
def mask (d : Display) : Nat := d.modulus - 1

/-- The visible part of stored bits. -/
def word (d : Display) (bits : UInt32) : Nat := bits.toNat % d.modulus

theorem word_lt (d : Display) (bits : UInt32) : d.word bits < d.modulus :=
  Nat.mod_lt _ d.modulus_pos

/-- The stored bits of a number: its low bits, as many as the width allows. -/
def bitsOf (d : Display) (n : Nat) : UInt32 := UInt32.ofNat (n % d.modulus)

theorem modulus_le (d : Display) : d.modulus ≤ 4294967296 :=
  Nat.pow_le_pow_right (n := 2) (by decide) d.width_le

/-- What is stored of a number is what is left of it modulo the number of words. -/
theorem toNat_bitsOf (d : Display) (n : Nat) : (d.bitsOf n).toNat = n % d.modulus :=
  UInt32.toNat_ofNat_of_lt' (Nat.lt_of_lt_of_le (Nat.mod_lt _ d.modulus_pos) d.modulus_le)

/-- Storing a number and looking at its visible part reduces it modulo the number
of words. -/
@[simp] theorem word_bitsOf (d : Display) (n : Nat) : d.word (d.bitsOf n) = n % d.modulus := by
  rw [word, toNat_bitsOf, Nat.mod_mod]

/-! ## Angles -/

/-- An angle in the unit in force, in radians. -/
def toRadians (d : Display) (x : Double) : Double :=
  match d.angle with
  | .radian => x
  | .degree => x * .pi / .ofNat 180
  | .gradian => x * .pi / .ofNat 200

/-- An angle in radians, in the unit in force. -/
def ofRadians (d : Display) (x : Double) : Double :=
  match d.angle with
  | .radian => x
  | .degree => x / .pi * .ofNat 180
  | .gradian => x / .pi * .ofNat 200

end Display

end RpnCalculator
