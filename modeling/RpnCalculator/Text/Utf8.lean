import RpnCalculator.Text.Digits

/-!
# UTF-8

Text and its bytes.  Decoding says where and how bytes fail to be text, because a
message shows both: the index of the first byte of the sequence that is wrong, and how
many bytes of it could still have been the start of a character.

The decoder reads byte by byte.  Inside a character it carries what the next byte may
be (`Unfinished`): most continuation bytes range over `80 … BF`, but after `E0`, `ED`, `F0`
and `F4` the first one is restricted, which is what excludes overlong forms, surrogates
and numbers beyond the last character.
-/

namespace RpnCalculator
namespace Utf8

/-- How bytes fail to be text. -/
inductive Fault where
  /-- The sequence at `start` is wrong after `length` bytes. -/
  | invalid (length start : Nat)
  /-- The bytes end inside the character at `start`. -/
  | incomplete (start : Nat)
  deriving DecidableEq, Repr

def Fault.message : Fault → String
  | .invalid length start =>
    "invalid utf-8 sequence of " ++ Text.ofNat length ++ " bytes from index " ++ Text.ofNat start
  | .incomplete start => "incomplete utf-8 byte sequence from index " ++ Text.ofNat start

/-! ## Encoding -/

/-- The bytes of a character. -/
def encodeChar (c : Char) : List UInt8 :=
  let n := c.toNat
  if n < 0x80 then [UInt8.ofNat n]
  else if n < 0x800 then [UInt8.ofNat (0xC0 + n / 64), UInt8.ofNat (0x80 + n % 64)]
  else if n < 0x10000 then
    [UInt8.ofNat (0xE0 + n / 4096), UInt8.ofNat (0x80 + n / 64 % 64),
      UInt8.ofNat (0x80 + n % 64)]
  else
    [UInt8.ofNat (0xF0 + n / 262144), UInt8.ofNat (0x80 + n / 4096 % 64),
      UInt8.ofNat (0x80 + n / 64 % 64), UInt8.ofNat (0x80 + n % 64)]

/-- The bytes of a text. -/
def encode (s : String) : List UInt8 := s.toList.flatMap encodeChar

/-! ## Decoding -/

/-- A character of which some bytes have been read. -/
structure Unfinished where
  /-- Index of its first byte. -/
  start : Nat
  /-- Bytes read so far. -/
  seen : Nat
  /-- Bytes still to come, less one. -/
  owed : Nat
  /-- The least and the greatest byte that may come next. -/
  low : Nat
  high : Nat
  /-- The bits read so far. -/
  value : Nat

/-- What the first byte `b` of a character of several bytes leaves to read. -/
def lead? (start b : Nat) : Option Unfinished :=
  if b < 0xC2 then none
  else if b < 0xE0 then some ⟨start, 1, 0, 0x80, 0xBF, b - 0xC0⟩
  else if b = 0xE0 then some ⟨start, 1, 1, 0xA0, 0xBF, 0⟩
  else if b = 0xED then some ⟨start, 1, 1, 0x80, 0x9F, 0xD⟩
  else if b < 0xF0 then some ⟨start, 1, 1, 0x80, 0xBF, b - 0xE0⟩
  else if b = 0xF0 then some ⟨start, 1, 2, 0x90, 0xBF, 0⟩
  else if b < 0xF4 then some ⟨start, 1, 2, 0x80, 0xBF, b - 0xF0⟩
  else if b = 0xF4 then some ⟨start, 1, 2, 0x80, 0x8F, 4⟩
  else none

/-- Decode bytes from index `i` on, possibly inside a character. -/
def decodeFrom : Nat → Option Unfinished → List UInt8 → Except Fault (List Char)
  | _, none, [] => .ok []
  | _, some p, [] => .error (.incomplete p.start)
  | i, none, b :: rest =>
    if b.toNat < 0x80 then
      (decodeFrom (i + 1) none rest).map (Char.ofNat b.toNat :: ·)
    else
      match lead? i b.toNat with
      | some p => decodeFrom (i + 1) (some p) rest
      | none => .error (.invalid 1 i)
  | i, some p, b :: rest =>
    if p.low ≤ b.toNat ∧ b.toNat ≤ p.high then
      let value := p.value * 64 + b.toNat % 64
      match p.owed with
      | 0 => (decodeFrom (i + 1) none rest).map (Char.ofNat value :: ·)
      | k + 1 => decodeFrom (i + 1) (some ⟨p.start, p.seen + 1, k, 0x80, 0xBF, value⟩) rest
    else .error (.invalid p.seen p.start)

/-- The text of some bytes. -/
def decode (bytes : List UInt8) : Except Fault String :=
  (decodeFrom 0 none bytes).map String.ofList

/-- The text of some bytes, if they are text. -/
def decode? (bytes : List UInt8) : Option String := (decode bytes).toOption

end Utf8
end RpnCalculator
