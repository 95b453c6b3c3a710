import RpnCalculator.Object.Encoding
import RpnCalculator.Value.WellFormed

/-!
# Reading stored objects

The reader takes parts off the front of a payload in the order in which the writer put
them there, and fails at the first that is not as it should be.  It is more liberal than
the writer in four places: bytes after the value are ignored, the digits of an integer
can end in zeros, a sign of zero makes any digits zero, and the entries of a directory
can come in any order and repeat a name.

`decode` reads the header first, and at the end refuses a value that breaks a rule
(`Value.flaw?`), so that everything that comes out of a file is well-formed.

## Depth

Values are nested as deeply as the bytes say.  Each level takes at least the four bytes of
its index, so a payload of `n` bytes is never nested deeper than `n`; the reader carries
that bound, and a payload that reached it would have no bytes left.
-/

namespace RpnCalculator

namespace StoredObject

/-- A reader takes a part off the front of some bytes. -/
def Reader (α : Type) := List UInt8 → Except Corruption (α × List UInt8)

namespace Reader

variable {α β : Type}

instance : Monad Reader where
  pure a := fun bytes => .ok (a, bytes)
  bind r f := fun bytes =>
    match r bytes with
    | .ok (a, rest) => f a rest
    | .error e => .error e

/-- Fail, whatever the bytes are. -/
def fail (e : Corruption) : Reader α := fun _ => .error e

/-- One byte. -/
def byte : Reader UInt8
  | [] => .error .fieldCut
  | b :: rest => .ok (b, rest)

/-- A number of fixed size, least byte first. -/
def number : Nat → Reader Nat
  | 0 => pure 0
  | size + 1 => do
    let b ← byte
    let n ← number size
    pure (b.toNat + 256 * n)

/-- The same part several times. -/
def times (r : Reader α) : Nat → Reader (List α)
  | 0 => pure []
  | n + 1 => do
    let a ← r
    let as ← times r n
    pure (a :: as)

/-- Exactly `n` bytes, for a text. -/
def bytes (n : Nat) : Reader (List UInt8) := fun input =>
  if input.length < n then .error .textCut else .ok (input.splitAt n)

def text : Reader String := do
  let n ← number 8
  let bs ← bytes n
  match Utf8.decode bs with
  | .ok s => pure s
  | .error f => fail (.notText f)

def double : Reader Double := do
  let n ← number 8
  pure ⟨UInt64.ofNat n⟩

/-- The number with the given digits, least first. -/
def ofDigits : List Nat → Nat
  | [] => 0
  | d :: ds => d + digitBase * ofDigits ds

def integer : Reader Int := do
  let b ← byte
  if b = 0 ∨ b = 1 ∨ b = 255 then
    let n ← number 8
    let ds ← times (number 4) n
    pure (if b = 0 then 0 else if b = 1 then ofDigits ds else -(ofDigits ds : Int))
  else fail (.unknownSign (if b.toNat < 128 then b.toNat else (b.toNat : Int) - 256))

/-- A fraction as it was written, over anything but zero. -/
def fraction : Reader Fraction := do
  let num ← integer
  let den ← integer
  if den = 0 then fail .zeroDenominator else pure ⟨num, den⟩

/-- A count, and that many parts. -/
def sequence (r : Reader α) : Reader (List α) := do
  let n ← number 8
  times r n

/-- A name and a value. -/
def entry (r : Reader α) : Reader (String × α) := do
  let name ← text
  let v ← r
  pure (name, v)

/-- What a value of a kind holds, by a reader for the values in it. -/
def content (r : Reader Value) : Kind → Reader Value
  | .binary => do
    let n ← number 4
    pure (.binary (UInt32.ofNat n))
  | .complex => do
    let re ← double
    let im ← double
    pure (.complex ⟨re, im⟩)
  | .directory => do
    let entries ← sequence (entry r)
    pure (.directory (Directory.ofList entries))
  | .float => do
    let x ← double
    pure (.float x)
  | .integer => do
    let n ← integer
    pure (.integer n)
  | .labeled => do
    let label ← text
    let v ← r
    pure (.labeled label v)
  | .list => do
    let items ← sequence r
    pure (.list items)
  | .matrix => do
    let rows ← sequence (sequence r)
    pure (.matrix rows)
  | .program => do
    let s ← text
    pure (.program s)
  | .rational => do
    let q ← fraction
    pure (.rational q)
  | .string => do
    let s ← text
    pure (.string s)
  | .vector => do
    let items ← sequence r
    pure (.vector items)

/-- A value, nested less deep than a bound. -/
def value : Nat → Reader Value
  | 0 => fail .fieldCut
  | depth + 1 => do
    let index ← number 4
    match Kind.ofIndex? index with
    | none => fail (.unknownVariant index)
    | some kind => content (value depth) kind

end Reader

/-- The value of a payload; bytes after it are ignored. -/
def valueOfPayload (bytes : List UInt8) : Except Corruption Value :=
  (Reader.value (bytes.length + 1) bytes).map Prod.fst

/-- The value of a payload with a tag.  It must be of the kind that the tag names, and
well-formed. -/
def valueTagged (kind : Kind) (held : List UInt8) : Except StorageFault Value :=
  match valueOfPayload held with
  | .error e => .error (.corrupt e)
  | .ok v =>
    if v.kind ≠ kind then .error (.wrongTag kind v.kind)
    else
      match v.flaw? with
      | some f => .error (.flawed f)
      | none => .ok v

/-- The value of a stored object. -/
def decode (bytes : List UInt8) : Except StorageFault Value :=
  if bytes.length < headerLength ∨ bytes.take signature.length ≠ signature then
    .error .notAnObject
  else
    let held := bytes.drop headerLength
    match Reader.number 8 (bytes.drop signature.length) with
    | .error e => .error (.corrupt e)
    | .ok (length, rest) =>
      if held.length ≠ length then .error (.lengthMismatch length held.length)
      else
        let tag := (rest.headD 0).toNat
        match Kind.ofIndex? tag with
        | none => .error (.unknownTag tag)
        | some kind => valueTagged kind held

end StoredObject

end RpnCalculator
