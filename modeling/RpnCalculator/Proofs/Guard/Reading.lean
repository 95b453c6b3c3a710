import RpnCalculator.Proofs.Guard.Number
import RpnCalculator.Proofs.Object.Field
import RpnCalculator.Disk
import RpnCalculator.Literal

/-!
# Files and literals are read within their bounds

A stored object has a header of fixed length: a signature, the length of the payload, and a
tag.  The header is taken apart by position, and the positions are there because the length of
the file was looked at first.  Nothing is demanded of the bytes themselves, so a file can hold
what it likes.

Of the literals, a rational makes a fraction and a word is cut to the width in force.
-/

namespace RpnCalculator

namespace Guarded

open StoredObject (headerLength signature littleEndian)

/-! ## Objects -/

/-- The value of a stored object. -/
def decode (bytes : List UInt8) : Guarded (Except StorageFault Value) :=
  if bytes.length < headerLength then pure (.error .notAnObject)
  else do
    let front ← slice bytes 0 signature.length
    if front ≠ signature then pure (.error .notAnObject)
    else do
      let field ← slice bytes signature.length (signature.length + 8)
      -- the field is copied to one of its size
      let field ← demand (field.length = 8) (.slice 0 8 field.length) field
      let held ← sliceFrom bytes headerLength
      let length := littleEndian field
      if held.length ≠ length then pure (.error (.lengthMismatch length held.length))
      else do
        let place ← subtract headerLength 1
        let tag ← item bytes place
        match Kind.ofIndex? tag.toNat with
        | none => pure (.error (.unknownTag tag.toNat))
        | some kind => pure (StoredObject.valueTagged kind held)

/-- A number is read if there are enough bytes. -/
theorem number_eq_ok {size : Nat} {bytes : List UInt8} (h : size ≤ bytes.length) :
    StoredObject.Reader.number size bytes =
      .ok (littleEndian (bytes.take size), bytes.drop size) := by
  induction size generalizing bytes with
  | zero => rfl
  | succ size ih =>
    cases bytes with
    | nil => cases h
    | cons b bytes =>
      have hrest := ih (Nat.le_of_succ_le_succ h)
      rw [StoredObject.Reader.number, StoredObject.Reader.bind_apply]
      simp only [StoredObject.Reader.byte, StoredObject.Reader.bind_apply, hrest]
      rfl

/-- **A file is taken apart within its length**, whatever it holds. -/
theorem decode_eq (bytes : List UInt8) : decode bytes = .ok (StoredObject.decode bytes) := by
  have hsignature : signature.length = 10 := rfl
  by_cases hlen : bytes.length < headerLength
  · rw [decode, if_pos hlen, StoredObject.decode, if_pos (.inl hlen)]
    rfl
  have hheader : 19 ≤ bytes.length := Nat.le_of_not_lt hlen
  have hfront : slice bytes 0 signature.length = .ok (bytes.take signature.length) := by
    rw [slice_eq (Nat.zero_le _) (by omega), List.drop_zero]
  by_cases hsig : bytes.take signature.length ≠ signature
  · rw [decode, if_neg hlen, hfront, ok_bind, if_pos hsig, StoredObject.decode,
      if_pos (.inr hsig)]
    rfl
  have hfield : slice bytes signature.length (signature.length + 8) =
      .ok ((bytes.drop signature.length).take 8) := by
    rw [slice_eq (by omega) (by omega), List.drop_take, Nat.add_sub_cancel_left]
  have hsize : ((bytes.drop signature.length).take 8).length = 8 := by
    rw [List.length_take, List.length_drop]
    omega
  have hheld : sliceFrom bytes headerLength = .ok (bytes.drop headerLength) := sliceFrom_eq hheader
  have htag : item bytes (headerLength - 1) =
      .ok (((bytes.drop signature.length).drop 8).headD 0) := by
    have hplace : signature.length + 8 < bytes.length := by omega
    rw [List.drop_drop, List.drop_eq_getElem_cons hplace]
    exact item_eq hplace
  have hlong : 8 ≤ (bytes.drop signature.length).length := by
    rw [List.length_drop]
    omega
  rw [decode, if_neg hlen, hfront, ok_bind, if_neg hsig, hfield, ok_bind, demand_eq hsize, ok_bind,
    hheld, ok_bind, StoredObject.decode, if_neg (not_or.mpr ⟨hlen, hsig⟩), number_eq_ok hlong]
  dsimp only
  split
  · rfl
  · rw [subtract_eq (by decide), ok_bind, htag, ok_bind]
    cases Kind.ofIndex? (((bytes.drop signature.length).drop 8).headD 0).toNat <;> rfl

/-- Fetch a value. -/
def readObject (disk : Disk) (path : String) : Guarded (Except StorageFault Value) :=
  match disk.fileBytes path with
  | .ok bytes => decode bytes
  | .error f => pure (.error (.cannotRead path f))

theorem readObject_eq (disk : Disk) (path : String) :
    readObject disk path = .ok (disk.readObject path) := by
  unfold readObject Disk.readObject
  cases disk.fileBytes path with
  | ok bytes => exact decode_eq bytes
  | error f => rfl

/-! ## Literals -/

/-- The value of a literal other than a string, by its characters. -/
def readChars? (d : Display) (cs : List Char) : Guarded (Option (Except Fault Value)) :=
  match Text.readInteger? cs with
  | some n => pure (some (.ok (.integer n)))
  | none =>
  match Decimal.read? cs with
  | some x => pure (x.toDouble?.map fun y => .ok (.float y))
  | none =>
  match Literal.splitRatio? cs with
  | some (n, m) => do
    let v ← ratio n m
    pure (some v)
  | none =>
  match Literal.splitPair? cs with
  | some (first, polar, second) =>
    match Literal.readReal? first, Literal.readReal? second with
    | some x, some y => pure (some (.ok (.complex (Literal.complexOf d polar x y))))
    | _, _ => pure none
  | none =>
  match (Literal.splitWord? d cs).bind fun (digits, base) => Literal.readWord? digits base with
  | some n => do
    let v ← ofWord d n
    pure (some (.ok v))
  | none => pure none

theorem readChars?_eq (d : Display) (cs : List Char) :
    readChars? d cs = .ok (Literal.readChars? d cs) := by
  unfold readChars? Literal.readChars?
  cases Text.readInteger? cs with
  | some n => rfl
  | none =>
  cases Decimal.read? cs with
  | some x => rfl
  | none =>
  rcases Literal.splitRatio? cs with _ | ⟨n, m⟩
  · rcases Literal.splitPair? cs with _ | ⟨first, polar, second⟩
    · rcases Literal.splitWord? d cs with _ | ⟨digits, base⟩
      · rfl
      · dsimp only [Option.bind_some]
        cases Literal.readWord? digits base with
        | none => rfl
        | some n =>
          dsimp only
          rw [ofWord_eq]
          rfl
    · dsimp only
      cases Literal.readReal? first <;> cases Literal.readReal? second <;> rfl
  · dsimp only
    rw [ratio_eq]
    rfl

/-- The value of a literal. -/
def parse (d : Display) (word : String) : Guarded (Except Fault Value) :=
  match word.toList with
  | '"' :: cs => pure (.ok (.string (String.ofList (Literal.dropQuote cs))))
  | cs => do
    let v ← readChars? d cs
    pure (v.getD (.error (.unrecognized word)))

/-- **Every word can be read as a literal**, or it is none. -/
theorem parse_eq (d : Display) (word : String) : parse d word = .ok (Literal.parse d word) := by
  unfold parse
  split
  · rename_i cs hcs
    rw [Literal.parse, hcs]
    rfl
  · rename_i hplain
    rw [readChars?_eq, ok_bind, Literal.parse]
    split
    · rename_i cs hcs
      exact (hplain cs hcs).elim
    · rfl

end Guarded

end RpnCalculator
