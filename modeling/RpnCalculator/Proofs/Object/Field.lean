import Mathlib.Algebra.Group.Nat.Defs
import RpnCalculator.Proofs.Object.Reader
import RpnCalculator.Proofs.Text.Utf8

/-!
# Fields of a payload

What the readers of numbers, texts, integers and fractions give back, and what they take.

A number of fixed size and a text are told apart by every bit, so the part that was taken is
the one that would be written.  An integer is not: its digits can end in zeros, and a sign of
zero can stand before any digits.  What is written for an integer that was read is never
longer than what it was read from, and that is all that is needed of it here
(`takes_integer`).
-/

namespace RpnCalculator

namespace StoredObject

/-! ## Numbers -/

/-- The number that some bytes stand for, least byte first. -/
def littleEndian : List UInt8 → Nat
  | [] => 0
  | b :: bytes => b.toNat + 256 * littleEndian bytes

/-- A number that fits is what its bytes stand for. -/
theorem littleEndian_number {size n : Nat} (h : n < 256 ^ size) :
    littleEndian (number size n) = n := by
  induction size generalizing n with
  | zero =>
    rw [Nat.pow_zero, Nat.lt_one_iff] at h
    rw [h]
    rfl
  | succ size ih =>
    rw [Nat.pow_succ] at h
    have hrest : littleEndian (number size (n / 256)) = n / 256 := ih (by omega)
    rw [number, littleEndian, hrest, UInt8.toNat_ofNat']
    omega

/-- A byte that starts a number is its remainder. -/
theorem number_add_mul {size n : Nat} (b : UInt8) :
    number (size + 1) (b.toNat + 256 * n) = b :: number size n := by
  have hb := b.toNat_lt
  have hlow : UInt8.ofNat (b.toNat + 256 * n) = b := by
    rw [← UInt8.toNat_inj, UInt8.toNat_ofNat']
    omega
  rw [number, hlow, show (b.toNat + 256 * n) / 256 = n by omega]

namespace Reader

theorem gives_byte (b : UInt8) : Gives True byte b [b] := fun _ => .inl rfl

theorem takes_byte : Takes (fun b part => part = [b]) byte := by
  intro bytes b rest h
  cases bytes with
  | nil => cases h
  | cons b' bytes =>
    cases h
    exact ⟨[b], rfl, rfl, fun more => rfl⟩

/-- A number that fits is given back. -/
theorem gives_number {size n : Nat} (h : n < 256 ^ size) :
    Gives True (number size) n (StoredObject.number size n) := by
  induction size generalizing n with
  | zero =>
    rw [Nat.pow_zero, Nat.lt_one_iff] at h
    rw [h]
    exact Gives.pure 0
  | succ size ih =>
    rw [Nat.pow_succ] at h
    have hrest : Gives True (number size) (n / 256) (StoredObject.number size (n / 256)) :=
      ih (by omega)
    have hvalue : (UInt8.ofNat n).toNat + 256 * (n / 256) = n := by
      rw [UInt8.toNat_ofNat']
      omega
    have key : Gives True (number (size + 1)) ((UInt8.ofNat n).toNat + 256 * (n / 256))
        ([UInt8.ofNat n] ++ StoredObject.number size (n / 256)) :=
      (gives_byte _).andThen hrest.map
    rwa [hvalue] at key

/-- What was read as a number is written as that number. -/
theorem takes_number (size : Nat) :
    Takes (fun n part => n < 256 ^ size ∧ part = StoredObject.number size n) (number size) := by
  induction size with
  | zero => exact Takes.pure ⟨by decide, rfl⟩
  | succ size ih =>
    refine takes_byte.bind fun b part hpart => ih.bind fun n part' hpart' => Takes.pure ?_
    obtain ⟨hn, rfl⟩ := hpart'
    have hb := b.toNat_lt
    rw [hpart, List.append_nil, number_add_mul, Nat.pow_succ]
    exact ⟨by omega, rfl⟩

theorem gives_count {n : Nat} (h : n < 256 ^ 8) : Gives True (number 8) n (count n) :=
  gives_number h

/-- A float is given back to the last bit. -/
theorem gives_double (x : Double) : Gives True double x (StoredObject.double x) := by
  have hbits : (⟨UInt64.ofNat x.bits.toNat⟩ : Double) = x := by rw [UInt64.ofNat_toNat]
  have key : Gives True double ⟨UInt64.ofNat x.bits.toNat⟩ (StoredObject.double x) :=
    (gives_number x.bits.toNat_lt).map
  rwa [hbits] at key

theorem takes_double : Takes (fun x part => part = StoredObject.double x) double := by
  refine (takes_number 8).bind fun n part hpart => Takes.pure ?_
  obtain ⟨hn, rfl⟩ := hpart
  rw [List.append_nil, StoredObject.double, UInt64.toNat_ofNat_of_lt' hn]

/-! ## Texts -/

theorem gives_bytes (bs : List UInt8) : Gives True (bytes bs.length) bs bs := by
  intro rest
  rw [bytes, if_neg (by simp)]
  simp

theorem takes_bytes (n : Nat) : Takes (fun bs part => bs.length = n ∧ part = bs) (bytes n) := by
  intro input bs rest h
  unfold bytes at h
  split at h
  · cases h
  · rename_i hlen
    simp only [List.splitAt_eq, Except.ok.injEq, Prod.mk.injEq] at h
    obtain ⟨rfl, rfl⟩ := h
    have htake : (input.take n).length = n := by
      rw [List.length_take]
      omega
    refine ⟨input.take n, (List.take_append_drop n input).symm, ⟨htake, rfl⟩, fun more => ?_⟩
    have hgives := (gives_bytes (input.take n)).eq_ok more
    rwa [htake] at hgives

theorem gives_text {s : String} (h : (Utf8.encode s).length < 256 ^ 8) :
    Gives True text s (StoredObject.text s) := by
  refine (gives_count h).andThen fun rest => ?_
  rw [bind_apply, (gives_bytes _).eq_ok]
  simp only [Utf8.decode_encode, pure_apply, true_or]

/-- What was read as a text is written as that text, and is not too long for its count. -/
theorem takes_text_lt :
    Takes (fun s part => (Utf8.encode s).length < 256 ^ 8 ∧ part = StoredObject.text s) text := by
  refine (takes_number 8).bind fun n part hpart => (takes_bytes n).bind fun bs part' hpart' => ?_
  obtain ⟨hn, rfl⟩ := hpart
  obtain ⟨hlen, rfl⟩ := hpart'
  cases hdecode : Utf8.decode part' with
  | error f => exact Takes.fail _
  | ok s =>
    refine Takes.pure ?_
    rw [List.append_nil, StoredObject.text, Utf8.encode_of_decode hdecode, hlen, count]
    exact ⟨hn, rfl⟩

theorem takes_text : Takes (fun s part => part = StoredObject.text s) text :=
  takes_text_lt.imp fun _ _ h => h.2

end Reader

/-! ## Integers -/

/-- The digits of a number stand for it. -/
theorem ofDigits_digits (n : Nat) : Reader.ofDigits (digits n) = n := by
  unfold digits
  split
  · rename_i h
    rw [h]
    rfl
  · rw [Reader.ofDigits, ofDigits_digits (n / digitBase)]
    exact Nat.mod_add_div n digitBase
termination_by n
decreasing_by exact Nat.div_lt_self (by omega) (by decide)

theorem lt_of_mem_digits {n d : Nat} (h : d ∈ digits n) : d < digitBase := by
  unfold digits at h
  split at h
  · simp at h
  · rcases List.mem_cons.mp h with rfl | h
    · exact Nat.mod_lt _ (by decide)
    · exact lt_of_mem_digits h
termination_by n
decreasing_by exact Nat.div_lt_self (by omega) (by decide)

/-- **No integer has fewer digits than it is written with.** -/
theorem length_digits_ofDigits {ds : List Nat} (h : ∀ d ∈ ds, d < digitBase) :
    (digits (Reader.ofDigits ds)).length ≤ ds.length := by
  induction ds with
  | nil =>
    unfold Reader.ofDigits digits
    simp
  | cons d ds ih =>
    rw [List.forall_mem_cons] at h
    have hdiv : (d + digitBase * Reader.ofDigits ds) / digitBase = Reader.ofDigits ds := by
      rw [Nat.add_mul_div_left _ _ (by decide), Nat.div_eq_of_lt h.1, Nat.zero_add]
    unfold Reader.ofDigits digits
    split
    · simp
    · rw [hdiv, List.length_cons, List.length_cons]
      exact Nat.succ_le_succ (ih h.2)

theorem length_flatMap_number (ds : List Nat) : (ds.flatMap (number 4)).length = 4 * ds.length := by
  induction ds with
  | nil => rfl
  | cons d ds ih =>
    rw [List.flatMap_cons, List.length_append, length_number, ih, List.length_cons]
    omega

@[simp] theorem length_count (n : Nat) : (count n).length = 8 := length_number 8 n

theorem length_integer (n : Int) : (integer n).length = 9 + 4 * (digits n.natAbs).length := by
  simp only [integer, List.length_append, List.length_cons, length_count, length_flatMap_number]

namespace Reader

/-- An integer is given back from its sign and its digits. -/
theorem gives_integer {n : Int} (h : (digits n.natAbs).length < 256 ^ 8) :
    Gives True integer n (StoredObject.integer n) := by
  have hdigits : Gives True (times (number 4) (digits n.natAbs).length) (digits n.natAbs)
      ((digits n.natAbs).flatMap (StoredObject.number 4)) :=
    (Gives.times fun d hd => gives_number (lt_of_mem_digits hd)).imp fun _ _ _ => trivial
  have hvalue : (if signByte n = 0 then 0 else if signByte n = 1 then
      (ofDigits (digits n.natAbs) : Int) else -(ofDigits (digits n.natAbs) : Int)) = n := by
    rw [ofDigits_digits]
    unfold signByte
    split
    · rename_i h
      rw [if_pos rfl, h]
    · split
      · rw [if_neg (by decide), if_pos rfl]
        omega
      · rw [if_neg (by decide), if_neg (by decide)]
        omega
  have hsign : signByte n = 0 ∨ signByte n = 1 ∨ signByte n = 255 := by
    unfold signByte
    split
    · exact .inl rfl
    · split
      · exact .inr (.inl rfl)
      · exact .inr (.inr rfl)
  show Gives True integer n ([signByte n] ++ (count (digits n.natAbs).length ++
    (digits n.natAbs).flatMap (StoredObject.number 4)))
  refine (gives_byte _).andThen ?_
  rw [if_pos hsign]
  refine (gives_count h).andThen ?_
  have key := hdigits.map (f := fun ds => if signByte n = 0 then 0
    else if signByte n = 1 then (ofDigits ds : Int) else -(ofDigits ds : Int))
  rwa [hvalue] at key

/-- Digits take four bytes each, and none of them is too large. -/
theorem length_parts_number {ds : List Nat} {parts : List UInt8}
    (h : Parts (fun d part => d < 256 ^ 4 ∧ part = StoredObject.number 4 d) ds parts) :
    parts.length = 4 * ds.length ∧ ∀ d ∈ ds, d < digitBase := by
  induction h with
  | nil => simp
  | cons h _ ih =>
    obtain ⟨hd, rfl⟩ := h
    rw [List.length_append, length_number, ih.1, List.length_cons, List.forall_mem_cons]
    exact ⟨by omega, hd, ih.2⟩

/-- An integer is not longer than what it was read from. -/
theorem takes_integer :
    Takes (fun n part => (StoredObject.integer n).length ≤ part.length) integer := by
  refine takes_byte.bind fun b part hpart => ?_
  split
  · refine (takes_number 8).bind fun k part' hpart' => ?_
    refine ((takes_number 4).times k).bind fun ds parts hparts => Takes.pure ?_
    obtain ⟨hk, rfl⟩ := hpart'
    obtain ⟨hlen, hlt⟩ := length_parts_number hparts.2
    have hdigits := length_digits_ofDigits hlt
    have hzero : (digits 0).length ≤ ds.length := by
      unfold digits
      simp
    rw [hpart, List.append_nil, length_integer]
    simp only [List.length_append, List.length_singleton, length_number, hlen]
    split
    · simp only [Int.natAbs_zero]
      omega
    · split
      · simp only [Int.natAbs_natCast]
        omega
      · simp only [Int.natAbs_neg, Int.natAbs_natCast]
        omega
  · exact Takes.fail _

/-! ## Fractions -/

/-- A fraction is given back unless its denominator is zero. -/
theorem gives_fraction {q : Fraction} (hnum : (digits q.num.natAbs).length < 256 ^ 8)
    (hden : (digits q.den.natAbs).length < 256 ^ 8) :
    Gives (q.den ≠ 0) fraction q (StoredObject.integer q.num ++ StoredObject.integer q.den) := by
  refine (gives_integer hnum).andThen fun rest => ?_
  rw [bind_apply, (gives_integer hden).eq_ok]
  by_cases hzero : q.den = 0
  · exact .inr ⟨not_not_intro hzero, .zeroDenominator, by simp only [if_pos hzero, fail_apply]⟩
  · left
    simp only [if_neg hzero, pure_apply]

theorem takes_fraction :
    Takes (fun q part => (StoredObject.integer q.num ++ StoredObject.integer q.den).length ≤
      part.length) fraction := by
  refine takes_integer.bind fun num part hnum => takes_integer.bind fun den part' hden => ?_
  split
  · exact Takes.fail _
  · refine Takes.pure ?_
    simp only [List.length_append, List.append_nil] at hnum hden ⊢
    omega

end Reader

end StoredObject

end RpnCalculator
