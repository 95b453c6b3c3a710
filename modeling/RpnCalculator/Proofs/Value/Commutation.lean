import Mathlib.Data.Int.ModEq
import RpnCalculator.Proofs.Number.Truncation
import RpnCalculator.Proofs.Value.Conversion
import RpnCalculator.Value.Functions

/-!
# Ways between the numeric kinds

A word, an integer, a rational or a float can become an integer at once or by way of the
rationals, and a word at once or by way of either.  Each pair of kinds has a conversion of its own,
which drops the fraction at one point and the high bits at another, and this file shows that all
the ways lead to the same value (`conversions_commute`).

## Why they meet

Every way to an integer drops the fraction once, and there is only one integer that a number can
be without its fraction (`Truncates.unique`).  A float is made exact before or after it is
truncated, and both come to that integer.

Every way to a word reduces an integer modulo the number of words, and does it at the end.  An
integer of any size is reduced by looking at the lowest digit of its magnitude only
(`ofIntegerWord_eq_lowWord`), because the digits have at least as many bits as a word.

A float that is not finite is refused by the first conversion on each way, with one fault.
-/

namespace RpnCalculator

namespace Value

variable {d : Display}

/-- A number that is not complex. -/
def IsReal (v : Value) : Prop := v.kind ∈ [Kind.binary, .integer, .rational, .float]

/-! ## To the integers -/

theorem truncates_toInt (q : Fraction) : Truncates q.toRat q.toInt := truncates_tdiv q.toRat

@[simp] theorem toInt_ofInt (n : Int) : (Fraction.ofInt n).toInt = n := by
  simp [Fraction.toInt]

/-- A finite float becomes its whole part, and a rational of its value. -/
theorem convert_float {x : Double} (h : x.isFinite = true) :
    ∃ n, Truncates x.value n ∧ wholePart x = .ok n ∧
      (float x).convert d .integer = .ok (.integer n) ∧
      (float x).convert d .rational = .ok (ofRat x.value) := by
  obtain ⟨n, hn, htruncates⟩ := Double.exists_toInt? h
  have hwhole : wholePart x = .ok n := by rw [wholePart, hn]
  have hexact : exactly x = .ok x.value := by rw [exactly, Double.toRat?_eq h]
  refine ⟨n, htruncates, hwhole, ?_, ?_⟩
  · show (wholePart x).map integer = _
    rw [hwhole]
    rfl
  · show (exactly x).map ofRat = _
    rw [hexact]
    rfl

theorem toInt?_of_wholePart {x : Double} {n : Int} (h : wholePart x = .ok n) :
    x.toInt? = some n := by
  unfold wholePart at h
  split at h
  · rename_i hm
    rw [hm, Except.ok.inj h]
  · cases h

/-- What is not finite is refused wherever a number is needed. -/
theorem convert_float_of_not_finite {x : Double} (h : x.isFinite = false) {k : Kind}
    (hk : k ∈ [Kind.binary, .integer, .rational]) :
    (float x).convert d k = .error (.domain .notFinite) := by
  have hwhole : wholePart x = .error (.domain .notFinite) := by
    rw [wholePart, Double.toInt?, if_neg (by simp [h])]
  have hexact : exactly x = .error (.domain .notFinite) := by
    rw [exactly, Double.toRat?, if_neg (by simp [h])]
  simp only [List.mem_cons, List.not_mem_nil, or_false] at hk
  obtain rfl | rfl | rfl := hk
  · show (wholePart x).map (ofIntegerWord d) = _
    rw [hwhole]
    rfl
  · show (wholePart x).map integer = _
    rw [hwhole]
    rfl
  · show (exactly x).map ofRat = _
    rw [hexact]
    rfl

/-- **The fraction is dropped once, at either conversion.** -/
theorem along_rational_integer {v : Value} (hv : v.IsReal) :
    v.along d [.rational, .integer] = v.convert d .integer := by
  rw [along_two]
  cases v with
  | binary bits =>
    show Except.ok (integer (Fraction.ofInt (d.word bits)).toInt) = _
    rw [toInt_ofInt]
    rfl
  | integer n =>
    show Except.ok (integer (Fraction.ofInt n).toInt) = _
    rw [toInt_ofInt]
    rfl
  | rational q => rfl
  | float x =>
    by_cases h : x.isFinite = true
    · obtain ⟨n, htruncates, -, hinteger, hrational⟩ := convert_float (d := d) h
      have hvalue : (Fraction.ofRat x.value).toInt = n := by
        have htoInt := truncates_toInt (Fraction.ofRat x.value)
        rw [Fraction.toRat_ofRat] at htoInt
        exact htoInt.unique htruncates
      rw [hinteger, hrational]
      show Except.ok (integer (Fraction.ofRat x.value).toInt) = _
      rw [hvalue]
    · have hfault {k : Kind} := convert_float_of_not_finite (d := d) (k := k) (by simpa using h)
      rw [hfault (by simp), hfault (by simp)]
      rfl
  | _ => simp [IsReal, kind] at hv

/-! ## To the words -/

/-- The lowest digit of an integer to the base `2 ^ 32`, taken from its magnitude and complemented
if the integer is negative. -/
def lowWord (n : Int) : Nat :=
  if n < 0 then (2 ^ 32 - n.natAbs % 2 ^ 32) % 2 ^ 32 else n.natAbs % 2 ^ 32

theorem lowWord_modEq (n : Int) : (lowWord n : Int) ≡ n [ZMOD 2 ^ 32] := by
  unfold lowWord Int.ModEq
  split <;> omega

/-- **A word needs no more of an integer than the lowest digit of its magnitude.** -/
theorem ofIntegerWord_eq_lowWord (n : Int) : ofIntegerWord d n = ofWord d (lowWord n) := by
  have hdvd : (d.modulus : Int) ∣ 2 ^ 32 := by
    have hpow : (d.modulus : Int) = 2 ^ d.width := by
      rw [Display.modulus, Nat.pow_eq]
      push_cast
      rfl
    rw [hpow]
    exact pow_dvd_pow 2 d.width_le
  have hmod := (lowWord_modEq n).of_dvd hdvd
  have hbits : (n % (d.modulus : Int)).toNat % d.modulus = lowWord n % d.modulus := by
    rw [← hmod, ← Int.natCast_emod, Int.toNat_natCast, Nat.mod_mod]
  rw [ofIntegerWord, ofWord, ofWord, Display.bitsOf, Display.bitsOf, hbits]

theorem convert_integer_binary (n : Int) :
    (integer n).convert d .binary = .ok (ofWord d (lowWord n)) := by
  rw [← ofIntegerWord_eq_lowWord]
  rfl

/-- The word of a number that is a word already is that word. -/
theorem ofIntegerWord_word (bits : UInt32) :
    ofIntegerWord d (d.word bits) = ofWord d (d.word bits) := by
  have hlt := d.word_lt bits
  rw [ofIntegerWord, Int.emod_eq_of_lt (Int.natCast_nonneg _) (by exact_mod_cast hlt),
    Int.toNat_natCast]

/-- **A word is made of the integer that the number becomes.** -/
theorem along_integer_binary {v : Value} (hv : v.IsReal) :
    v.along d [.integer, .binary] = v.convert d .binary := by
  rw [along_two]
  cases v with
  | binary bits =>
    show Except.ok (ofIntegerWord d (d.word bits)) = _
    rw [ofIntegerWord_word]
    rfl
  | integer n => rfl
  | rational q => rfl
  | float x =>
    show ((wholePart x).map integer >>= fun w => w.convert d .binary) =
      (wholePart x).map (ofIntegerWord d)
    cases wholePart x <;> rfl
  | _ => simp [IsReal, kind] at hv

/-- So a way by the rationals leads there by the integers. -/
theorem along_rational_binary {v : Value} (hv : v.IsReal) :
    v.along d [.rational, .binary] = v.convert d .binary := by
  rw [← along_integer_binary hv, along_two, along_two, ← along_rational_integer hv, along_two]
  cases hr : v.convert d .rational with
  | error f => rfl
  | ok w =>
    have hw : w.IsReal := by
      rw [IsReal, kind_of_convert hr]
      decide
    show w.convert d .binary = w.convert d .integer >>= fun u => u.convert d .binary
    rw [← along_two, along_integer_binary hw]

/-! ## All ways -/

/-- **The ways between the numeric kinds commute.**  A word, an integer, a rational or a float
becomes the same integer at once and by way of the rationals, and the same word at once, by way of
the integers and by way of the rationals.  The integer is the whole part of the number, and the
word holds its lowest bits in two's complement.  A float that is not finite is refused on all
these ways, and an integer that was a rational, or a word that was an integer or a rational, is
what it has been. -/
theorem conversions_commute (d : Display) :
    -- different ways to one kind
    (∀ v : Value, v.IsReal →
      v.along d [.rational, .integer] = v.convert d .integer ∧
        v.along d [.integer, .binary] = v.convert d .binary ∧
        v.along d [.rational, .binary] = v.convert d .binary) ∧
    -- the integer
    (∀ q : Fraction, ∃ n, (rational q).convert d .integer = .ok (.integer n) ∧
      Truncates q.toRat n ∧
      UnaryOperator.intPart.apply d (.rational q) = .ok (.rational (.ofInt n))) ∧
    (∀ x : Double, x.isFinite = true → ∃ n, (float x).convert d .integer = .ok (.integer n) ∧
      Truncates x.value n ∧
      UnaryOperator.intPart.apply d (.float x) = .ok (.float x.trunc) ∧
      x.trunc.toRat? = some (n : Rat)) ∧
    -- the word
    (∀ n : Int, (integer n).convert d .binary = .ok (ofWord d (lowWord n)) ∧
      lowWord n ≡ n [ZMOD 2 ^ d.width]) ∧
    -- floats that are not finite
    (∀ x : Double, x.isFinite = false →
      ∀ way ∈ [[Kind.integer], [.rational, .integer], [.binary], [.integer, .binary],
          [.rational, .binary]],
        ∃ f, (float x).along d way = .error f ∧ f.category = .domain) ∧
    -- there and back
    (∀ n : Int, (integer n).along d [.rational, .integer] = .ok (.integer n)) ∧
    ∀ bits : UInt32, ∀ k ∈ [Kind.integer, .rational],
      (binary bits).along d [k, .binary] = .ok (ofWord d (d.word bits)) := by
  refine ⟨fun v hv => ⟨along_rational_integer hv, along_integer_binary hv,
    along_rational_binary hv⟩, fun q => ⟨q.toInt, rfl, truncates_toInt q, ?_⟩, fun x hx => ?_,
    fun n => ⟨convert_integer_binary n, ?_⟩, fun x hx way hway => ?_, fun n => ?_,
    fun bits k hk => ?_⟩
  · show Except.ok (ofRat (q.toInt : Rat)) = _
    simp [ofRat, Fraction.ofRat, Fraction.ofInt]
  · obtain ⟨n, htruncates, hwhole, hinteger, -⟩ := convert_float (d := d) hx
    refine ⟨n, hinteger, htruncates, rfl, ?_⟩
    rw [Double.toRat?_trunc, toInt?_of_wholePart hwhole, Option.map_some]
  · exact (lowWord_modEq n).of_dvd (pow_dvd_pow 2 d.width_le)
  · refine ⟨.domain .notFinite, ?_, rfl⟩
    have hfault {k : Kind} := convert_float_of_not_finite (d := d) (k := k) hx
    simp only [List.mem_cons, List.not_mem_nil, or_false] at hway
    obtain rfl | rfl | rfl | rfl | rfl := hway <;> exact along_of_error (hfault (by simp))
  · exact along_rational_integer (by simp [IsReal, kind])
  · have hword : (binary bits).IsReal := by simp [IsReal, kind]
    simp only [List.mem_cons, List.not_mem_nil, or_false] at hk
    obtain rfl | rfl := hk
    · exact along_integer_binary hword
    · exact along_rational_binary hword

/-- With words of eight bits, minus seven halves becomes the word of minus three either way, and
of a word that is too wide the lowest bits come back. -/
theorem conversions_commute_narrow :
    ((rational ⟨-7, 2⟩).IsReal ∧ Double.one.isFinite = true ∧ Double.infinity.isFinite = false ∧
      Kind.rational ∈ [Kind.integer, .rational]) ∧
    (rational ⟨-7, 2⟩).along { wordSize := 8 } [.rational, .binary] =
      (rational ⟨-7, 2⟩).convert { wordSize := 8 } .binary ∧
    (∃ n, (float .one).convert { wordSize := 8 } .integer = .ok (.integer n) ∧
      Truncates Double.one.value n) ∧
    (integer (-3)).convert { wordSize := 8 } .binary = .ok (.binary 253) ∧
    (∃ f, (float .infinity).along { wordSize := 8 } [.integer, .binary] = .error f ∧
      f.category = .domain) ∧
    (binary 511).along { wordSize := 8 } [.rational, .binary] = .ok (.binary 255) := by
  have hreal : (rational ⟨-7, 2⟩).IsReal := by simp [IsReal, kind]
  have hone : Double.one.isFinite = true := by decide
  have hinfinite : Double.infinity.isFinite = false := by decide
  obtain ⟨hways, -, hfloat, hword, hfault, -, hback⟩ := conversions_commute { wordSize := 8 }
  obtain ⟨n, hn, htruncates, -⟩ := hfloat .one hone
  exact ⟨⟨hreal, hone, hinfinite, by simp⟩, (hways _ hreal).2.2, ⟨n, hn, htruncates⟩,
    (hword (-3)).1, hfault .infinity hinfinite _ (by simp), hback 511 .rational (by simp)⟩

end Value

end RpnCalculator
