import RpnCalculator.Proofs.Guard.Primitive
import RpnCalculator.Value.Arithmetic
import RpnCalculator.Value.Functions
import RpnCalculator.Value.WellFormed
import Mathlib.Data.Nat.Sqrt
import Mathlib.Algebra.Order.Ring.Rat

/-!
# Numbers are combined where that is allowed

Words, integers and rationals, taken apart into the operations of the machine.  Floats and
complex numbers have a result for all operands, so what is computed of them needs no guard.
-/

namespace RpnCalculator

namespace Guarded

/-! ## Words -/

/-- The bits that a word of the width in force can have. -/
def mask (d : Display) : Guarded Nat := do
  let limit ← shiftLeft 1 d.width
  subtract limit 1

theorem mask_eq (d : Display) : mask d = .ok d.mask := by
  have hwidth := d.width_le
  have hmodulus := d.modulus_le
  have hpos := d.modulus_pos
  unfold Display.modulus at hmodulus hpos
  have hfit : 1 * Nat.pow 2 d.width < Nat.pow 2 wordBits := by
    have : Nat.pow 2 wordBits = 18446744073709551616 := by decide
    omega
  rw [mask, shiftLeft_eq (by unfold wordBits; omega) hfit, ok_bind, subtract_eq (by omega),
    Nat.one_mul]
  rfl

/-- The visible part of stored bits. -/
def word (d : Display) (bits : UInt32) : Guarded Nat := do
  let mask ← mask d
  pure (bits.toNat &&& mask)

theorem and_mask (d : Display) (n : Nat) : n &&& d.mask = n % d.modulus :=
  Nat.and_two_pow_sub_one_eq_mod n d.width

theorem word_eq (d : Display) (bits : UInt32) : word d bits = .ok (d.word bits) := by
  rw [word, mask_eq, ok_bind, and_mask]
  rfl

/-- The word with the low bits of a number. -/
def ofWord (d : Display) (n : Nat) : Guarded Value := do
  let mask ← mask d
  pure (.binary (UInt32.ofNat (n &&& mask)))

theorem ofWord_eq (d : Display) (n : Nat) : ofWord d n = .ok (.ofWord d n) := by
  rw [ofWord, mask_eq, ok_bind, and_mask]
  rfl

/-- An operation on the visible parts of two words. -/
def onWords (d : Display) (op : BinaryOperator) (a b : Nat) : Guarded (Except Fault Value) :=
  match op with
  | .div =>
    if b = 0 then pure (BinaryOperator.outside .divisionByZero)
    else do
      let n ← quotient a b
      let v ← ofWord d n
      pure (.ok v)
  | .mod =>
    if b = 0 then pure (BinaryOperator.outside .divisionByZero)
    else do
      let n ← remainder a b
      let v ← ofWord d n
      pure (.ok v)
  | op => do
    let _ ← mask d
    pure (op.onWords d a b)

theorem onWords_eq (d : Display) (op : BinaryOperator) (a b : Nat) :
    onWords d op a b = .ok (op.onWords d a b) := by
  unfold onWords
  split
  · rw [BinaryOperator.onWords]
    split
    · rfl
    · rename_i hb
      rw [quotient_eq hb, ok_bind, ofWord_eq]
      rfl
  · rw [BinaryOperator.onWords]
    split
    · rfl
    · rename_i hb
      rw [remainder_eq hb, ok_bind, ofWord_eq]
      rfl
  · rw [mask_eq]
    rfl

/-- An operation on the visible part of a word. -/
def onWord (d : Display) (op : UnaryOperator) (b : Nat) : Guarded (Except Fault Value) :=
  match op with
  | .shiftLeft => do
    let n ← shiftLeft b 1
    let v ← ofWord d n
    pure (.ok v)
  | .shiftRight => do
    let n ← shiftRight b 1
    let v ← ofWord d n
    pure (.ok v)
  | .rotateLeft => do
    let up ← shiftLeft b 1
    let amount ← subtract d.width 1
    let down ← shiftRight b amount
    let v ← ofWord d (up ||| down)
    pure (.ok v)
  | .rotateRight => do
    let down ← shiftRight b 1
    let amount ← subtract d.width 1
    let up ← shiftLeft (b &&& 1) amount
    let v ← ofWord d (down ||| up)
    pure (.ok v)
  | op => do
    let _ ← mask d
    pure (op.onWord d b)

theorem ofWord_congr {d : Display} {m n : Nat} (h : m % d.modulus = n % d.modulus) :
    Value.ofWord d m = Value.ofWord d n := by
  rw [Value.ofWord, Value.ofWord, Display.bitsOf, Display.bitsOf, h]

/-- What a rotation to the left leaves below the width in force. -/
theorem or_rotateLeft {d : Display} {b : Nat} (hb : b < d.modulus) :
    (b * Nat.pow 2 1 ||| b / Nat.pow 2 (d.width - 1)) % d.modulus =
      Bits.rotateLeft d.width b % d.modulus := by
  have hhigh : b / 2 ^ (d.width - 1) < 2 ^ 1 := by
    rw [Nat.div_lt_iff_lt_mul (Nat.two_pow_pos _), ← Nat.pow_add]
    have := d.one_le_width
    rwa [show 1 + (d.width - 1) = d.width by omega]
  have hor := Nat.two_pow_add_eq_or_of_lt hhigh b
  rw [Nat.mul_comm b]
  refine Eq.trans (congrArg (· % d.modulus) hor.symm) ?_
  show (2 * b + _) % _ = (2 * b % d.modulus + _) % _
  rw [Nat.mod_add_mod]
  rfl

/-- What a rotation to the right leaves. -/
theorem or_rotateRight {d : Display} {b : Nat} (hb : b < d.modulus) :
    (b / Nat.pow 2 1 ||| (b &&& 1) * Nat.pow 2 (d.width - 1)) = Bits.rotateRight d.width b := by
  have hlow : b / 2 ^ 1 < 2 ^ (d.width - 1) := by
    rw [Nat.div_lt_iff_lt_mul (Nat.two_pow_pos _), ← Nat.pow_add]
    have := d.one_le_width
    rwa [show d.width - 1 + 1 = d.width by omega]
  have hor := Nat.two_pow_add_eq_or_of_lt hlow (b % 2)
  rw [Nat.or_comm, Nat.and_one_is_mod, Nat.mul_comm (b % 2)]
  refine hor.symm.trans ?_
  rw [Nat.add_comm, Nat.mul_comm]
  rfl

/-- **A shift never is by all the bits of a word.**  The amounts are one and one less than the
width in force, which is between 1 and 32. -/
theorem onWord_eq {d : Display} (op : UnaryOperator) {b : Nat} (hb : b < d.modulus) :
    onWord d op b = .ok (op.onWord d b) := by
  have hpos := d.one_le_width
  have hwidth := d.width_le
  have hsmall : b < 4294967296 := Nat.lt_of_lt_of_le hb d.modulus_le
  have hone : (1 : Nat) < wordBits := by decide
  have hbits : Nat.pow 2 wordBits = 18446744073709551616 := by decide
  have hup : shiftLeft b 1 = .ok (b * Nat.pow 2 1) :=
    shiftLeft_eq hone (by rw [hbits, show Nat.pow 2 1 = 2 from rfl]; omega)
  have hamount : d.width - 1 < wordBits := by unfold wordBits; omega
  have hhigh : (b &&& 1) * Nat.pow 2 (d.width - 1) < Nat.pow 2 wordBits := by
    have hpow : Nat.pow 2 (d.width - 1) ≤ 2 ^ 31 :=
      Nat.pow_le_pow_right (n := 2) (by decide) (by omega)
    have hbit : b &&& 1 ≤ 1 := Nat.and_le_right
    have := Nat.mul_le_mul hbit hpow
    omega
  unfold onWord
  split
  · rw [hup, ok_bind, ofWord_eq, Nat.mul_comm]
    rfl
  · rw [shiftRight_eq hone, ok_bind, ofWord_eq]
    rfl
  · rw [hup, ok_bind, subtract_eq hpos, ok_bind, shiftRight_eq hamount, ok_bind, ofWord_eq,
      ofWord_congr (or_rotateLeft hb)]
    rfl
  · rw [shiftRight_eq hone, ok_bind, subtract_eq hpos, ok_bind, shiftLeft_eq hamount hhigh,
      ok_bind, ofWord_eq, or_rotateRight hb]
    rfl
  · rw [mask_eq]
    rfl

/-! ## Integers -/

/-- The rational `n / d`. -/
def ratio (n d : Int) : Guarded (Except Fault Value) :=
  if d = 0 then pure (.error (.domain .zeroDenominator))
  else do
    let q ← fraction n d
    pure (.ok (.rational q))

theorem ratio_eq (n d : Int) : ratio n d = .ok (Value.ofRatio n d) := by
  unfold ratio Value.ofRatio
  split
  · rfl
  · rename_i hd
    rw [fraction_eq hd]
    rfl

/-- An integer to an integer power. -/
def integerPow (b e : Int) : Guarded (Except Fault Value) :=
  if 4294967296 ≤ e.natAbs then pure (BinaryOperator.outside .exponentTooLarge)
  else if BinaryOperator.powerTooLarge (Bits.size b) e.natAbs then
    pure (BinaryOperator.outside .exponentTooLarge)
  else if 0 ≤ e then pure (.ok (.integer (Int.pow b e.natAbs)))
  else if b = 0 then pure (BinaryOperator.outside .divisionByZero)
  else ratio 1 (Int.pow b e.natAbs)

theorem integerPow_eq (b e : Int) : integerPow b e = .ok (BinaryOperator.integerPow b e) := by
  unfold integerPow BinaryOperator.integerPow
  split
  · rfl
  split
  · rfl
  split
  · rfl
  split
  · rfl
  · rename_i hb
    have hpow : Int.pow b e.natAbs ≠ 0 := Int.pow_ne_zero hb
    rw [ratio_eq, Value.ofRatio, if_neg hpow]

/-- An operation on two integers.  They are divided first, and only if a remainder is left a
fraction is made of them. -/
def onIntegers (op : BinaryOperator) (m n : Int) : Guarded (Except Fault Value) :=
  match op with
  | .div =>
    if n = 0 then pure (BinaryOperator.outside .divisionByZero)
    else do
      let (quotient, remainder) ← divRem m n
      if remainder = 0 then pure (.ok (.integer quotient)) else ratio m n
  | .mod =>
    if n = 0 then pure (BinaryOperator.outside .divisionByZero)
    else do
      let r ← modFloor m n
      pure (.ok (.integer r))
  | .pow => integerPow m n
  | op => pure (op.onIntegers m n)

theorem onIntegers_eq (op : BinaryOperator) (m n : Int) :
    onIntegers op m n = .ok (op.onIntegers m n) := by
  unfold onIntegers
  split
  · rw [BinaryOperator.onIntegers]
    split
    · rfl
    · rename_i hn
      rw [divRem_eq hn, ok_bind]
      dsimp only
      by_cases hdvd : n ∣ m
      · rw [if_pos (Int.tmod_eq_zero_of_dvd hdvd), if_pos (Int.emod_eq_zero_of_dvd hdvd),
          Int.tdiv_eq_ediv_of_dvd hdvd]
        rfl
      · rw [if_neg (mt Int.dvd_of_tmod_eq_zero hdvd), if_neg (mt Int.dvd_of_emod_eq_zero hdvd),
          ratio_eq, Value.ofRatio, if_neg hn]
  · rw [BinaryOperator.onIntegers]
    split
    · rfl
    · rename_i hn
      rw [modFloor_eq hn]
      rfl
  · exact integerPow_eq m n
  · rfl

/-- An operation on an integer. -/
def onInteger (d : Display) (op : UnaryOperator) (n : Int) : Guarded (Except Fault Value) :=
  match op with
  | .inv => if n = 0 then pure (UnaryOperator.outside .divisionByZero) else ratio 1 n
  | .sqrt =>
    if 0 ≤ n then do
      let r ← root n
      if r * r = n then pure (.ok (.integer r))
      else pure (UnaryOperator.sqrt.onFloat d (.ofInt n))
    else pure (UnaryOperator.sqrt.onFloat d (.ofInt n))
  | op => pure (op.onInteger d n)

theorem onInteger_eq (d : Display) (op : UnaryOperator) (n : Int) :
    onInteger d op n = .ok (op.onInteger d n) := by
  unfold onInteger
  split
  · rw [UnaryOperator.onInteger]
    split
    · rfl
    · rename_i hn
      rw [ratio_eq, Value.ofRatio, if_neg hn]
  · rw [UnaryOperator.onInteger]
    split
    · rename_i hn
      obtain ⟨k, rfl⟩ := Int.eq_ofNat_of_zero_le hn
      rw [root_eq hn, ok_bind]
      simp only [Int.toNat_natCast, Int.natAbs_natCast, Int.natCast_nonneg, true_and]
      norm_cast
      split <;> rfl
    · rename_i hn
      simp only [hn, false_and, if_false]
      rfl
  · rfl

/-! ## Rationals -/

/-- A rational number to an integer power.  A negative power is the reciprocal of a power. -/
def rationalPow (p : Rat) (e : Int) : Guarded (Except Fault Value) :=
  if 2147483648 ≤ e ∨ e < -2147483648 then pure (BinaryOperator.outside .exponentTooLarge)
  else if BinaryOperator.powerTooLarge (max (Bits.size p.num) (Bits.size p.den)) e.natAbs then
    pure (BinaryOperator.outside .exponentTooLarge)
  else if 0 ≤ e then pure (.ok (.ofRat (Rat.pow p e.natAbs)))
  else if p = 0 then pure (BinaryOperator.outside .divisionByZero)
  else do
    let r ← reciprocal (Rat.pow p e.natAbs)
    pure (.ok (.ofRat r))

theorem rationalPow_eq (p : Rat) (e : Int) :
    rationalPow p e = .ok (BinaryOperator.rationalPow p e) := by
  unfold rationalPow BinaryOperator.rationalPow
  split
  · rfl
  split
  · rfl
  split
  · rfl
  split
  · rfl
  · rename_i hp
    have hpow : p ^ e.natAbs ≠ 0 := pow_ne_zero _ hp
    have hrec : reciprocal (Rat.pow p e.natAbs) = .ok (Rat.pow p e.natAbs).inv :=
      reciprocal_eq hpow
    rw [hrec]
    rfl

/-- An operation on two fractions. -/
def onRationals (op : BinaryOperator) (a b : Fraction) : Guarded (Except Fault Value) := do
  let p ← number a
  let q ← number b
  match op with
  | .div =>
    if q = 0 then pure (BinaryOperator.outside .divisionByZero)
    else do
      let r ← divide p q
      pure (.ok (.ofRat r))
  | .mod =>
    if q = 0 then pure (BinaryOperator.outside .divisionByZero)
    else do
      let r ← divide p q
      pure (.ok (.ofRat (p - q * (r.floor : Rat))))
  | .pow =>
    if q.den = 1 then rationalPow p q.num
    else pure (BinaryOperator.pow.onFloats (.ofRat p) (.ofRat q))
  | op => pure (op.onRationals p q)

theorem onRationals_eq (op : BinaryOperator) {a b : Fraction} (ha : a.Reduced)
    (hb : b.Reduced) : onRationals op a b = .ok (op.onRationals a.toRat b.toRat) := by
  unfold onRationals
  rw [number_eq ha, ok_bind, number_eq hb, ok_bind]
  generalize a.toRat = p
  generalize b.toRat = q
  split
  · rw [BinaryOperator.onRationals]
    split
    · rfl
    · rename_i hq
      rw [divide_eq hq]
      rfl
  · rw [BinaryOperator.onRationals]
    split
    · rfl
    · rename_i hq
      rw [divide_eq hq]
      rfl
  · rw [BinaryOperator.onRationals]
    split
    · exact rationalPow_eq p q.num
    · rfl
  · rfl

/-- A number that divides the square of its root is that square. -/
theorem mul_self_sqrt_of_dvd {n : Nat} (h : n ∣ n.sqrt * n.sqrt) : n.sqrt * n.sqrt = n := by
  rcases Nat.eq_zero_or_pos n.sqrt with hzero | hpos
  · rw [hzero, Nat.sqrt_eq_zero.mp hzero]
  · exact Nat.le_antisymm (Nat.sqrt_le n) (Nat.le_of_dvd (Nat.mul_pos hpos hpos) h)

/-- The root of a denominator is a denominator. -/
theorem sqrt_ne_zero {n : Nat} (h : n ≠ 0) : n.sqrt ≠ 0 := by
  rw [Ne, Nat.sqrt_eq_zero]
  exact h

/-- **In lowest terms, a fraction is the square of the fraction of the roots exactly when both
its parts are squares.** -/
theorem mul_self_divInt_sqrt_iff {n d : Nat} (hd : d ≠ 0) (h : n.Coprime d) :
    Rat.divInt n.sqrt d.sqrt * Rat.divInt n.sqrt d.sqrt = Rat.divInt n d ↔
      n.sqrt * n.sqrt = n ∧ d.sqrt * d.sqrt = d := by
  have hroot : (d.sqrt * d.sqrt : Int) ≠ 0 := by
    exact_mod_cast Nat.mul_ne_zero (sqrt_ne_zero hd) (sqrt_ne_zero hd)
  rw [Rat.divInt_mul_divInt, Rat.divInt_eq_divInt_iff hroot (by exact_mod_cast hd)]
  norm_cast
  constructor
  · intro hcross
    constructor
    · exact mul_self_sqrt_of_dvd (h.dvd_of_dvd_mul_right ⟨_, hcross⟩)
    · refine mul_self_sqrt_of_dvd (h.symm.dvd_of_dvd_mul_left ⟨n.sqrt * n.sqrt, ?_⟩)
      rw [← hcross, Nat.mul_comm]
  · rintro ⟨hn, hd⟩
    rw [hn, hd]

/-- The root of a fraction: the fraction of the roots of its parts, if the square of that is
the number, and else a float. -/
def rationalRoot (d : Display) (a : Fraction) (q : Rat) : Guarded (Except Fault Value) :=
  if 0 ≤ a.num then do
    let r ← root a.num
    let s ← root a.den
    let candidate ← fraction r s
    let x ← number candidate
    if x * x = q then pure (.ok (.rational candidate))
    else pure (UnaryOperator.sqrt.onFloat d (.ofRat q))
  else pure (UnaryOperator.sqrt.onFloat d (.ofRat q))

/-- **No root is taken of a negative number, and none of a denominator is zero.** -/
theorem rationalRoot_eq (d : Display) (q : Rat) :
    rationalRoot d (.ofRat q) q = .ok (UnaryOperator.sqrt.onRational d q) := by
  rw [rationalRoot, UnaryOperator.onRational, num_ofRat, den_ofRat]
  by_cases hnum : 0 ≤ q.num
  · have hn : root q.num = .ok (q.num.natAbs.sqrt : Int) := by
      rw [root_eq hnum, show q.num.toNat = q.num.natAbs by omega]
    have hd : root (q.den : Int) = .ok (q.den.sqrt : Int) := root_eq (Int.natCast_nonneg _)
    have hroot : (q.den.sqrt : Int) ≠ 0 := Int.natCast_ne_zero.mpr (sqrt_ne_zero q.den_nz)
    have hsquare := mul_self_divInt_sqrt_iff q.den_nz q.reduced
    rw [Int.natAbs_of_nonneg hnum, q.num_divInt_den] at hsquare
    rw [if_pos hnum, hn, ok_bind, hd, ok_bind, fraction_eq hroot, ok_bind, number_ofRat, ok_bind]
    by_cases hexact : q.num.natAbs.sqrt * q.num.natAbs.sqrt = q.num.natAbs ∧
        q.den.sqrt * q.den.sqrt = q.den
    · rw [if_pos (hsquare.mpr hexact)]
      simp only [hnum, hexact, true_and, if_true]
      rfl
    · rw [if_neg (mt hsquare.mp hexact)]
      simp only [hexact, and_false, if_false]
      rfl
  · rw [if_neg hnum]
    simp only [hnum, false_and, if_false]
    rfl

/-- An operation on a fraction. -/
def onRational (d : Display) (op : UnaryOperator) (a : Fraction) :
    Guarded (Except Fault Value) := do
  let q ← number a
  match op with
  | .inv =>
    if q = 0 then pure (UnaryOperator.outside .divisionByZero)
    else do
      let r ← reciprocal q
      pure (.ok (.ofRat r))
  | .frac => do
    let whole ← trunc a
    pure (.ok (.ofRat (q - (whole : Rat))))
  | .intPart => do
    let whole ← trunc a
    pure (.ok (.ofRat whole))
  | .sqrt => rationalRoot d a q
  | op => pure (op.onRational d q)

theorem onRational_eq (d : Display) (op : UnaryOperator) {a : Fraction} (ha : a.Reduced) :
    onRational d op a = .ok (op.onRational d a.toRat) := by
  unfold onRational
  rw [number_eq ha, ok_bind]
  split
  · rw [UnaryOperator.onRational]
    split
    · rfl
    · rename_i hq
      rw [reciprocal_eq hq]
      rfl
  · rw [trunc_eq ha]
    rfl
  · rw [trunc_eq ha]
    rfl
  · obtain ⟨q, rfl⟩ := exists_eq_ofRat ha
    rw [Fraction.toRat_ofRat, rationalRoot_eq]
  · rfl

/-! ## Conversions -/

/-- The exact value of a finite float. -/
def exactly (x : Double) : Guarded (Except Fault Fraction) :=
  if x.isFinite then do
    let q ← fraction (x.withSign x.ratio.1) x.ratio.2
    pure (.ok q)
  else pure (.error (.domain .notFinite))

theorem ratio_snd_ne_zero (x : Double) : x.ratio.2 ≠ 0 := Nat.ne_of_gt x.ratio_snd_pos

theorem exactly_eq (x : Double) : exactly x = .ok ((Value.exactly x).map .ofRat) := by
  unfold exactly Value.exactly Double.toRat?
  split
  · rw [fraction_eq (Int.natCast_ne_zero.mpr (ratio_snd_ne_zero x)), Rat.mkRat_eq_divInt]
    rfl
  · rfl

/-- The integer part of a finite float. -/
def wholePart (x : Double) : Guarded (Except Fault Int) :=
  if x.isFinite then do
    let n ← quotient x.ratio.1 x.ratio.2
    pure (.ok (x.withSign n))
  else pure (.error (.domain .notFinite))

theorem wholePart_eq (x : Double) : wholePart x = .ok (Value.wholePart x) := by
  unfold wholePart Value.wholePart Double.toInt?
  split
  · rw [quotient_eq (ratio_snd_ne_zero x)]
    rfl
  · rfl

/-- The word congruent to an integer. -/
def ofIntegerWord (d : Display) (n : Int) : Guarded (Except Fault Value) := do
  let v ← ofWord d (n % (d.modulus : Int)).toNat
  pure (.ok v)

theorem ofIntegerWord_eq (d : Display) (n : Int) :
    ofIntegerWord d n = .ok (.ok (.ofIntegerWord d n)) := by
  rw [ofIntegerWord, ofWord_eq]
  rfl

def toBinary (d : Display) : Value → Guarded (Except Fault Value)
  | .integer n => ofIntegerWord d n
  | .rational q => do
    let n ← trunc q
    ofIntegerWord d n
  | .float x => do
    match ← wholePart x with
    | .ok n => ofIntegerWord d n
    | .error f => pure (.error f)
  | v => pure (v.toBinary d)

def toComplex (d : Display) : Value → Guarded (Except Fault Value)
  | .binary bits => do
    let n ← word d bits
    pure (.ok (.complex (.ofReal (.ofNat n))))
  | .rational q => do
    let x ← number q
    pure (.ok (.complex (.ofReal (.ofRat x))))
  | v => pure (v.toComplex d)

def toFloat (d : Display) : Value → Guarded (Except Fault Value)
  | .binary bits => do
    let n ← word d bits
    pure (.ok (.float (.ofNat n)))
  | .rational q => do
    let x ← number q
    pure (.ok (.float (.ofRat x)))
  | v => pure (v.toFloat d)

def toInteger (d : Display) : Value → Guarded (Except Fault Value)
  | .binary bits => do
    let n ← word d bits
    pure (.ok (.integer n))
  | .float x => do
    let n ← wholePart x
    pure (n.map .integer)
  | .rational q => do
    let n ← trunc q
    pure (.ok (.integer n))
  | v => pure (v.toInteger d)

def toRational (d : Display) : Value → Guarded (Except Fault Value)
  | .binary bits => do
    let n ← word d bits
    pure (.ok (.rational (.ofInt n)))
  | .float x => do
    let q ← exactly x
    pure (q.map .rational)
  | v => pure (v.toRational d)

/-- A value seen through the width in force. -/
def settle (d : Display) : Value → Guarded Value
  | .binary bits => do
    let n ← word d bits
    ofWord d n
  | v => pure v

theorem settle_eq (d : Display) (v : Value) : settle d v = .ok (v.settle d) := by
  cases v with
  | binary bits => rw [settle, word_eq, ok_bind, ofWord_eq, Value.settle]
  | _ => rfl

/-- The value as one of the target kind.  To be written out, a value may need the visible part
of a word. -/
def convert (d : Display) (target : Kind) (v : Value) : Guarded (Except Fault Value) :=
  if v.kind = target then do
    let v ← settle d v
    pure (.ok v)
  else
    match target with
    | .binary => toBinary d v
    | .complex => toComplex d v
    | .float => toFloat d v
    | .integer => toInteger d v
    | .rational => toRational d v
    | .string => do
      let _ ← mask d
      pure (.ok (v.toText d))
    | target => pure (v.convert d target)

theorem toBinary_eq {d : Display} {v : Value} (hv : v.WellFormed) :
    toBinary d v = .ok (v.toBinary d) := by
  cases v with
  | integer n => exact ofIntegerWord_eq d n
  | rational q =>
    rw [toBinary, trunc_eq hv, ok_bind, ofIntegerWord_eq, Value.toBinary]
  | float x =>
    rw [toBinary, wholePart_eq, ok_bind, Value.toBinary]
    cases Value.wholePart x with
    | ok n => exact ofIntegerWord_eq d n
    | error f => rfl
  | _ => rfl

theorem toComplex_eq {d : Display} {v : Value} (hv : v.WellFormed) :
    toComplex d v = .ok (v.toComplex d) := by
  cases v with
  | binary bits =>
    rw [toComplex, word_eq]
    rfl
  | rational q =>
    rw [toComplex, number_eq hv]
    rfl
  | _ => rfl

theorem toFloat_eq {d : Display} {v : Value} (hv : v.WellFormed) :
    toFloat d v = .ok (v.toFloat d) := by
  cases v with
  | binary bits =>
    rw [toFloat, word_eq]
    rfl
  | rational q =>
    rw [toFloat, number_eq hv]
    rfl
  | _ => rfl

theorem toInteger_eq {d : Display} {v : Value} (hv : v.WellFormed) :
    toInteger d v = .ok (v.toInteger d) := by
  cases v with
  | binary bits =>
    rw [toInteger, word_eq]
    rfl
  | float x =>
    rw [toInteger, wholePart_eq]
    rfl
  | rational q =>
    rw [toInteger, trunc_eq hv]
    rfl
  | _ => rfl

theorem toRational_eq (d : Display) (v : Value) : toRational d v = .ok (v.toRational d) := by
  cases v with
  | binary bits =>
    rw [toRational, word_eq]
    rfl
  | float x =>
    rw [toRational, exactly_eq, ok_bind, Value.toRational]
    cases Value.exactly x <;> rfl
  | _ => rfl

/-- **A well-formed value can be converted to every kind**: it becomes one of that kind, or
there is a fault. -/
theorem convert_eq {d : Display} {v : Value} (hv : v.WellFormed) (target : Kind) :
    convert d target v = .ok (v.convert d target) := by
  unfold convert
  by_cases hkind : v.kind = target
  · rw [if_pos hkind, settle_eq, ← hkind, Value.convert_self]
    rfl
  · rw [if_neg hkind]
    split
    · rw [toBinary_eq hv, Value.convert, if_neg hkind]
    · rw [toComplex_eq hv, Value.convert, if_neg hkind]
    · rw [toFloat_eq hv, Value.convert, if_neg hkind]
    · rw [toInteger_eq hv, Value.convert, if_neg hkind]
    · rw [toRational_eq, Value.convert, if_neg hkind]
    · rw [mask_eq, ok_bind, Value.convert, if_neg hkind]
      rfl
    · rfl

end Guarded

end RpnCalculator
