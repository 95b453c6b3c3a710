import Mathlib
import RpnCalculator.Number.Arithmetic
import RpnCalculator.Proofs.Number.Nearest

/-!
# Rounding by the machine

The operations on doubles are those of `Float`, and these take a number apart, compute with its
parts, and round and pack what comes out.  This file relates the three steps to the definitions
for doubles.

* Rounding.  A quotient is held as a mantissa with two more bits, which say how what is left over
  compares with a half (`Measures`).  Shifting the mantissa keeps this (`Measures.shiftRight`), and
  so at the end the two bits are enough to round the quotient as `roundRatio` does
  (`Measures.roundedMantissa_eq`).  The mantissa is shifted to the grid of the doubles before it
  is rounded, and after that at most by one more place (`exists_rounded_roundWithAccuracy`).
* Packing gives the magnitude `q + e * 2 ^ 52` of `Double.ofRatio` (`ofPacked_pack_carried`).
* A finite double has its significand, scale and sign as parts (`unpack_toFloat`).
-/

namespace RpnCalculator

namespace Double

open Float.Model Float.Model.UnpackedFloat

/-! ## Packing -/

/-- The sign of the machine for a sign bit. -/
def signOf (negative : Bool) : Sign := if negative then .negative else .positive

/-- The double with the given machine bits. -/
def ofPacked (b : BitVec Format.binary64.numBits) : Double := ⟨UInt64.ofBitVec b⟩

theorem ofPacked_packComponents (s : Bool) (e : BitVec Format.binary64.exponentBits)
    (m : BitVec Format.binary64.mantissaBitsWithoutImplicit) :
    ofPacked (packComponents .binary64 (signOf s) e m) =
      ofMagnitude s (e.toNat * fractionSize + m.toNat) := by
  have he : e.toNat < 2048 := e.isLt
  have hm : m.toNat < 4503599627370496 := m.isLt
  unfold ofPacked ofMagnitude packComponents
  congr 1
  refine UInt64.toNat_inj.mp ?_
  rw [UInt64.toNat_ofBitVec, BitVec.toNat_append, BitVec.toNat_append,
    ← Nat.shiftLeft_add_eq_or_of_lt m.isLt, ← Nat.shiftLeft_add_eq_or_of_lt e.isLt,
    UInt64.toNat_ofNat']
  cases s
  · simp [signOf, Sign.toBitVec, Nat.shiftLeft_eq, fractionSize]
    omega
  · simp [signOf, Sign.toBitVec, Nat.shiftLeft_eq, signBit, fractionSize]
    omega

theorem ofPacked_packedInfinity (s : Bool) :
    ofPacked (packedInfinity .binary64 (signOf s)) = ofMagnitude s infinityMagnitude := by
  cases s <;> decide

theorem ofPacked_packedZero (s : Bool) :
    ofPacked (packedZero .binary64 (signOf s)) = ofMagnitude s 0 := by
  cases s <;> decide

/-- **A number of steps is packed as its magnitude**, and as an infinity if that is too large. -/
theorem ofPacked_pack_finite (s : Bool) {e q : Nat} (hq : 0 < q) (hlt : q < 2 * fractionSize)
    (h : e = 0 ∨ fractionSize ≤ q) :
    ofPacked (UnpackedFloat.pack .binary64 (.finite (signOf s) q ((e : Int) - 1074) hq)) =
      ofMagnitude s (min (q + e * fractionSize) infinityMagnitude) := by
  have hfield : ((e : Int) - 1074 + Format.binary64.exponentBias +
      Format.binary64.mantissaBitsWithoutImplicit).toNat = e + 1 := by
    simp [Format.exponentBias]
    omega
  unfold UnpackedFloat.pack
  dsimp only
  rw [hfield]
  unfold fractionSize at *
  split
  · rename_i hbig
    have he : 2046 ≤ e := by
      simp at hbig
      omega
    rw [ofPacked_packedInfinity, Nat.min_eq_right]
    unfold infinityMagnitude
    omega
  · rename_i hbig
    have he : e < 2046 := by
      simp at hbig
      omega
    have hmin : q + e * 0x10000000000000 < infinityMagnitude := by
      unfold infinityMagnitude
      omega
    rw [Nat.min_eq_left hmin.le]
    split
    · rename_i hlog
      have hge : 0x10000000000000 ≤ q := by
        have h52 : q.log2 = 52 := by
          simp [Format.mantissaBits] at hlog
          omega
        have hself := Nat.log2_self_le hq.ne'
        rw [h52] at hself
        exact hself
      rw [ofPacked_packComponents]
      congr 1
      simp [fractionSize]
      omega
    · rename_i hlog
      have hlt' : q < 0x10000000000000 := by
        by_contra hge
        have h52 : 52 ≤ q.log2 := (Nat.le_log2 hq.ne').mpr (Nat.not_lt.mp hge)
        have h53 : q.log2 < 53 := (Nat.log2_lt hq.ne').mpr hlt
        simp [Format.mantissaBits] at hlog
        omega
      obtain rfl : e = 0 := by omega
      have hfraction : (BitVec.ofNat 52 q).toNat = q := Nat.mod_eq_of_lt hlt'
      rw [ofPacked_packComponents]
      refine congrArg (ofMagnitude s) ?_
      rw [show (0#11).toNat = 0 from rfl, hfraction, Nat.zero_mul, Nat.zero_mul, Nat.zero_add,
        Nat.add_zero]

/-! ## A mantissa with two more bits -/

/-- The mantissa is the quotient rounded down, and the two bits say how what is left over compares
with a half. -/
structure Measures (em : ExtendedMantissa) (n d : Nat) : Prop where
  mantissa : em.mantissa = n / d
  round : em.roundBit = true ↔ d ≤ 2 * (n % d)
  sticky : em.stickyBit = false ↔ n % d = 0 ∨ 2 * (n % d) = d

namespace Measures

variable {em : ExtendedMantissa} {n d : Nat}

theorem exact (m : Nat) : Measures (.ofMantissaAndAccuracy m .exact) m 1 := by
  constructor <;> simp [ExtendedMantissa.ofMantissaAndAccuracy, Nat.mod_one]

/-- The accuracy of a quotient goes with the quotient. -/
theorem quotient (n : Nat) (hd : 0 < d) :
    Measures (.ofMantissaAndAccuracy (n / d) (accuracyOfFraction (n % d) d)) n d := by
  unfold accuracyOfFraction
  split
  · rename_i h
    constructor <;> simp [ExtendedMantissa.ofMantissaAndAccuracy, h]
    omega
  · rename_i h
    rcases hcompare : compare (2 * (n % d)) d with _ | _ | _
    · rw [Nat.compare_eq_lt] at hcompare
      constructor <;> simp [ExtendedMantissa.ofMantissaAndAccuracy] <;> omega
    · rw [Nat.compare_eq_eq] at hcompare
      constructor <;> simp [ExtendedMantissa.ofMantissaAndAccuracy] <;> omega
    · rw [Nat.compare_eq_gt] at hcompare
      constructor <;> simp [ExtendedMantissa.ofMantissaAndAccuracy] <;> omega

/-- A bit that leaves the mantissa moves the others on. -/
theorem shiftRightOne (h : Measures em n d) (hd : 0 < d) : Measures em.shiftRightOne n (d * 2) := by
  obtain ⟨hm, hr, hs⟩ := h
  have hmod : n % (d * 2) = n % d + d * (n / d % 2) := Nat.mod_mul
  have hlt := Nat.mod_lt n hd
  constructor
  · show em.mantissa / 2 = _
    rw [hm, Nat.div_div_eq_div_mul]
  · show (em.mantissa % 2 != 0) = true ↔ _
    rw [hm, hmod, bne_iff_ne]
    rcases Nat.mod_two_eq_zero_or_one (n / d) with h2 | h2
    · rw [h2]; omega
    · rw [h2]; omega
  · show (em.roundBit || em.stickyBit) = false ↔ _
    rw [Bool.or_eq_false_iff, ← Bool.not_eq_true, hr, hs, hmod]
    rcases Nat.mod_two_eq_zero_or_one (n / d) with h2 | h2
    · rw [h2]; omega
    · rw [h2]; omega

theorem shiftRight (h : Measures em n d) (hd : 0 < d) (k : Nat) :
    Measures (em >>> k) n (d * 2 ^ k) := by
  induction k with
  | zero =>
    rw [Nat.pow_zero, Nat.mul_one]
    exact h
  | succ k ih =>
    rw [Nat.pow_succ, ← Nat.mul_assoc]
    exact ih.shiftRightOne (by positivity)

/-- **Rounding it is rounding the quotient.** -/
theorem roundedMantissa_eq (h : Measures em n d) (hd : 0 < d) :
    em.roundedMantissa = roundRatio n d := by
  obtain ⟨hm, hr, hs⟩ := h
  obtain ⟨m, r, s⟩ := em
  dsimp only at hm hr hs
  subst hm
  unfold roundRatio
  dsimp only
  cases r <;> cases s <;> simp only [ExtendedMantissa.roundedMantissa, ExtendedMantissa.accuracy,
    Accuracy.roundToNearestEven, Bool.false_eq_true, false_iff, true_iff, Bool.true_eq_false]
    at hr hs ⊢
  · rw [if_pos (by omega)]
  · rw [if_pos (by omega)]
  · rw [if_neg (by omega), if_neg (by omega)]
    split <;> omega
  · rw [if_neg (by omega), if_pos (by omega)]

end Measures

/-! ## Rounding a mantissa -/

/-- The exponent to which the machine shifts a mantissa. -/
theorem targetExponent_eq (m : Nat) (e : Int) :
    Format.binary64.targetExponent (totalExponent m e) = max ((m.log2 : Int) + e - 52) (-1074) := by
  simp only [Format.targetExponent, totalExponent, Format.mantissaBits, Format.minExponent]
  norm_num
  omega

/-- What is made of a mantissa after the last shift. -/
def carried (s : Sign) (p : ExtendedMantissa × Int) : UnpackedFloat :=
  if h : p.1.mantissa = 0 then .zero s else .finite s p.1.mantissa p.2 (Nat.pos_of_ne_zero h)

theorem roundWithAccuracy_eq (s : Sign) (m : Nat) (e : Int) (a : Accuracy) :
    roundWithAccuracy .binary64 s m e a =
      let first := shiftToTargetExponent .binary64 m e a
      carried s (shiftToTargetExponent .binary64 first.1.roundedMantissa first.2 .exact) := rfl

theorem ofPacked_pack_carried (s : Bool) {p : ExtendedMantissa × Int} {e q : Nat}
    (hm : p.1.mantissa = q) (he : p.2 = (e : Int) - 1074) (hlt : q < 2 * fractionSize)
    (h : e = 0 ∨ fractionSize ≤ q) :
    ofPacked (UnpackedFloat.pack .binary64 (carried (signOf s) p)) =
      ofMagnitude s (min (q + e * fractionSize) infinityMagnitude) := by
  obtain ⟨⟨m, b, c⟩, e'⟩ := p
  dsimp only at hm he
  subst hm he
  unfold carried
  split
  · rename_i h0
    dsimp only at h0
    obtain rfl : e = 0 := by
      unfold fractionSize at h
      omega
    subst h0
    exact ofPacked_packedZero s
  · rename_i h0
    exact ofPacked_pack_finite s (Nat.pos_of_ne_zero h0) hlt h

/-- A rounded mantissa has at most 53 bits or is one step longer, and then it is shifted by one
more place. -/
theorem ofPacked_pack_carry (s : Bool) {e q : Nat} (hq : q ≤ 2 * fractionSize)
    (h : e = 0 ∨ fractionSize ≤ q) :
    ofPacked (UnpackedFloat.pack .binary64
      (carried (signOf s) (shiftToTargetExponent .binary64 q ((e : Int) - 1074) .exact))) =
      ofMagnitude s (min (q + e * fractionSize) infinityMagnitude) := by
  have hshift (k : Nat) (hk : (max ((q.log2 : Int) + ((e : Int) - 1074) - 52) (-1074) -
      ((e : Int) - 1074)).toNat = k) :
      shiftToTargetExponent .binary64 q ((e : Int) - 1074) .exact =
        (ExtendedMantissa.ofMantissaAndAccuracy q .exact >>> k, (e : Int) - 1074 + k) := by
    unfold shiftToTargetExponent shiftToExponent
    dsimp only
    rw [targetExponent_eq, hk]
  rcases hq.lt_or_eq with hlt | rfl
  · have hlog : q.log2 ≤ 52 := by
      by_cases h0 : q = 0
      · simp [h0]
      · have := (Nat.log2_lt h0).mpr (show q < 2 ^ 53 from hlt)
        omega
    rw [hshift 0 (by omega)]
    exact ofPacked_pack_carried s rfl (by simp) hlt h
  · have hlog : (2 * fractionSize).log2 = 53 := (Nat.log2_eq_iff (by decide)).mpr (by decide)
    rw [hshift 1 (by omega)]
    rw [ofPacked_pack_carried s (e := e + 1) (q := fractionSize) rfl (by push_cast; ring)
      (by decide) (.inr le_rfl)]
    congr 2
    ring

/-- **The machine rounds a measured mantissa to the nearest double.** -/
theorem exists_rounded_roundWithAccuracy (s : Bool) {m n d : Nat} {e : Int} {a : Accuracy}
    (hd : 0 < d) (h : Measures (.ofMantissaAndAccuracy m a) n d)
    (he : e ≤ max ((m.log2 : Int) + e - 52) (-1074)) :
    ∃ e' q, Rounded ((n : Rat) / d * 2 ^ e) e' q ∧
      ofPacked (UnpackedFloat.pack .binary64 (roundWithAccuracy .binary64 (signOf s) m e a)) =
        ofMagnitude s (min (q + e' * fractionSize) infinityMagnitude) := by
  have hm : m = n / d := by
    rw [← h.mantissa]
    cases a with
    | exact => rfl
    | inexact o => cases o <;> rfl
  obtain ⟨t, ht⟩ : ∃ t, t = max ((m.log2 : Int) + e - 52) (-1074) := ⟨_, rfl⟩
  rw [← ht] at he
  obtain ⟨k, hk⟩ := Int.eq_ofNat_of_zero_le (show 0 ≤ t - e by omega)
  obtain ⟨e', he'⟩ := Int.eq_ofNat_of_zero_le (show 0 ≤ t + 1074 by omega)
  have hround : Rounded ((n : Rat) / d * 2 ^ e) e' (roundRatio n (d * 2 ^ k)) := by
    have hstep : step e' = 2 ^ t := by
      rw [step]
      congr 1
      omega
    have hF : (fractionSize : Rat) = 2 ^ (52 : Int) := by norm_num [fractionSize]
    have hpow : (2 : Rat) ^ t = 2 ^ k * 2 ^ e := by
      rw [← zpow_natCast, ← zpow_add₀ two_ne_zero]
      congr 1
      omega
    have hdpos : (0 : Rat) < d := by exact_mod_cast hd
    refine .of_quotient (by positivity) ?_ ?_ ?_
    · rw [hstep, hpow]
      push_cast
      field_simp
    · have hlt : (n : Rat) / d < 2 ^ ((m.log2 : Int) + 1) := by
        have hup : n < 2 ^ (m.log2 + 1) * d := by
          rw [← Nat.div_lt_iff_lt_mul hd, ← hm]
          exact Nat.lt_log2_self
        rw [div_lt_iff₀ hdpos]
        exact_mod_cast hup
      calc (n : Rat) / d * 2 ^ e < 2 ^ ((m.log2 : Int) + 1) * 2 ^ e :=
            mul_lt_mul_of_pos_right hlt (by positivity)
        _ ≤ 2 * fractionSize * step e' := by
            rw [hF, hstep, ← zpow_add₀ two_ne_zero, ← zpow_one_add₀ two_ne_zero,
              ← zpow_add₀ two_ne_zero]
            exact zpow_le_zpow_right₀ (by norm_num) (by omega)
    · by_cases h0 : e' = 0
      · exact .inl h0
      · right
        have hm0 : m ≠ 0 := by
          rintro rfl
          rw [Nat.log2_zero] at ht
          omega
        have hle : (2 : Rat) ^ (m.log2 : Int) ≤ n / d :=
          calc (2 : Rat) ^ (m.log2 : Int) ≤ m := by exact_mod_cast Nat.log2_self_le hm0
            _ ≤ n / d := by
              rw [hm]
              exact Nat.cast_div_le
        calc fractionSize * step e' ≤ 2 ^ (m.log2 : Int) * 2 ^ e := by
              rw [hF, hstep, ← zpow_add₀ two_ne_zero, ← zpow_add₀ two_ne_zero]
              exact zpow_le_zpow_right₀ (by norm_num) (by omega)
          _ ≤ n / d * 2 ^ e := mul_le_mul_of_nonneg_right hle (by positivity)
  refine ⟨e', roundRatio n (d * 2 ^ k), hround, ?_⟩
  rw [roundWithAccuracy_eq]
  have hfirst : shiftToTargetExponent .binary64 m e a =
      (ExtendedMantissa.ofMantissaAndAccuracy m a >>> k, (e' : Int) - 1074) := by
    unfold shiftToTargetExponent shiftToExponent
    dsimp only
    rw [targetExponent_eq, ← ht, hk, Int.toNat_natCast]
    congr 1
    omega
  rw [hfirst]
  dsimp only
  rw [(h.shiftRight hd k).roundedMantissa_eq (by positivity)]
  exact ofPacked_pack_carry s hround.le_two_mul hround.ge

/-! ## The parts of a double -/

/-- A finite double as the machine sees it. -/
def unpacked (x : Double) : UnpackedFloat :=
  if h : x.significand = 0 then .zero (signOf x.negative)
  else .finite (signOf x.negative) x.significand x.scale (Nat.pos_of_ne_zero h)

theorem toNat_unpackExponent (x : Double) :
    (@unpackExponent .binary64 x.bits.toBitVec).toNat = x.exponentField := by
  have hlt := x.bits.toNat_lt
  simp only [unpackExponent, BitVec.toNat_cast, BitVec.extractLsb_toNat, Nat.shiftRight_eq_div_pow,
    UInt64.toNat_toBitVec, exponentField, magnitude, signBit, fractionSize]
  omega

theorem toNat_unpackMantissa (x : Double) :
    (@unpackMantissa .binary64 x.bits.toBitVec).toNat = x.fraction := by
  simp only [unpackMantissa, BitVec.toNat_cast, BitVec.extractLsb_toNat, Nat.shiftRight_eq_div_pow,
    UInt64.toNat_toBitVec, fraction, magnitude, signBit, fractionSize]
  omega

theorem ofBitVec_unpackSign (x : Double) :
    Sign.ofBitVec (@unpackSign .binary64 x.bits.toBitVec) = signOf x.negative := by
  have hlt := x.bits.toNat_lt
  have hsign : (@unpackSign .binary64 x.bits.toBitVec).toNat = x.bits.toNat / 2 ^ 63 := by
    simp only [unpackSign, BitVec.toNat_cast, BitVec.extractLsb_toNat, Nat.shiftRight_eq_div_pow,
      UInt64.toNat_toBitVec]
    omega
  have hzero : @unpackSign .binary64 x.bits.toBitVec = 0#1 ↔ ¬signBit ≤ x.bits.toNat := by
    rw [← BitVec.toNat_inj, hsign, signBit]
    show _ = 0 ↔ _
    omega
  unfold Sign.ofBitVec signOf negative
  by_cases h : signBit ≤ x.bits.toNat <;> simp [hzero, h]

theorem finite_congr {s : Sign} {m m' : Nat} {e e' : Int} {hm : 0 < m} (hm' : 0 < m') (h : m = m')
    (he : e = e') : UnpackedFloat.finite s m e hm = .finite s m' e' hm' := by
  subst h he
  rfl

theorem unpack_bits {x : Double} (h : x.isFinite = true) :
    UnpackedFloat.unpack .binary64 x.bits.toBitVec = x.unpacked := by
  have hexponent := x.toNat_unpackExponent
  have hmantissa := x.toNat_unpackMantissa
  have hfield : x.exponentField < 2047 := by
    rw [isFinite, decide_eq_true_iff, infinityMagnitude] at h
    unfold exponentField fractionSize
    omega
  have hne : @unpackExponent .binary64 x.bits.toBitVec ≠ -1#_ := by
    intro heq
    rw [heq] at hexponent
    have : (2047 : Nat) = x.exponentField := hexponent
    omega
  unfold UnpackedFloat.unpack
  dsimp only
  rw [if_neg hne, ofBitVec_unpackSign]
  by_cases h0 : x.exponentField = 0
  · have hezero : @unpackExponent .binary64 x.bits.toBitVec = 0#_ := by
      rw [← BitVec.toNat_inj, hexponent, h0]
      rfl
    have hsignificand : x.significand = x.fraction := if_pos h0
    have hscale : x.scale = -1074 := by
      rw [scale, h0]
      rfl
    rw [if_pos hezero]
    split
    · rename_i hzero
      have hfraction : x.significand = 0 := by
        rw [hsignificand, ← hmantissa, hzero]
        rfl
      rw [unpacked, dif_pos hfraction]
    · rename_i hzero
      have hfraction : x.significand ≠ 0 := by
        intro heq
        refine hzero (BitVec.toNat_inj.mp ?_)
        rw [hmantissa, ← hsignificand, heq]
        rfl
      rw [unpacked, dif_neg hfraction]
      refine finite_congr _ (hmantissa.trans hsignificand.symm) ?_
      rw [hexponent, h0, hscale]
      rfl
  · have hezero : @unpackExponent .binary64 x.bits.toBitVec ≠ 0#_ := by
      intro heq
      rw [heq] at hexponent
      exact h0 hexponent.symm
    have hsignificand : x.significand = fractionSize + x.fraction := if_neg h0
    have hpos : x.significand ≠ 0 := by
      rw [hsignificand]
      exact Nat.ne_of_gt (Nat.add_pos_left (by decide) _)
    rw [if_neg hezero, unpacked, dif_neg hpos]
    refine finite_congr _ ?_ ?_
    · rw [BitVec.toNat_append, ← Nat.shiftLeft_add_eq_or_of_lt (BitVec.isLt _), hmantissa,
        hsignificand]
      rfl
    · rw [hexponent, scale]
      simp [Format.exponentBias]
      omega

/-- Packed again, the parts are the double, or its negative if they are given the other sign. -/
theorem ofPacked_pack_parts {x : Double} (h : x.isFinite = true) (s : Bool) :
    ofPacked (UnpackedFloat.pack .binary64
      (carried (signOf s) (⟨x.significand, false, false⟩, x.scale))) =
      ofMagnitude s x.magnitude := by
  rw [isFinite, decide_eq_true_iff] at h
  have hparts : x.magnitude = fractionSize * x.exponentField + x.fraction :=
    (Nat.div_add_mod _ _).symm
  have hfraction : x.fraction < fractionSize := Nat.mod_lt _ (by decide)
  obtain ⟨e, he⟩ : ∃ e, max 1 x.exponentField = e + 1 :=
    ⟨_, (Nat.sub_add_cancel (le_max_left 1 _)).symm⟩
  have hscale : x.scale = (e : Int) - 1074 := by
    rw [scale]
    omega
  have hsteps : x.significand + e * fractionSize = x.magnitude := by
    unfold significand
    unfold fractionSize at *
    split <;> omega
  have hlt : x.significand < 2 * fractionSize := by
    unfold significand
    split <;> omega
  have hge : e = 0 ∨ fractionSize ≤ x.significand := by
    unfold significand
    split <;> omega
  rw [ofPacked_pack_carried s rfl hscale hlt hge, hsteps, Nat.min_eq_left h.le]

theorem ofMagnitude_self {x : Double} (h : x.isFinite = true) :
    ofMagnitude x.negative x.magnitude = x := by
  rw [isFinite, decide_eq_true_iff] at h
  have hbelow : x.magnitude < signBit := h.trans (by decide)
  exact eq_of_magnitude_eq (negative_ofMagnitude _ hbelow) (magnitude_ofMagnitude _ hbelow)

theorem ofPacked_pack_unpacked {x : Double} (h : x.isFinite = true) :
    ofPacked (UnpackedFloat.pack .binary64 x.unpacked) = x :=
  (ofPacked_pack_parts h x.negative).trans (ofMagnitude_self h)

/-- The machine number of a finite double has its parts. -/
theorem unpack_toFloat {x : Double} (h : x.isFinite = true) :
    x.toFloat.toModel.unpack = x.unpacked := by
  have hbits : x.toFloat.toModel.toBits = x.bits := by
    have hpack := congrArg Double.bits (ofPacked_pack_unpacked h)
    rw [← unpack_bits h] at hpack
    exact hpack
  rw [Float.Model.unpack, hbits, unpack_bits h]

end Double
end RpnCalculator
