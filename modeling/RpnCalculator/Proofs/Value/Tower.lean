import Mathlib.Data.Rat.Floor
import RpnCalculator.Value.WellFormed
import RpnCalculator.Value.Arithmetic

/-!
# Exact numbers

Words, integers and rationals stand for rational numbers (`Value.number?`).  The operations on
them are written twice, once for integers and once for rationals, and a word is made one or the
other before it gets there.  This file shows that there is one arithmetic behind them, that of
the rational numbers.

The arithmetic is `BinaryOperator.exactly?`: the sum, the difference, the product, the quotient,
what is left over by the floored quotient, and the six comparisons.  Two equations say that
the operations on integers and those on rationals both come to it (`combine_integer`,
`combine_rational`).  They differ in the kind of the result only.  On integers it is an integer
whenever it can be (`Value.ofExact`), and on rationals it stays a rational.

From the equations the rest is read off: which result has which kind, that only a division by
zero fails, and that operands can come to the rationals before the operation or the result
after it (`exact_tower`).  None of this needs a fraction to be in lowest terms, but the results
are.

Powers and the operations on bits are not among these operators; two words are combined modulo
the number of words, so they are not among the operands.
-/

namespace RpnCalculator

namespace Value

/-- The number that an exact value stands for: of a word, its visible part. -/
def number? (d : Display) : Value → Option Rat
  | .integer n => some n
  | .rational q => some q.toRat
  | .binary bits => some (d.word bits)
  | _ => none

/-- A number as an integer if it is one, and as a rational if not. -/
def ofExact (r : Rat) : Value := if r.den = 1 then .integer r.num else ofRat r

@[simp] theorem ofExact_intCast (n : Int) : ofExact n = .integer n := by
  simp [ofExact]

theorem ofExact_of_den_ne_one {r : Rat} (h : r.den ≠ 1) : ofExact r = ofRat r := if_neg h

@[simp] theorem number?_ofRat (d : Display) (r : Rat) : (ofRat r).number? d = some r := by
  simp [ofRat, number?]

@[simp] theorem number?_ofExact (d : Display) (r : Rat) : (ofExact r).number? d = some r := by
  unfold ofExact
  split
  · rename_i h
    rw [number?, Rat.den_eq_one_iff r |>.mp h]
  · exact number?_ofRat d r

theorem truth_eq_ofExact (b : Bool) : truth b = ofExact (if b then 1 else 0) := by
  cases b
  · exact (ofExact_intCast 0).symm
  · exact (ofExact_intCast 1).symm

end Value

namespace BinaryOperator

open Value (ofExact ofRat)

/-! ## The arithmetic -/

/-- Whether the operator compares its operands. -/
def isComparison (op : BinaryOperator) : Bool := op.isEquality || op.isOrdering

/-- Whether the operator is one of those of which exact numbers have an exact result. -/
def isExact : BinaryOperator → Bool
  | .add | .sub | .mul | .div | .mod => true
  | op => op.isComparison

/-- What an operator comes to on rational numbers, if it comes to anything.  A comparison comes
to one if it holds and to zero if it does not. -/
def exactly? (op : BinaryOperator) (p q : Rat) : Option Rat :=
  match op with
  | .add => some (p + q)
  | .sub => some (p - q)
  | .mul => some (p * q)
  | .div => if q = 0 then none else some (p / q)
  | .mod => if q = 0 then none else some (p - q * ⌊p / q⌋)
  | .eq => some (if p = q then 1 else 0)
  | .ne => some (if p ≠ q then 1 else 0)
  | .lt => some (if p < q then 1 else 0)
  | .le => some (if p ≤ q then 1 else 0)
  | .gt => some (if q < p then 1 else 0)
  | .ge => some (if q ≤ p then 1 else 0)
  | .pow | .and | .or | .xor => none

/-- The result for a number, or the fault if there is none. -/
def resultOf (make : Rat → Value) : Option Rat → Except Fault Value
  | some r => .ok (make r)
  | none => outside .divisionByZero

theorem resultOf_eq_error_iff {make : Rat → Value} {o : Option Rat} {f : Fault} :
    resultOf make o = .error f ↔ o = none ∧ f = .domain .divisionByZero := by
  cases o <;> simp [resultOf, outside, eq_comm]

theorem exactly?_eq_none_iff {op : BinaryOperator} (h : op.isExact = true) {p q : Rat} :
    op.exactly? p q = none ↔ (op = .div ∨ op = .mod) ∧ q = 0 := by
  cases op <;> simp [exactly?, isExact, isComparison, isEquality, isOrdering] at h ⊢

theorem isExact_of_exactly? {op : BinaryOperator} {p q r : Rat} (h : op.exactly? p q = some r) :
    op.isExact = true := by
  cases op <;> first | rfl | simp [exactly?] at h

/-- **What the modulus leaves** is zero or has the sign of the divisor, and is smaller. -/
theorem modulus_spec {p q r : Rat} (h : BinaryOperator.mod.exactly? p q = some r) :
    p = q * ⌊p / q⌋ + r ∧ |r| < |q| ∧ (r = 0 ∨ 0 < r ∧ 0 < q ∨ r < 0 ∧ q < 0) := by
  simp only [exactly?, Option.ite_none_left_eq_some, Option.some.injEq] at h
  obtain ⟨hq, rfl⟩ := h
  have hfract : p - q * ⌊p / q⌋ = q * Int.fract (p / q) := by
    rw [Int.fract, mul_sub, mul_div_cancel₀ p hq]
  have hnonneg := Int.fract_nonneg (p / q)
  have hlt := Int.fract_lt_one (p / q)
  refine ⟨by ring, ?_, ?_⟩
  · rw [hfract, abs_mul, abs_of_nonneg hnonneg]
    exact mul_lt_of_lt_one_right (abs_pos.mpr hq) hlt
  · rw [hfract]
    rcases hnonneg.eq_or_lt with h0 | hpos
    · exact .inl (by rw [← h0, mul_zero])
    · rcases lt_or_gt_of_ne hq with hneg | hpos'
      · exact .inr (.inr ⟨mul_neg_of_neg_of_pos hneg hpos, hneg⟩)
      · exact .inr (.inl ⟨mul_pos hpos' hpos, hpos'⟩)

/-! ## Comparisons -/

/-- The order of integers is that of the numbers. -/
theorem orderOf_intCast (m n : Int) : orderOf (m : Rat) (n : Rat) = orderOf m n := by
  simp [orderOf]

/-- An ordering is what the two orders of its operands make of it. -/
theorem exactly?_of_isOrdering {op : BinaryOperator} (h : op.isOrdering = true) (p q : Rat) :
    op.exactly? p q = some (if op.holds (orderOf p q) = true then 1 else 0) := by
  rcases lt_trichotomy p q with hpq | rfl | hpq
  · have horder : orderOf p q = .lt := if_pos hpq
    cases op <;> simp [isOrdering] at h <;>
      simp [exactly?, holds, horder, hpq, hpq.le, hpq.not_gt, hpq.not_ge]
  · have horder : orderOf p p = .eq := by simp [orderOf]
    cases op <;> simp [isOrdering] at h <;> simp [exactly?, holds, horder]
  · have horder : orderOf p q = .gt := by simp [orderOf, hpq.not_gt, hpq.ne']
    cases op <;> simp [isOrdering] at h <;>
      simp [exactly?, holds, horder, hpq, hpq.le, hpq.not_gt, hpq.not_ge]

/-- An equality is what one number makes of being the other. -/
theorem exactly?_of_isEquality {op : BinaryOperator} (h : op.isEquality = true) (p q : Rat) :
    op.exactly? p q =
      some (if (if op = .ne then !decide (p = q) else decide (p = q)) = true then 1 else 0) := by
  cases op <;> simp [isEquality] at h <;> simp [exactly?]

/-! ## Integers -/

theorem floor_intCast_div (m n : Int) : ⌊(m : Rat) / n⌋ = m.fdiv n := by
  obtain ⟨k, rfl | rfl⟩ := Int.eq_nat_or_neg n
  · rw [Int.fdiv_eq_ediv_of_nonneg m (Int.natCast_nonneg k), Int.cast_natCast,
      Rat.floor_intCast_div_natCast]
  · have hneg : (m : Rat) / ((-k : Int) : Rat) = ((-m : Int) : Rat) / (k : Rat) := by
      push_cast
      rw [div_neg, neg_div]
    have hfdiv : m.fdiv (-k) = (-m).fdiv k := by
      rw [← Int.neg_fdiv_neg, neg_neg]
    rw [hneg, Rat.floor_intCast_div_natCast, hfdiv,
      Int.fdiv_eq_ediv_of_nonneg (-m) (Int.natCast_nonneg k)]

theorem intCast_fmod (m n : Int) : ((m.fmod n : Int) : Rat) = m - n * ⌊(m : Rat) / n⌋ := by
  rw [floor_intCast_div, Int.fmod_def]
  push_cast
  ring

/-- A quotient of integers is an integer when nothing is left over. -/
theorem den_div_eq_one_iff {m n : Int} (hn : n ≠ 0) :
    ((m : Rat) / n).den = 1 ↔ m % n = 0 := by
  have hn' : (n : Rat) ≠ 0 := Int.cast_ne_zero.mpr hn
  rw [Rat.den_eq_one_iff, ← Int.dvd_iff_emod_eq_zero]
  constructor
  · intro h
    rw [eq_div_iff hn'] at h
    exact ⟨_, by rw [mul_comm]; exact_mod_cast h.symm⟩
  · rintro ⟨k, rfl⟩
    have hk : ((n * k : Int) : Rat) / n = k := by
      rw [Int.cast_mul, mul_div_cancel_left₀ _ hn']
    rw [hk, Rat.num_intCast]

/-- The division of integers tells the two kinds apart as `ofExact` does. -/
theorem ofExact_div {m n : Int} (hn : n ≠ 0) :
    ofExact ((m : Rat) / n) =
      if m % n = 0 then .integer (m / n) else .ofRat (Rat.divInt m n) := by
  rw [Rat.divInt_eq_div]
  split
  · rename_i h
    obtain ⟨k, rfl⟩ := Int.dvd_iff_emod_eq_zero.mpr h
    rw [Int.cast_mul, mul_div_cancel_left₀ _ (Int.cast_ne_zero.mpr hn),
      Int.mul_ediv_cancel_left k hn, Value.ofExact_intCast]
  · rename_i h
    exact Value.ofExact_of_den_ne_one (mt (den_div_eq_one_iff hn).mp h)

variable {d : Display} {op : BinaryOperator}

/-- **Integers are combined as the numbers that they are**, and what is an integer stays
one. -/
theorem combine_integer (h : op.isExact = true) (m n : Int) :
    op.combine d (.integer m) (.integer n) = resultOf ofExact (op.exactly? m n) := by
  by_cases heq : op.isEquality = true
  · rw [combine, if_pos heq, exactly?_of_isEquality heq, resultOf, ← Value.truth_eq_ofExact]
    simp only [equality, Value.equals, Int.cast_inj]
    rfl
  by_cases hord : op.isOrdering = true
  · rw [combine, if_neg heq, if_pos hord, exactly?_of_isOrdering hord, resultOf,
      ← Value.truth_eq_ofExact]
    simp only [order?, orderOf_intCast]
  · rw [combine, if_neg heq, if_neg hord]
    cases op with
    | add =>
      have hsum : (m : Rat) + n = (m + n : Int) := (Int.cast_add m n).symm
      simp only [onIntegers, exactly?, resultOf, hsum, Value.ofExact_intCast]
    | sub =>
      have hdifference : (m : Rat) - n = (m - n : Int) := (Int.cast_sub m n).symm
      simp only [onIntegers, exactly?, resultOf, hdifference, Value.ofExact_intCast]
    | mul =>
      have hproduct : (m : Rat) * n = (m * n : Int) := (Int.cast_mul m n).symm
      simp only [onIntegers, exactly?, resultOf, hproduct, Value.ofExact_intCast]
    | div =>
      by_cases hn : n = 0
      · simp [onIntegers, exactly?, resultOf, hn]
      · have hn' : (n : Rat) ≠ 0 := Int.cast_ne_zero.mpr hn
        simp only [onIntegers, exactly?, hn, hn', if_false, resultOf, ofExact_div hn]
        split <;> rfl
    | mod =>
      by_cases hn : n = 0
      · simp [onIntegers, exactly?, resultOf, hn]
      · have hn' : (n : Rat) ≠ 0 := Int.cast_ne_zero.mpr hn
        simp only [onIntegers, exactly?, hn, hn', if_false, resultOf, ← intCast_fmod,
          Value.ofExact_intCast]
    | _ => simp [isEquality, isOrdering, isExact, isComparison] at h heq hord

/-! ## Rationals -/

/-- **Rationals are combined as the numbers that they are**, and stay rationals unless they
are compared. -/
theorem combine_rational (h : op.isExact = true) (f g : Fraction) :
    op.combine d (.rational f) (.rational g) =
      resultOf (if op.isComparison then ofExact else ofRat) (op.exactly? f.toRat g.toRat) := by
  by_cases heq : op.isEquality = true
  · have hcompare : op.isComparison = true := by simp [isComparison, heq]
    rw [combine, if_pos heq, exactly?_of_isEquality heq, if_pos hcompare, resultOf,
      ← Value.truth_eq_ofExact]
    simp only [equality, Value.equals]
    rfl
  by_cases hord : op.isOrdering = true
  · have hcompare : op.isComparison = true := by simp [isComparison, hord]
    rw [combine, if_neg heq, if_pos hord, exactly?_of_isOrdering hord, if_pos hcompare,
      resultOf, ← Value.truth_eq_ofExact]
    simp only [order?]
  · have hcompare : ¬op.isComparison = true := by simp [isComparison, heq, hord]
    rw [combine, if_neg heq, if_neg hord, if_neg hcompare]
    cases op with
    | add | sub | mul => rfl
    | div | mod =>
      simp only [onRationals, exactly?]
      split <;> rfl
    | _ => simp [isEquality, isOrdering, isExact, isComparison] at h heq hord

/-! ## Where exact numbers meet -/

variable {v a b : Value} {p q : Rat}

/-- A word or an integer comes to the integers as the number it stands for. -/
theorem coerce_integer (h : v.number? d = some p) (hk : v.kind ≠ .rational) :
    ∃ m : Int, p = m ∧ coerce d .integer v = .ok (.integer m) := by
  cases v with
  | binary bits =>
    refine ⟨d.word bits, ?_, rfl⟩
    simpa [Value.number?, eq_comm] using h
  | integer n =>
    refine ⟨n, ?_, rfl⟩
    simpa [Value.number?, eq_comm] using h
  | rational f => exact absurd rfl hk
  | _ => simp [Value.number?] at h

/-- Every exact value comes to the rationals as the number it stands for, and a conversion
brings it there too. -/
theorem coerce_rational (h : v.number? d = some p) :
    ∃ f : Fraction, f.toRat = p ∧ coerce d .rational v = .ok (.rational f) ∧
      v.convert d .rational = .ok (.rational f) := by
  cases v with
  | binary bits =>
    refine ⟨.ofInt (d.word bits), ?_, rfl, rfl⟩
    simpa [Value.number?] using h
  | integer n =>
    refine ⟨.ofInt n, ?_, rfl, rfl⟩
    simpa [Value.number?] using h
  | rational f =>
    refine ⟨f, ?_, rfl, rfl⟩
    simpa [Value.number?] using h
  | _ => simp [Value.number?] at h

/-- What an exact value is, as far as the rule for operands is concerned. -/
theorem kind_of_number? (h : v.number? d = some p) :
    v.kind = .binary ∨ v.kind = .integer ∨ v.kind = .rational := by
  cases v <;> simp [Value.number?, Value.kind] at h ⊢

/-- Two words apart, exact values meet in the integers unless one of them is a rational. -/
theorem join?_of_exact {k l : Kind} (hk : k = .binary ∨ k = .integer ∨ k = .rational)
    (hl : l = .binary ∨ l = .integer ∨ l = .rational) (h : ¬(k = .binary ∧ l = .binary)) :
    k.join? l = some (if k = .rational ∨ l = .rational then .rational else .integer) := by
  rcases hk with rfl | rfl | rfl <;> rcases hl with rfl | rfl | rfl <;>
    first
    | rfl
    | exact absurd ⟨rfl, rfl⟩ h

/-- How the result is made of a number: as a rational if an operand is one, unless the operands
are only compared. -/
def makes (op : BinaryOperator) (a b : Value) : Rat → Value :=
  if (a.kind = .rational ∨ b.kind = .rational) ∧ op.isComparison = false then ofRat
  else ofExact

theorem makes_of_isComparison (h : op.isComparison = true) : op.makes a b = ofExact :=
  if_neg fun hmake => by simp [h] at hmake

@[simp] theorem number?_makes (r : Rat) : (op.makes a b r).number? d = some r := by
  unfold makes
  split <;> simp

/-- **The operation on exact numbers**, two words apart, is the arithmetic.  The kinds of the
operands decide only in which kind the result is given. -/
theorem apply_exact (h : op.isExact = true) (ha : a.number? d = some p)
    (hb : b.number? d = some q) (hab : ¬(a.kind = .binary ∧ b.kind = .binary)) :
    op.apply d a b = resultOf (op.makes a b) (op.exactly? p q) := by
  have hka := kind_of_number? ha
  have hkb := kind_of_number? hb
  have hmet : op.apply d a b = op.combineMet d a b := by
    refine apply_eq_combineMet d op fun _ => ?_
    rcases hka with hk | hk | hk <;> simp [hk]
  have hjoin := join?_of_exact hka hkb hab
  rw [hmet, combineMet_of_join? hjoin]
  by_cases hrat : a.kind = .rational ∨ b.kind = .rational
  · obtain ⟨f, rfl, hf, -⟩ := coerce_rational ha
    obtain ⟨g, rfl, hg, -⟩ := coerce_rational hb
    rw [if_pos hrat, hf, hg]
    show op.combine d (.rational f) (.rational g) = _
    rw [combine_rational h, makes]
    cases op.isComparison <;> simp [hrat]
  · have hneither := not_or.mp hrat
    obtain ⟨m, rfl, hm⟩ := coerce_integer ha hneither.1
    obtain ⟨n, rfl, hn⟩ := coerce_integer hb hneither.2
    rw [if_neg hrat, hm, hn]
    show op.combine d (.integer m) (.integer n) = _
    rw [combine_integer h, makes, if_neg fun hmake => hrat hmake.1]

/-! ## The kind of the result -/

/-- A comparison comes to zero or one. -/
theorem eq_zero_or_one {r : Rat} (h : op.isComparison = true) (hr : op.exactly? p q = some r) :
    r = 0 ∨ r = 1 := by
  cases op <;> simp [isComparison, isEquality, isOrdering] at h <;>
    simp only [exactly?, Option.some.injEq] at hr <;> subst hr <;> split <;> simp

/-- Sums, differences, products, remainders and comparisons of integers are integers. -/
theorem exists_int_of_exactly? {m n : Int} {r : Rat} (hr : op.exactly? m n = some r)
    (hdiv : op ≠ .div) : ∃ k : Int, r = k := by
  cases op with
  | add => exact ⟨m + n, by simpa [exactly?, eq_comm] using hr⟩
  | sub => exact ⟨m - n, by simpa [exactly?, eq_comm] using hr⟩
  | mul => exact ⟨m * n, by simpa [exactly?, eq_comm] using hr⟩
  | div => exact absurd rfl hdiv
  | mod =>
    simp only [exactly?, Option.ite_none_left_eq_some, Option.some.injEq] at hr
    exact ⟨m.fmod n, by rw [intCast_fmod, hr.2]⟩
  | eq | ne | lt | le | gt | ge =>
    rcases eq_zero_or_one rfl hr with rfl | rfl
    · exact ⟨0, rfl⟩
    · exact ⟨1, rfl⟩
  | pow | and | or | xor => simp [exactly?] at hr

/-- An operand that is a rational makes the result of arithmetic one. -/
theorem kind_makes_rational (hrat : a.kind = .rational ∨ b.kind = .rational)
    (hop : op.isComparison = false) (r : Rat) : (op.makes a b r).kind = .rational := by
  rw [makes, if_pos ⟨hrat, hop⟩]
  rfl

/-- The result of a comparison is an integer. -/
theorem kind_makes_comparison {r : Rat} (hop : op.isComparison = true)
    (hr : op.exactly? p q = some r) : (op.makes a b r).kind = .integer := by
  rw [makes_of_isComparison hop]
  rcases eq_zero_or_one hop hr with rfl | rfl <;> rfl

/-- Without one the result is an integer, but for a division with a remainder. -/
theorem kind_makes_integer (ha : a.number? d = some p) (hb : b.number? d = some q)
    (hka : a.kind ≠ .rational) (hkb : b.kind ≠ .rational) {r : Rat}
    (hr : op.exactly? p q = some r) (hop : op = .div → r.den = 1) :
    (op.makes a b r).kind = .integer := by
  obtain ⟨m, rfl, -⟩ := coerce_integer ha hka
  obtain ⟨n, rfl, -⟩ := coerce_integer hb hkb
  have hden : r.den = 1 := by
    by_cases hdiv : op = .div
    · exact hop hdiv
    · obtain ⟨k, rfl⟩ := exists_int_of_exactly? hr hdiv
      exact Rat.den_intCast k
  rw [makes, if_neg fun hmake => hmake.1.elim hka hkb, ofExact, if_pos hden]
  rfl

/-- A number that is not an integer is a fraction in lowest terms. -/
theorem exists_makes_eq_fraction {r : Rat} (hden : r.den ≠ 1) :
    ∃ f : Fraction, op.makes a b r = .rational f ∧ f.Reduced ∧ 1 < f.den := by
  refine ⟨.ofRat r, ?_, Fraction.reduced_ofRat r, ?_⟩
  · unfold makes
    split
    · rfl
    · exact Value.ofExact_of_den_ne_one hden
  · have hpos := r.den_pos
    show (1 : Int) < r.den
    omega

/-! ## Coming to the rationals before and after -/

/-- A number comes to the rationals the same from either kind. -/
theorem convert_makes (r : Rat) : (op.makes a b r).convert d .rational = .ok (ofRat r) := by
  unfold makes
  split
  · rfl
  · unfold ofExact
    split
    · rename_i h
      show Except.ok (Value.rational ⟨r.num, 1⟩) = .ok (.rational ⟨r.num, r.den⟩)
      rw [h]
      rfl
    · rfl

/-- Operands that are rationals already are combined as the same numbers. -/
theorem apply_converted (h : op.isExact = true) (ha : a.number? d = some p)
    (hb : b.number? d = some q) :
    (a.convert d .rational >>= fun a' => b.convert d .rational >>= fun b' => op.apply d a' b') =
      resultOf (if op.isComparison then ofExact else ofRat) (op.exactly? p q) := by
  obtain ⟨f, rfl, -, hf⟩ := coerce_rational ha
  obtain ⟨g, rfl, -, hg⟩ := coerce_rational hb
  rw [hf, hg]
  show op.apply d (.rational f) (.rational g) = _
  rw [apply_exact h rfl rfl (by simp [Value.kind]), makes]
  cases op.isComparison <;> simp [Value.kind]

/-- **Exact numbers of any kind obey one arithmetic.**  Words, integers and rationals, two
words apart, are added, subtracted, multiplied, divided, reduced and compared as the rational
numbers they stand for, and only a division or a modulus by zero fails.  The result is an
integer unless an operand is a rational or a division leaves something over, and it makes no
difference whether the operands come to the rationals before the operation or the result
after it. -/
theorem exact_tower (d : Display) {a b : Value} {p q : Rat} (ha : a.number? d = some p)
    (hb : b.number? d = some q) (hab : ¬(a.kind = .binary ∧ b.kind = .binary)) :
    -- the result
    (∀ op : BinaryOperator, ∀ r, op.exactly? p q = some r →
      ∃ v, op.apply d a b = .ok v ∧ v.number? d = some r ∧
        (op.isComparison = true → v.kind = .integer) ∧
        (a.kind = .rational ∨ b.kind = .rational → op.isComparison = false →
          v.kind = .rational) ∧
        (a.kind ≠ .rational → b.kind ≠ .rational →
          if op = .div ∧ r.den ≠ 1 then ∃ f : Fraction, v = .rational f ∧ f.Reduced ∧ 1 < f.den
          else v.kind = .integer)) ∧
    -- the faults
    (∀ op : BinaryOperator, op.isExact = true →
      ((∃ f, op.apply d a b = .error f) ↔ (op = .div ∨ op = .mod) ∧ q = 0) ∧
        ∀ f, op.apply d a b = .error f → f.category = .domain) ∧
    -- the modulus
    (∀ v, BinaryOperator.mod.apply d a b = .ok v →
      ∃ r, v.number? d = some r ∧ p = q * ⌊p / q⌋ + r ∧ |r| < |q| ∧
        (r = 0 ∨ 0 < r ∧ 0 < q ∨ r < 0 ∧ q < 0)) ∧
    -- the order of operating and converting
    (∀ op : BinaryOperator, op.isExact = true →
      (if op.isComparison then op.apply d a b
        else op.apply d a b >>= Value.convert d .rational) =
      a.convert d .rational >>= fun a' => b.convert d .rational >>= fun b' =>
        op.apply d a' b') := by
  have happly {op : BinaryOperator} (hop : op.isExact = true) := apply_exact hop ha hb hab
  refine ⟨fun op r hr => ?_, fun op hop => ⟨⟨?_, ?_⟩, ?_⟩, fun v hv => ?_, fun op hop => ?_⟩
  · have hop : op.isExact = true := isExact_of_exactly? hr
    refine ⟨op.makes a b r, by rw [happly hop, hr, resultOf], number?_makes r, ?_, ?_, ?_⟩
    · exact fun hcompare => kind_makes_comparison hcompare hr
    · exact fun hrat hcompare => kind_makes_rational hrat hcompare r
    · intro hka hkb
      split
      · rename_i hdiv
        exact exists_makes_eq_fraction hdiv.2
      · rename_i hdiv
        refine kind_makes_integer ha hb hka hkb hr fun h => ?_
        by_contra hden
        exact hdiv ⟨h, hden⟩
  · rintro ⟨f, hf⟩
    rw [happly hop, resultOf_eq_error_iff] at hf
    exact (exactly?_eq_none_iff hop).mp hf.1
  · intro hzero
    refine ⟨.domain .divisionByZero, ?_⟩
    rw [happly hop, resultOf_eq_error_iff]
    exact ⟨(exactly?_eq_none_iff hop).mpr hzero, rfl⟩
  · intro f hf
    rw [happly hop, resultOf_eq_error_iff] at hf
    rw [hf.2]
    rfl
  · rw [happly rfl] at hv
    cases hr : BinaryOperator.mod.exactly? p q with
    | none => simp [hr, resultOf, outside] at hv
    | some r =>
      rw [hr, resultOf, Except.ok.injEq] at hv
      rw [← hv]
      exact ⟨r, number?_makes r, modulus_spec hr⟩
  · rw [apply_converted hop ha hb, happly hop]
    split
    · rename_i hcompare
      rw [makes_of_isComparison hcompare]
    · cases op.exactly? p q with
      | none => rfl
      | some r => exact convert_makes r

/-- Seven taken modulo minus two thirds: the quotient is rounded down to minus eleven, and minus
a third is left, which has the sign of the divisor. -/
theorem exact_tower_mod :
    ((Value.integer 7).number? default = some 7 ∧
      (Value.rational ⟨-2, 3⟩).number? default = some (-2 / 3) ∧
      ¬((Value.integer 7).kind = .binary ∧ (Value.rational ⟨-2, 3⟩).kind = .binary)) ∧
    ∃ v, BinaryOperator.mod.apply default (.integer 7) (.rational ⟨-2, 3⟩) = .ok v ∧
      v.number? default = some (-1 / 3) ∧ v.kind = .rational := by
  have ha : (Value.integer 7).number? default = some 7 := rfl
  have hb : (Value.rational ⟨-2, 3⟩).number? default = some (-2 / 3) := by
    rw [Value.number?, Fraction.toRat, Rat.divInt_eq_div]
    norm_num
  have hab : ¬((Value.integer 7).kind = .binary ∧ (Value.rational ⟨-2, 3⟩).kind = .binary) := by
    decide
  have hfloor : ⌊(7 : Rat) / (-2 / 3)⌋ = -11 := by
    rw [Int.floor_eq_iff]
    norm_num
  have hr : BinaryOperator.mod.exactly? 7 (-2 / 3) = some (-1 / 3) := by
    rw [exactly?, if_neg (by norm_num), hfloor]
    norm_num
  obtain ⟨v, hv, hexact, -, hkind, -⟩ := (exact_tower default ha hb hab).1 .mod _ hr
  exact ⟨⟨ha, hb, hab⟩, v, hv, hexact, hkind (.inr rfl) rfl⟩

end BinaryOperator

end RpnCalculator
