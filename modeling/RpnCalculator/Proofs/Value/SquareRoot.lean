import Mathlib.Algebra.Order.Group.Unbundled.Abs
import Mathlib.Algebra.Ring.Int.Parity
import Mathlib.Data.Rat.Lemmas
import Mathlib.Tactic.NormNum.IsSquare
import RpnCalculator.Proofs.Guard.Number
import RpnCalculator.Proofs.Number.Sign

/-!
# Exact square roots

The square root of an integer or a rational is exact when there is an exact root, and a float
when there is none.

One candidate is tried.  Of an integer it is the root rounded down, and if there is a root this is
it.  Of a rational it is made of the roots of the two parts, each rounded down
(`rootCandidate`).  That a fraction can have no other root is not so clear, because a fraction
can be written in many ways.  It rests on lowest terms: squaring a fraction in lowest terms gives
one in lowest terms, and so the parts of a square are the squares of the parts
(`rootCandidate_mul_self`).

The function compares the squares of the two roots with the two parts.  That is the same as to
square the candidate and compare that with the number, again because both are in lowest terms
(`onRational_sqrt`).

A number that is no square is rounded to a float first.  What is not negative stays so when it is
rounded, and so the root is a float and not a complex number (`onFloat_sqrt`).
-/

namespace RpnCalculator

namespace UnaryOperator

variable {d : Display}

/-! ## The root of a float -/

theorem onFloat_sqrt {x : Double} (h : x.negative = false) :
    UnaryOperator.sqrt.onFloat d x = .ok (.float x.sqrt) := by
  rw [onFloat, orComplex, Double.less_zero_of_negative h, if_neg Bool.false_ne_true]

/-- No root of an integer that is not negative is complex. -/
theorem onFloat_sqrt_ofInt {n : Int} (h : 0 ≤ n) :
    ∃ x, UnaryOperator.sqrt.onFloat d (.ofInt n) = .ok (.float x) := by
  refine ⟨_, onFloat_sqrt ?_⟩
  rw [(Double.hasSign_ofInt n).negative, decide_eq_false_iff_not]
  exact Int.not_lt.mpr h

theorem onFloat_sqrt_ofRat {q : Rat} (h : 0 ≤ q) :
    ∃ x, UnaryOperator.sqrt.onFloat d (.ofRat q) = .ok (.float x) := by
  refine ⟨_, onFloat_sqrt ?_⟩
  rw [(Double.hasSign_ofRat q).negative, decide_eq_false_iff_not]
  exact Int.not_lt.mpr (Rat.num_nonneg.mpr h)

/-! ## Integers -/

/-- The root of a square is the absolute value of what was squared. -/
theorem onInteger_sqrt_mul_self (n : Int) :
    UnaryOperator.sqrt.onInteger d (n * n) = .ok (.integer n.natAbs) := by
  simp only [onInteger, Int.natAbs_mul, Nat.sqrt_eq, and_true]
  exact if_pos (mul_self_nonneg n)

/-- There is no exact root of an integer that is no square. -/
theorem onInteger_sqrt_of_not_isSquare {n : Int} (hn : 0 ≤ n) (h : ¬IsSquare n) :
    UnaryOperator.sqrt.onInteger d n = UnaryOperator.sqrt.onFloat d (.ofInt n) := by
  refine if_neg fun hroot => h ?_
  have hsquare : IsSquare (n.natAbs : Int) :=
    Int.isSquare_natCast_iff.mpr ⟨n.natAbs.sqrt, hroot.2.symm⟩
  rwa [Int.natAbs_of_nonneg hn] at hsquare

/-! ## Rationals -/

/-- The only number that can be the root of a number: the fraction of the roots of its parts. -/
def rootCandidate (q : Rat) : Rat := Rat.divInt q.num.natAbs.sqrt q.den.sqrt

theorem rootCandidate_nonneg (q : Rat) : 0 ≤ rootCandidate q := by
  rw [rootCandidate, Rat.divInt_eq_div]
  positivity

/-- **The parts of a square are the squares of the parts**, so the candidate is the root. -/
theorem rootCandidate_mul_self (p : Rat) : rootCandidate (p * p) = |p| := by
  rw [rootCandidate, Rat.mul_self_num, Rat.mul_self_den, Int.natAbs_mul, Nat.sqrt_eq, Nat.sqrt_eq,
    Rat.abs_def]

theorem rootCandidate_mul_rootCandidate {q : Rat} (h : IsSquare q) :
    rootCandidate q * rootCandidate q = q := by
  obtain ⟨p, rfl⟩ := h
  rw [rootCandidate_mul_self, abs_mul_abs_self]

/-- **The candidate is tried**, and without an exact root the root of the nearest float is
taken. -/
theorem onRational_sqrt {q : Rat} (hq : 0 ≤ q) :
    UnaryOperator.sqrt.onRational d q =
      if rootCandidate q * rootCandidate q = q then .ok (.ofRat (rootCandidate q))
      else UnaryOperator.sqrt.onFloat d (.ofRat q) := by
  have hnum : 0 ≤ q.num := Rat.num_nonneg.mpr hq
  have hsquare := Guarded.mul_self_divInt_sqrt_iff q.den_nz q.reduced
  rw [Int.natAbs_of_nonneg hnum, q.num_divInt_den] at hsquare
  simp only [onRational, hnum, true_and, ← hsquare]
  rfl

theorem onRational_abs (q : Rat) : UnaryOperator.abs.onRational d q = .ok (.ofRat |q|) := by
  simp only [onRational, Rat.num_neg]
  split
  · rename_i hneg
    rw [abs_of_neg hneg]
  · rename_i hnonneg
    rw [abs_of_nonneg (not_lt.mp hnonneg)]

/-- Squaring and taking the root gives the absolute value. -/
theorem onRational_sqrt_mul_self (p : Rat) :
    UnaryOperator.sqrt.onRational d (p * p) = .ok (.ofRat |p|) := by
  rw [onRational_sqrt (mul_self_nonneg p), rootCandidate_mul_self, abs_mul_abs_self, if_pos rfl]

/-- **Exact roots are found, and only those.**  The root of an integer or a rational that is not
negative is of the same kind if the number is a square, and is a float if it is not.  So squaring
and taking the root gives the absolute value, exactly. -/
theorem exact_roots (d : Display) :
    (∀ n : Int, 0 ≤ n →
      (IsSquare n → ∃ r : Int, UnaryOperator.sqrt.apply d (.integer n) = .ok (.integer r) ∧
        0 ≤ r ∧ r * r = n) ∧
      (¬IsSquare n → ∃ x, UnaryOperator.sqrt.apply d (.integer n) = .ok (.float x))) ∧
    (∀ q : Fraction, 0 ≤ q.toRat →
      (IsSquare q.toRat → ∃ s : Fraction,
        UnaryOperator.sqrt.apply d (.rational q) = .ok (.rational s) ∧
          s.Reduced ∧ 0 ≤ s.toRat ∧ s.toRat * s.toRat = q.toRat) ∧
      (¬IsSquare q.toRat → ∃ x, UnaryOperator.sqrt.apply d (.rational q) = .ok (.float x))) ∧
    ∀ v : Value, v.kind = .integer ∨ v.kind = .rational →
      ∃ w, (UnaryOperator.sq.apply d v >>= UnaryOperator.sqrt.apply d) = .ok w ∧
        UnaryOperator.abs.apply d v = .ok w ∧ w.kind = v.kind := by
  refine ⟨fun n hn => ⟨?_, fun h => ?_⟩, fun q hq => ⟨fun h => ?_, fun h => ?_⟩, fun v hv => ?_⟩
  · rintro ⟨k, rfl⟩
    exact ⟨k.natAbs, onInteger_sqrt_mul_self k, Int.natCast_nonneg _, Int.natAbs_mul_self⟩
  · rw [apply, onInteger_sqrt_of_not_isSquare hn h]
    exact onFloat_sqrt_ofInt hn
  · have hroot := rootCandidate_mul_rootCandidate h
    refine ⟨.ofRat (rootCandidate q.toRat), ?_, Fraction.reduced_ofRat _, ?_⟩
    · rw [apply, onRational_sqrt hq, if_pos hroot]
      rfl
    · rw [Fraction.toRat_ofRat]
      exact ⟨rootCandidate_nonneg _, hroot⟩
  · have hroot : ¬rootCandidate q.toRat * rootCandidate q.toRat = q.toRat :=
      fun hroot => h ⟨_, hroot.symm⟩
    rw [apply, onRational_sqrt hq, if_neg hroot]
    exact onFloat_sqrt_ofRat hq
  · cases v with
    | integer n => exact ⟨.integer n.natAbs, onInteger_sqrt_mul_self n, rfl, rfl⟩
    | rational q =>
      refine ⟨.ofRat |q.toRat|, ?_, ?_, rfl⟩
      · show UnaryOperator.sqrt.onRational d (Fraction.ofRat (q.toRat * q.toRat)).toRat = _
        rw [Fraction.toRat_ofRat, onRational_sqrt_mul_self]
      · rw [apply, onRational_abs]
    | _ => simp [Value.kind] at hv

/-- Nine fourths is the square of three halves, and two is no square. -/
theorem exact_roots_fraction :
    (0 ≤ (2 : Int) ∧ ¬IsSquare (2 : Int) ∧
      0 ≤ (⟨9, 4⟩ : Fraction).toRat ∧ IsSquare (⟨9, 4⟩ : Fraction).toRat) ∧
    (∃ x, UnaryOperator.sqrt.apply default (.integer 2) = .ok (.float x)) ∧
    (∃ s : Fraction, UnaryOperator.sqrt.apply default (.rational ⟨9, 4⟩) = .ok (.rational s) ∧
      s.Reduced ∧ 0 ≤ s.toRat ∧ s.toRat * s.toRat = 9 / 4) ∧
    ∃ w, (UnaryOperator.sq.apply default (.rational ⟨-3, 2⟩) >>=
        UnaryOperator.sqrt.apply default) = .ok w ∧
      UnaryOperator.abs.apply default (.rational ⟨-3, 2⟩) = .ok w ∧ w.kind = .rational := by
  have hvalue : (⟨9, 4⟩ : Fraction).toRat = 9 / 4 := by
    rw [Fraction.toRat, Rat.divInt_eq_div]
    norm_num
  have htwo : ¬IsSquare (2 : Int) := by norm_num
  have hnonneg : 0 ≤ (⟨9, 4⟩ : Fraction).toRat := by
    rw [hvalue]
    norm_num
  have hsquare : IsSquare (⟨9, 4⟩ : Fraction).toRat := ⟨3 / 2, by rw [hvalue]; norm_num⟩
  obtain ⟨hint, hrat, habs⟩ := exact_roots default
  have hroot := (hrat ⟨9, 4⟩ hnonneg).1 hsquare
  rw [hvalue] at hroot
  exact ⟨⟨by decide, htwo, hnonneg, hsquare⟩, (hint 2 (by decide)).2 htwo, hroot,
    habs (.rational ⟨-3, 2⟩) (.inr rfl)⟩

end UnaryOperator

end RpnCalculator
