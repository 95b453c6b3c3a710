import RpnCalculator.Literal.Decimal
import RpnCalculator.Proofs.Number.Nearest
import RpnCalculator.Proofs.Text.Numeral

/-!
# What decimals are

`Decimal.Written` says which texts are decimals, as they are put together: a sign, digits with at
most one point, an exponent.  `Decimal.amount` is the exact number without its sign.  A text is
taken apart in exactly one way (`Decimal.read?_eq_some_iff`), and the double that comes out is the
nearest one to the exact number, if that is below the overflow
(`Decimal.toDouble?_eq_some_iff`).
-/

namespace RpnCalculator

open Text

namespace Decimal

/-! ## Texts -/

/-- An optional exponent. -/
inductive ExponentText : List Char → Option Int → Prop where
  | absent : ExponentText [] none
  | present {c : Char} {cs : List Char} {e : Int} (hc : c = 'e' ∨ c = 'E')
      (h : IntegerText cs e) : ExponentText (c :: cs) (some e)

/-- An optional point and the digits after it. -/
inductive PointText : List Char → Bool → List Char → Prop where
  | absent : PointText [] false []
  | present {ds : List Char} (h : ∀ c ∈ ds, isDigit c = true) : PointText ('.' :: ds) true ds

theorem PointText.isDigit {point ds : List Char} {hasPoint : Bool}
    (h : PointText point hasPoint ds) : ∀ c ∈ ds, Text.isDigit c = true := by
  cases h with
  | absent => exact nofun
  | present h => exact h

/-- Texts of a decimal. -/
inductive Written : List Char → Decimal → Prop where
  | mk {s whole point fraction exponent : List Char} {negative hasPoint : Bool} {e : Option Int}
      (hs : Sign s negative) (hwhole : ∀ c ∈ whole, isDigit c = true)
      (hpoint : PointText point hasPoint fraction) (hdigit : whole ≠ [] ∨ fraction ≠ [])
      (he : ExponentText exponent e) :
    Written (s ++ (whole ++ (point ++ exponent))) ⟨negative, whole, hasPoint, fraction, e⟩

variable {cs : List Char}

/-! ## Reading -/

theorem readExponent?_eq_some_iff {e : Option Int} :
    readExponent? cs = some e ↔ ExponentText cs e := by
  constructor
  · intro h
    unfold readExponent? at h
    split at h
    · cases h
      exact .absent
    · split at h
      · rename_i hc
        obtain ⟨n, hn, rfl⟩ := Option.map_eq_some_iff.mp h
        exact .present hc (readInteger?_eq_some_iff.mp hn)
      · cases h
  · intro h
    cases h with
    | absent => rfl
    | present hc h => rw [readExponent?, if_pos hc, readInteger?_eq_some_iff.mpr h, Option.map_some]

/-- Texts that do not begin with a digit. -/
def Undigited (cs : List Char) : Prop := ∀ c ∈ cs.head?, isDigit c = false

theorem ExponentText.undigited {e : Option Int} (h : ExponentText cs e) : Undigited cs := by
  cases h with
  | absent => exact nofun
  | present hc _ =>
    intro c' hc'
    cases hc'
    rcases hc with rfl | rfl <;> decide

/-- Digits end where something else begins. -/
theorem span_digits {ds : List Char} (hds : ∀ c ∈ ds, isDigit c = true) (h : Undigited cs) :
    (ds ++ cs).takeWhile isDigit = ds ∧ (ds ++ cs).dropWhile isDigit = cs := by
  rw [List.takeWhile_append_of_pos hds, List.dropWhile_append_of_pos hds]
  cases cs with
  | nil => simp
  | cons c cs =>
    have hc : isDigit c = false := h c rfl
    simp [hc]

/-- What comes after the digits before the point, taken apart. -/
def afterWhole : List Char → Bool × List Char × List Char
  | '.' :: rest => (true, rest.takeWhile isDigit, rest.dropWhile isDigit)
  | rest => (false, [], rest)

theorem exists_point (cs : List Char) :
    ∃ point, PointText point (afterWhole cs).1 (afterWhole cs).2.1 ∧
      cs = point ++ (afterWhole cs).2.2 := by
  unfold afterWhole
  split
  · rename_i rest
    refine ⟨_, .present (List.all_eq_true.mp List.all_takeWhile), ?_⟩
    rw [List.cons_append, List.takeWhile_append_dropWhile]
  · exact ⟨_, .absent, rfl⟩

theorem afterWhole_append {point fraction exponent : List Char} {hasPoint : Bool} {e : Option Int}
    (hpoint : PointText point hasPoint fraction) (he : ExponentText exponent e) :
    afterWhole (point ++ exponent) = (hasPoint, fraction, exponent) := by
  cases hpoint with
  | present h =>
    obtain ⟨htake, hdrop⟩ := span_digits h he.undigited
    rw [List.cons_append, afterWhole, htake, hdrop]
  | absent =>
    rw [List.nil_append]
    cases he with
    | absent => rfl
    | present hc _ => rcases hc with rfl | rfl <;> rfl

theorem undigited_point {point fraction exponent : List Char} {hasPoint : Bool} {e : Option Int}
    (hpoint : PointText point hasPoint fraction) (he : ExponentText exponent e) :
    Undigited (point ++ exponent) := by
  cases hpoint with
  | absent => exact he.undigited
  | present _ =>
    intro c hc
    cases hc
    decide

theorem unsigned_of_digit {whole point fraction exponent : List Char} {hasPoint : Bool}
    (hwhole : ∀ c ∈ whole, isDigit c = true) (hpoint : PointText point hasPoint fraction)
    (hdigit : whole ≠ [] ∨ fraction ≠ []) : Unsigned (whole ++ (point ++ exponent)) := by
  intro c hc
  cases whole with
  | cons d whole =>
    cases hc
    exact not_sign_of_isDigit (hwhole c (List.mem_cons_self ..))
  | nil =>
    cases hpoint with
    | absent => exact absurd rfl (hdigit.resolve_left (by simp))
    | present _ =>
      cases hc
      decide

/-- Taking a decimal apart, step by step. -/
theorem read?_eq (cs : List Char) :
    read? cs =
      let whole := (splitSign cs).2.takeWhile isDigit
      let rest := afterWhole ((splitSign cs).2.dropWhile isDigit)
      if whole.isEmpty && rest.2.1.isEmpty then none
      else (readExponent? rest.2.2).map fun e =>
        ⟨(splitSign cs).1, whole, rest.1, rest.2.1, e⟩ := rfl

/-- **A decimal is taken apart into what it is put together from**, and nothing else is read. -/
theorem read?_eq_some_iff {x : Decimal} : read? cs = some x ↔ Written cs x := by
  constructor
  · intro h
    rw [read?_eq] at h
    obtain ⟨s, hs, hcs⟩ := exists_sign cs
    obtain ⟨point, hpoint, hrest⟩ := exists_point ((splitSign cs).2.dropWhile isDigit)
    dsimp only at h
    split at h
    · cases h
    rename_i hdigit
    obtain ⟨e, he, rfl⟩ := Option.map_eq_some_iff.mp h
    have hwhole := List.takeWhile_append_dropWhile (p := isDigit) (l := (splitSign cs).2)
    rw [Bool.and_eq_true, List.isEmpty_iff, List.isEmpty_iff, not_and_or] at hdigit
    have hwritten := Written.mk hs (List.all_eq_true.mp List.all_takeWhile) hpoint hdigit
      (readExponent?_eq_some_iff.mp he)
    rw [← hrest, hwhole, ← hcs] at hwritten
    exact hwritten
  · rintro ⟨hs, hwhole, hpoint, hdigit, he⟩
    rw [read?_eq, splitSign_append hs (unsigned_of_digit hwhole hpoint hdigit)]
    obtain ⟨htake, hdrop⟩ := span_digits hwhole (undigited_point hpoint he)
    dsimp only
    rw [htake, hdrop, afterWhole_append hpoint he, readExponent?_eq_some_iff.mpr he, if_neg]
    · rfl
    · rw [Bool.and_eq_true, List.isEmpty_iff, List.isEmpty_iff, not_and_or]
      exact hdigit

theorem Written.ne_nil {x : Decimal} (h : Written cs x) : cs ≠ [] := by
  obtain ⟨hs, -, hpoint, hdigit, -⟩ := h
  rcases hdigit with hdigit | hdigit
  · simp [hdigit]
  · cases hpoint with
    | absent => exact absurd rfl hdigit
    | present _ => simp

/-! ## Numbers -/

/-- The exact number, without its sign. -/
def amount (x : Decimal) : Rat :=
  number 10 (x.whole ++ x.fraction) * 10 ^ (x.exponent.getD 0 - x.fraction.length)

/-- A double is the nearest to a decimal and has its sign.  There is one for a number below the
overflow. -/
structure Rounds (x : Decimal) (y : Double) : Prop where
  lt : x.amount < Double.overflow
  negative : y.negative = x.negative
  nearest : y.RoundsTo (Double.signed x.negative x.amount)

/-- **The double of a decimal is the nearest one**, and there is one exactly if the number is below
the overflow. -/
theorem toDouble?_eq_some_iff {x : Decimal} (h : Written cs x) {y : Double} :
    x.toDouble? = some y ↔ x.Rounds y := by
  obtain ⟨hs, hwhole, hpoint, hdigit, he⟩ := h
  rename_i s whole point fraction exponent negative hasPoint e
  have hdigits : ∀ c ∈ whole ++ fraction, isDigit c = true := by
    intro c hc
    rcases List.mem_append.mp hc with hc | hc
    · exact hwhole c hc
    · exact hpoint.isDigit c hc
  have hlt := number_lt (digits_of_isDigit hdigits)
  rw [List.length_append] at hlt
  obtain ⟨hnegative, hfinite, hrounds⟩ :=
    Double.ofDecimal_spec negative (e.getD 0 - fraction.length) hlt
  simp only [toDouble?, coefficient, scale, readDecimal_eq hdigits]
  constructor
  · intro h
    split at h
    · rename_i hy
      cases h
      exact ⟨hfinite.mp hy, hnegative, hrounds hy⟩
    · cases h
  · rintro ⟨hlt, hsign, hy⟩
    have hx := hfinite.mpr hlt
    rw [if_pos hx, (hrounds hx).unique hy (hnegative.trans hsign.symm)]

end Decimal
end RpnCalculator
