import Mathlib.Algebra.Group.Nat.Defs
import RpnCalculator.Text.Numeral

/-!
# What numerals are

The readers of numbers take a text apart and compute at once.  This file separates the two.
`Numeral`, `Sign`, `IntegerText` and `Digits` say which texts are read, as one puts such a text
together, and `number` says which number a text of digits stands for.  Each reader then comes with
an equivalence: it has a result exactly on these texts, and the result is that number
(`readInteger?_eq_some_iff`, `readBase?_eq_some_iff`).
-/

namespace RpnCalculator
namespace Text

/-! ## Digits -/

/-- The number with the digits of `n` and then others, the most significant digit first. -/
def numberAfter (base n : Nat) (ds : List Char) : Nat :=
  ds.foldl (fun n c => n * base + (digitValue? c).getD 0) n

/-- The number with the given digits in a base. -/
def number (base : Nat) (ds : List Char) : Nat := numberAfter base 0 ds

/-- Texts of digits of a base. -/
def Digits (base : Nat) (ds : List Char) : Prop :=
  ∀ c ∈ ds, ∃ v, digitValue? c = some v ∧ v < base

/-- Texts of at least one decimal digit. -/
def Numeral (ds : List Char) : Prop := ds ≠ [] ∧ ∀ c ∈ ds, isDigit c = true

variable {cs ds : List Char}

theorem isNumeral_iff : isNumeral ds = true ↔ Numeral ds := by
  simp [isNumeral, Numeral]

theorem digitValue?_of_isDigit {c : Char} (h : isDigit c = true) :
    digitValue? c = some (c.toNat - '0'.toNat) ∧ c.toNat - '0'.toNat < 10 := by
  refine ⟨if_pos h, ?_⟩
  simp only [isDigit, Bool.and_eq_true, decide_eq_true_eq] at h
  have hle : c.toNat ≤ '9'.toNat := h.2
  have hge : '0'.toNat ≤ c.toNat := h.1
  simp only [show '9'.toNat = 57 from rfl, show '0'.toNat = 48 from rfl] at *
  omega

theorem digits_of_isDigit (h : ∀ c ∈ ds, isDigit c = true) : Digits 10 ds := fun c hc =>
  ⟨_, digitValue?_of_isDigit (h c hc)⟩

/-- Decimal digits are read as what they stand for. -/
theorem readDecimal_eq (h : ∀ c ∈ ds, isDigit c = true) : readDecimal ds = number 10 ds := by
  suffices hgo : ∀ n, Nat.ofDigitChars 10 ds n = numberAfter 10 n ds from hgo 0
  induction ds with
  | nil => exact fun n => rfl
  | cons c ds ih =>
    rw [List.forall_mem_cons] at h
    intro n
    have hds := ih h.2
    rw [numberAfter, List.foldl_cons, (digitValue?_of_isDigit h.1).1, Option.getD_some,
      Nat.mul_comm]
    exact hds _

theorem readBase?_go_eq_some_iff {base n m : Nat} :
    readBase?.go base n ds = some m ↔ Digits base ds ∧ m = numberAfter base n ds := by
  induction ds generalizing n with
  | nil => simp [readBase?.go, Digits, numberAfter, eq_comm]
  | cons c ds ih =>
    rw [readBase?.go, Digits, List.forall_mem_cons, numberAfter, List.foldl_cons]
    cases hc : digitValue? c with
    | none => simp
    | some v =>
      simp only [Option.some.injEq, Option.getD_some]
      by_cases hv : v < base
      · rw [if_pos hv, ih]
        simp [hv, Digits, numberAfter]
      · rw [if_neg hv]
        simp [hv]

/-- **The digits of a base are read as what they stand for**, and nothing else is read. -/
theorem readBase?_eq_some_iff {base n : Nat} :
    readBase? base ds = some n ↔ Digits base ds ∧ n = number base ds :=
  readBase?_go_eq_some_iff

/-- A number has as many digits as are needed. -/
theorem number_lt {base : Nat} (h : Digits base ds) : number base ds < base ^ ds.length := by
  suffices hgo : ∀ n, numberAfter base n ds < (n + 1) * base ^ ds.length by
    simpa [number] using hgo 0
  induction ds with
  | nil => simp [numberAfter]
  | cons c ds ih =>
    rw [Digits, List.forall_mem_cons] at h
    obtain ⟨⟨v, hc, hv⟩, hds⟩ := h
    intro n
    rw [numberAfter, List.foldl_cons, hc, Option.getD_some, List.length_cons, Nat.pow_succ,
      Nat.mul_comm (base ^ ds.length), ← Nat.mul_assoc]
    refine Nat.lt_of_lt_of_le (ih hds _) (Nat.mul_le_mul_right _ ?_)
    rw [Nat.add_mul]
    omega

/-! ## Signs -/

/-- An optional sign, and whether it is a minus. -/
inductive Sign : List Char → Bool → Prop where
  | absent : Sign [] false
  | plus : Sign ['+'] false
  | minus : Sign ['-'] true

/-- Texts that do not begin with a sign. -/
def Unsigned (cs : List Char) : Prop := ∀ c ∈ cs.head?, c ≠ '+' ∧ c ≠ '-'

theorem not_sign_of_isDigit {c : Char} (h : isDigit c = true) : c ≠ '+' ∧ c ≠ '-' := by
  constructor
  · rintro rfl
    exact absurd h (by decide)
  · rintro rfl
    exact absurd h (by decide)

theorem Numeral.unsigned (h : Numeral ds) : Unsigned ds := fun c hc =>
  not_sign_of_isDigit (h.2 c (List.mem_of_mem_head? hc))

/-- A sign is split off what does not begin with another. -/
theorem splitSign_append {s : List Char} {negative : Bool} (hs : Sign s negative)
    (h : Unsigned cs) : splitSign (s ++ cs) = (negative, cs) := by
  cases hs with
  | plus => rfl
  | minus => rfl
  | absent =>
    rw [List.nil_append]
    unfold splitSign
    split
    · exact absurd rfl (h '-' rfl).2
    · exact absurd rfl (h '+' rfl).1
    · rfl

theorem exists_sign (cs : List Char) :
    ∃ s, Sign s (splitSign cs).1 ∧ cs = s ++ (splitSign cs).2 := by
  unfold splitSign
  split
  · exact ⟨_, .minus, rfl⟩
  · exact ⟨_, .plus, rfl⟩
  · exact ⟨_, .absent, rfl⟩

/-! ## Integers -/

/-- Digits with an optional sign, and the integer that they stand for. -/
inductive IntegerText : List Char → Int → Prop where
  | mk {s ds : List Char} {negative : Bool} (hs : Sign s negative) (hd : Numeral ds) :
    IntegerText (s ++ ds) (if negative then -(number 10 ds : Int) else number 10 ds)

/-- **Digits with an optional sign are read as the integer that they stand for**, and nothing else
is read. -/
theorem readInteger?_eq_some_iff {n : Int} : readInteger? cs = some n ↔ IntegerText cs n := by
  unfold readInteger?
  constructor
  · intro h
    obtain ⟨s, hs, hcs⟩ := exists_sign cs
    revert hs hcs h
    generalize splitSign cs = p
    obtain ⟨negative, ds⟩ := p
    dsimp only
    intro h hs hcs
    split at h
    · rename_i hd
      rw [isNumeral_iff] at hd
      rw [readDecimal_eq hd.2, Option.some.injEq] at h
      rw [hcs, ← h]
      exact .mk hs hd
    · cases h
  · rintro ⟨hs, hd⟩
    rw [splitSign_append hs hd.unsigned]
    dsimp only
    rw [if_pos (isNumeral_iff.mpr hd), readDecimal_eq hd.2]

end Text
end RpnCalculator
