import RpnCalculator.Number.Notation
import RpnCalculator.Proofs.Literal.Printing
import RpnCalculator.Proofs.Number.Integers

/-!
# Decimals as they are written

A number with decimals is written as a natural number with a point put into its digits.
`DecimalText` says what such a text is and which number it shows, without saying how it is made.
`withPoint` makes one of every natural number (`decimalText_withPoint`), and the digits before the
point are those of the quotient (`exists_withPoint_eq`).  So a test of the first digits of a text is
a test of that quotient (`isPrefixOf_withPoint`).

The fixed notation of a finite double is the sign and such a text of the nearest number with so many
decimals (`exists_fixed_eq`).
-/

namespace RpnCalculator

open Text

variable {decimals : Nat}

/-- Digits, with so many of them after a point, and the number that they show. -/
inductive DecimalText (decimals : Nat) : List Char → Rat → Prop where
  | whole {ds : List Char} (h : decimals = 0) (hd : Numeral ds) :
    DecimalText decimals ds (number 10 ds)
  | point {whole fraction : List Char} (h : decimals ≠ 0) (hw : Numeral whole)
      (hf : ∀ c ∈ fraction, isDigit c = true) (hl : fraction.length = decimals) :
    DecimalText decimals (whole ++ '.' :: fraction)
      (number 10 whole + number 10 fraction / 10 ^ decimals)

/-! ## Digits around a point -/

/-- Zeros are put in front until there is a digit before the point. -/
theorem replicate_zeros_succ (decimals n : Nat) :
    List.replicate (decimals + 1 + 1 - (writeDecimal n).length) '0' ++ writeDecimal n =
      List.replicate (decimals + 1 - (writeDecimal (n / 10)).length) '0' ++ writeDecimal (n / 10) ++
        [(n % 10).digitChar] := by
  rw [writeDecimal_eq, writeDecimal_eq]
  rcases Nat.lt_or_ge n 10 with h | h
  · rw [Nat.toDigits_of_lt_base h, Nat.div_eq_of_lt h, Nat.mod_eq_of_lt h,
      Nat.toDigits_of_lt_base (by decide)]
    show List.replicate (decimals + 1) '0' ++ _ = List.replicate decimals '0' ++ ['0'] ++ _
    rw [List.replicate_succ']
  · rw [Nat.toDigits_of_base_le (by decide) h, List.length_append, List.length_singleton,
      Nat.add_sub_add_right, List.append_assoc]

/-- **The digits of a number are those of a quotient by a power of ten and those of the
remainder**, with zeros in front of both. -/
theorem exists_digits_eq (decimals n : Nat) : ∃ fraction : List Char,
    fraction.length = decimals ∧ (∀ c ∈ fraction, isDigit c = true) ∧
      number 10 fraction = n % 10 ^ decimals ∧
      List.replicate (decimals + 1 - (writeDecimal n).length) '0' ++ writeDecimal n =
        writeDecimal (n / 10 ^ decimals) ++ fraction := by
  induction decimals generalizing n with
  | zero =>
    have hlen : 0 < (writeDecimal n).length := List.length_pos_iff.mpr (numeral_writeDecimal n).1
    refine ⟨[], rfl, nofun, ?_, ?_⟩
    · rw [pow_zero, Nat.mod_one]
      rfl
    · rw [Nat.zero_add, Nat.sub_eq_zero_of_le hlen, pow_zero, Nat.div_one, List.append_nil]
      rfl
  | succ decimals ih =>
    obtain ⟨fraction, hlen, hdigits, hnumber, heq⟩ := ih (n / 10)
    have hlast : n % 10 < 10 := Nat.mod_lt n (by decide)
    have hdigit : ∀ k < 10, digitValue? k.digitChar = some k ∧ isDigit k.digitChar = true := by
      decide
    refine ⟨fraction ++ [(n % 10).digitChar], ?_, ?_, ?_, ?_⟩
    · rw [List.length_append, hlen, List.length_singleton]
    · rw [List.forall_mem_append, List.forall_mem_singleton]
      exact ⟨hdigits, (hdigit _ hlast).2⟩
    · rw [number_concat (hdigit _ hlast).1, hnumber, pow_succ', Nat.mod_mul, Nat.mul_comm,
        Nat.add_comm]
    · rw [replicate_zeros_succ, heq, Nat.div_div_eq_div_mul, ← pow_succ', List.append_assoc]

theorem exists_withPoint_eq (decimals n : Nat) : ∃ fraction : List Char,
    fraction.length = decimals ∧ (∀ c ∈ fraction, isDigit c = true) ∧
      number 10 fraction = n % 10 ^ decimals ∧
      withPoint decimals n =
        writeDecimal (n / 10 ^ decimals) ++ if decimals = 0 then [] else '.' :: fraction := by
  obtain ⟨fraction, hlen, hdigits, hnumber, heq⟩ := exists_digits_eq decimals n
  refine ⟨fraction, hlen, hdigits, hnumber, ?_⟩
  unfold withPoint
  dsimp only
  rw [heq]
  split
  · rename_i h
    rw [List.eq_nil_of_length_eq_zero (hlen.trans h)]
  · rw [List.length_append, hlen, Nat.add_sub_cancel, List.take_left, List.drop_left]

/-- **A text with a point shows the number divided by the power of ten.** -/
theorem decimalText_withPoint (decimals n : Nat) :
    DecimalText decimals (withPoint decimals n) (n / 10 ^ decimals) := by
  obtain ⟨fraction, hlen, hdigits, hnumber, heq⟩ := exists_withPoint_eq decimals n
  rw [heq]
  split
  · rename_i h
    subst h
    have htext : DecimalText 0 (writeDecimal n) _ := .whole rfl (numeral_writeDecimal n)
    rw [number_writeDecimal] at htext
    simpa using htext
  · rename_i h
    have htext := DecimalText.point h (numeral_writeDecimal (n / 10 ^ decimals)) hdigits hlen
    rw [number_writeDecimal, hnumber] at htext
    have hsplit : (10 : Rat) ^ decimals * (n / 10 ^ decimals : Nat) + (n % 10 ^ decimals : Nat) =
        n := by exact_mod_cast Nat.div_add_mod n (10 ^ decimals)
    rwa [← hsplit, add_div, mul_div_cancel_left₀ _ (by positivity)]

/-- Up to a thousand, the first digits are those of a thousand only if it is reached: a smaller
number has a point among its first four characters, or ends there. -/
theorem isPrefixOf_withPoint {n : Nat} (h : n / 10 ^ decimals ≤ 1000) :
    ['1', '0', '0', '0'].isPrefixOf (withPoint decimals n) = true ↔ n / 10 ^ decimals = 1000 := by
  obtain ⟨fraction, -, -, -, heq⟩ := exists_withPoint_eq decimals n
  rw [heq, List.isPrefixOf_iff_prefix]
  rcases h.lt_or_eq with hlt | heq'
  · refine iff_of_false ?_ hlt.ne
    have hlen : (writeDecimal (n / 10 ^ decimals)).length ≤ 3 := by
      rw [writeDecimal_eq, Nat.length_toDigits_le_iff (by decide) (by decide)]
      exact hlt
    intro hprefix
    obtain ⟨rest, hrest⟩ := List.prefix_of_prefix_length_le (List.prefix_append _ _) hprefix
      (show _ ≤ 4 by omega)
    rw [← hrest, List.prefix_append_right_inj] at hprefix
    have hne : rest ≠ [] := by
      rintro rfl
      have hfour := congrArg List.length hrest
      rw [List.append_nil, List.length_cons, List.length_cons, List.length_cons,
        List.length_singleton] at hfour
      omega
    obtain ⟨c, cs, rfl⟩ := List.exists_cons_of_ne_nil hne
    have hc : c ∈ ['1', '0', '0', '0'] := by
      rw [← hrest]
      simp
    split at hprefix
    · simp at hprefix
    · rw [(List.cons_prefix_cons.mp hprefix).1] at hc
      exact absurd hc (by decide)
  · rw [heq']
    exact iff_of_true ⟨_, rfl⟩ rfl

namespace Double

variable {x : Double}

/-! ## Fixed notation -/

theorem isNaN_isInfinite_of_isFinite (hx : x.isFinite = true) :
    x.isNaN = false ∧ x.isInfinite = false := by
  have hkind := x.isFinite_eq
  rwa [hx, eq_comm, Bool.not_eq_true', Bool.or_eq_false_iff] at hkind

/-- **The fixed notation shows the nearest number with so many decimals**, after the sign. -/
theorem exists_fixed_eq (hx : x.isFinite = true) (decimals : Nat) : ∃ n : Nat,
    x.fixed decimals = x.sign ++ withPoint decimals n ∧
      |(n : Rat) - (|x.value|) * 10 ^ decimals| ≤ 1 / 2 := by
  obtain ⟨hnumber, hinfinite⟩ := isNaN_isInfinite_of_isFinite hx
  refine ⟨roundRatio (x.ratio.1 * 10 ^ decimals) x.ratio.2, ?_, ?_⟩
  · rw [fixed, hnumber, hinfinite, if_neg Bool.false_ne_true, if_neg Bool.false_ne_true,
      roundScaled, if_pos (Int.natCast_nonneg _), Int.toNat_natCast, Nat.pow_eq]
  · have hround := roundRatio_spec (x.ratio.1 * 10 ^ decimals) x.ratio_snd_pos
    have hquotient : ((x.ratio.1 * 10 ^ decimals : Nat) : Rat) / x.ratio.2 =
        |x.value| * 10 ^ decimals := by
      rw [abs_value, ← ratio_eq]
      push_cast
      ring
    rw [hquotient] at hround
    exact hround.elim le_of_lt fun h => h.1.le

theorem dropMinus_sign_append (x : Double) {cs : List Char} (h : Unsigned cs) :
    dropMinus (x.sign ++ cs) = cs := by
  have hhead : ∀ c ∈ cs.head?, (c == '-') = false := fun c hc => by simpa using (h c hc).2
  have hself : dropMinus cs = cs := by
    unfold dropMinus
    cases cs with
    | nil => rfl
    | cons c cs => rw [List.dropWhile_cons_of_neg (by rw [hhead c rfl]; exact Bool.false_ne_true)]
  unfold sign
  split
  · exact hself
  · exact hself

end Double

theorem unsigned_withPoint (decimals n : Nat) : Unsigned (withPoint decimals n) := by
  obtain ⟨fraction, -, -, -, heq⟩ := exists_withPoint_eq decimals n
  obtain ⟨c, cs, hcs⟩ := List.exists_cons_of_ne_nil (numeral_writeDecimal (n / 10 ^ decimals)).1
  have hunsigned := (numeral_writeDecimal (n / 10 ^ decimals)).unsigned
  rw [hcs] at heq hunsigned
  rw [heq]
  exact hunsigned

end RpnCalculator
