import RpnCalculator.Proofs.Number.Bits
import RpnCalculator.Value.Arithmetic
import RpnCalculator.Value.Functions

/-!
# Arithmetic of words

A word of width `w` stands for a class of integers modulo `2 ^ w`, and what is stored of it may
have bits above the width, which do not count.  This file shows that the operations on words are
those on integers, carried over to the classes.

The laws are stated for a pair of words, for one word and for a pair of integers that become
words (`PairLaws`, `WordLaws`, `IntegerLaws`).  Two predicates say what a result is: the word
that an integer is congruent to (`IsWord`), and the word that has given bits (`HasBits`).  Each
determines the result, so that two computations agree as soon as they have one predicate in
common (`IsWord.same`, `HasBits.same`), and the first determines the second (`IsWord.hasBits`).
This is how computing and then converting comes to the same as converting and then computing:
nothing has to be known of the two computations but what they give.
-/

namespace RpnCalculator

/-! ## Results that are words -/

/-- The result is the word of width `w` that an integer is congruent to. -/
def IsWord (w : Nat) (z : Int) (r : Except Fault Value) : Prop :=
  ∃ bits : UInt32, r = .ok (.binary bits) ∧ (bits.toNat : Int) = z % 2 ^ w

/-- The result is the word with the given bits. -/
def HasBits (bit : Nat → Bool) (r : Except Fault Value) : Prop :=
  ∃ bits : UInt32, r = .ok (.binary bits) ∧ ∀ i, bits.toNat.testBit i = bit i

/-- Two computations have one word as their result. -/
def SameWord (r r' : Except Fault Value) : Prop :=
  ∃ bits : UInt32, r = .ok (.binary bits) ∧ r' = .ok (.binary bits)

section

variable {w : Nat} {z z' : Int} {bit bit' : Nat → Bool} {r r' : Except Fault Value}

theorem IsWord.congr (h : IsWord w z r) (hz : z ≡ z' [ZMOD 2 ^ w]) : IsWord w z' r := by
  obtain ⟨bits, hr, hbits⟩ := h
  exact ⟨bits, hr, hbits.trans hz⟩

theorem IsWord.same (h : IsWord w z r) (h' : IsWord w z' r') (hz : z ≡ z' [ZMOD 2 ^ w]) :
    SameWord r r' := by
  obtain ⟨bits, hr, hbits⟩ := h.congr hz
  obtain ⟨bits', hr', hbits'⟩ := h'
  obtain rfl : bits = bits' := UInt32.toNat_inj.mp (by exact_mod_cast hbits.trans hbits'.symm)
  exact ⟨bits, hr, hr'⟩

theorem HasBits.same (h : HasBits bit r) (h' : HasBits bit' r') (hbit : ∀ i, bit i = bit' i) :
    SameWord r r' := by
  obtain ⟨bits, hr, hbits⟩ := h
  obtain ⟨bits', hr', hbits'⟩ := h'
  obtain rfl : bits = bits' := by
    apply UInt32.toNat_inj.mp
    apply Nat.eq_of_testBit_eq
    intro i
    rw [hbits, hbits', hbit]
  exact ⟨bits, hr, hr'⟩

/-- The word of an integer has its low bits. -/
theorem IsWord.hasBits (h : IsWord w z r) : HasBits (fun i => decide (i < w) && z.testBit i) r := by
  obtain ⟨bits, hr, hbits⟩ := h
  refine ⟨bits, hr, fun i => ?_⟩
  rw [show bits.toNat = (z % 2 ^ w).toNat by rw [← hbits, Int.toNat_natCast]]
  exact Bits.testBit_emod z i w

end

section

variable {d : Display}

/-- A natural number becomes the word that it is congruent to. -/
theorem isWord_ofWord {n : Nat} {z : Int} (h : (n : Int) ≡ z [ZMOD 2 ^ d.width]) :
    IsWord d.width z (.ok (.ofWord d n)) := by
  refine ⟨_, rfl, ?_⟩
  rw [d.toNat_bitsOf, ← h]
  exact_mod_cast Int.natCast_emod n d.modulus

/-- One that is small enough is stored as it is. -/
theorem hasBits_ofWord {n : Nat} (h : n < d.modulus) : HasBits n.testBit (.ok (.ofWord d n)) := by
  refine ⟨_, rfl, fun i => ?_⟩
  rw [d.toNat_bitsOf, Nat.mod_eq_of_lt h]

theorem cast_modulus (d : Display) : (d.modulus : Int) = 2 ^ d.width := by
  exact_mod_cast (rfl : d.modulus = 2 ^ d.width)

/-- **An integer becomes the word that it is congruent to.** -/
theorem isWord_convert (n : Int) : IsWord d.width n (Value.convert d .binary (.integer n)) := by
  have hnonneg : 0 ≤ n % (d.modulus : Int) :=
    Int.emod_nonneg n (by exact_mod_cast d.modulus_pos.ne')
  refine isWord_ofWord ?_
  rw [Int.toNat_of_nonneg hnonneg, cast_modulus]
  exact Int.mod_modEq _ _

/-- What is seen of a word of the width in force is all of it. -/
theorem word_eq_emod {bits : UInt32} {z : Int} (h : (bits.toNat : Int) = z % 2 ^ d.width) :
    (d.word bits : Int) = z % 2 ^ d.width := by
  rw [Display.word, Int.natCast_emod, cast_modulus, h, Int.emod_emod_of_dvd _ dvd_rfl]

/-- Modulo the number of words, a difference of words is that of integers. -/
theorem subMod_word (a : Nat) (b : UInt32) :
    (Bits.subMod d.modulus a (d.word b) : Int) ≡ a - d.word b [ZMOD 2 ^ d.width] := by
  have hdiff := Bits.subMod_modEq (d.word_lt b).le a
  rwa [cast_modulus] at hdiff

end

/-! ## Two words -/

/-- What comes of two words of width `w` that show `A` and `B`. -/
structure PairLaws (w A B : Nat) (apply : BinaryOperator → Except Fault Value) : Prop where
  add : IsWord w (A + B) (apply .add)
  sub : IsWord w (A - B) (apply .sub)
  mul : IsWord w (A * B) (apply .mul)
  pow : IsWord w (A ^ B) (apply .pow)
  /-- The quotient is rounded down. -/
  div : B ≠ 0 → IsWord w (A / B) (apply .div)
  mod : B ≠ 0 → IsWord w (A % B) (apply .mod)
  byZero : B = 0 → ∀ op ∈ [BinaryOperator.div, .mod],
    ∃ f, apply op = .error f ∧ f.category = .domain
  and : HasBits (fun i => A.testBit i && B.testBit i) (apply .and)
  or : HasBits (fun i => A.testBit i || B.testBit i) (apply .or)
  xor : HasBits (fun i => A.testBit i ^^ B.testBit i) (apply .xor)

namespace BinaryOperator

variable {d : Display} {op : BinaryOperator}

/-- Values of one kind are combined as they are. -/
theorem combineMet_of_kind {l r : Value} (hk : l.kind ≠ .directory)
    (h : r.kind = l.kind) : op.combineMet d l r = op.combine d l r := by
  have hmeet : l.kind.join? r.kind = some l.kind := by rw [h, Kind.join?_self, if_neg hk]
  rw [combineMet_of_join? hmeet, coerce, if_pos rfl,
    coerce, if_pos h]
  rfl

/-- So they are by an operator, unless they are sequences that it looks into. -/
theorem apply_of_kind {l r : Value} (hk : l.kind ∉ [Kind.directory, .vector, .matrix])
    (h : r.kind = l.kind) : op.apply d l r = op.combine d l r := by
  simp only [List.mem_cons, List.not_mem_nil, or_false, not_or] at hk
  rw [apply_eq_combineMet d op fun _ => hk.2, combineMet_of_kind hk.1 h]

theorem apply_words (heq : op.isEquality = false) (hord : op.isOrdering = false)
    (a b : UInt32) :
    op.apply d (.binary a) (.binary b) = op.onWords d (d.word a) (d.word b) := by
  have hmet : op.apply d (.binary a) (.binary b) = op.combine d (.binary a) (.binary b) :=
    apply_of_kind (by simp [Value.kind]) rfl
  rw [hmet, combine, heq, hord]
  rfl

theorem apply_integers (heq : op.isEquality = false) (hord : op.isOrdering = false)
    (m n : Int) :
    op.apply d (.integer m) (.integer n) = op.onIntegers m n := by
  have hmet : op.apply d (.integer m) (.integer n) = op.combine d (.integer m) (.integer n) :=
    apply_of_kind (by simp [Value.kind]) rfl
  rw [hmet, combine, heq, hord]
  rfl

end BinaryOperator

open BinaryOperator in
theorem pairLaws (d : Display) (a b : UInt32) :
    PairLaws d.width (d.word a) (d.word b) fun op => op.apply d (.binary a) (.binary b) := by
  have ha : d.word a < 2 ^ d.width := d.word_lt a
  have hb : d.word b < 2 ^ d.width := d.word_lt b
  constructor
  case add =>
    rw [apply_words rfl rfl]
    exact isWord_ofWord (by rw [Nat.cast_add])
  case sub =>
    rw [apply_words rfl rfl]
    exact isWord_ofWord (subMod_word _ b)
  case mul =>
    rw [apply_words rfl rfl]
    exact isWord_ofWord (by rw [Nat.cast_mul])
  case pow =>
    rw [apply_words rfl rfl]
    refine isWord_ofWord ?_
    rw [Bits.powMod_eq, Int.natCast_emod, Nat.cast_pow, cast_modulus]
    exact Int.mod_modEq _ _
  case div =>
    intro hzero
    rw [apply_words rfl rfl, onWords, if_neg hzero]
    exact isWord_ofWord (by rw [Int.natCast_div])
  case mod =>
    intro hzero
    rw [apply_words rfl rfl, onWords, if_neg hzero]
    exact isWord_ofWord (by rw [Int.natCast_emod])
  case byZero =>
    intro hzero op hop
    simp only [List.mem_cons, List.not_mem_nil, or_false] at hop
    rcases hop with rfl | rfl <;>
      exact ⟨_, by rw [apply_words rfl rfl, onWords, if_pos hzero]; rfl, rfl⟩
  case and =>
    rw [apply_words rfl rfl]
    simp only [← Nat.testBit_and]
    exact hasBits_ofWord (Nat.and_lt_two_pow _ hb)
  case or =>
    rw [apply_words rfl rfl]
    simp only [← Nat.testBit_or]
    exact hasBits_ofWord (Nat.or_lt_two_pow ha hb)
  case xor =>
    rw [apply_words rfl rfl]
    simp only [← Nat.testBit_xor]
    exact hasBits_ofWord (Nat.xor_lt_two_pow ha hb)

/-! ## One word -/

/-- What comes of a word of width `w` that shows `A`.  An operation can be applied again to
what it gives. -/
structure WordLaws (w A : Nat) (a : Value) (apply : UnaryOperator → Value → Except Fault Value) :
    Prop where
  neg : IsWord w (-A) (apply .neg a)
  sq : IsWord w (A * A) (apply .sq a)
  shiftLeft : IsWord w (2 * A) (apply .shiftLeft a)
  shiftRight : IsWord w (A / 2) (apply .shiftRight a)
  /-- Each bit moves to the next place, and the highest to the lowest. -/
  rotateLeft : ∃ bits : UInt32, apply .rotateLeft a = .ok (.binary bits) ∧
    bits.toNat < 2 ^ w ∧ ∀ i < w, bits.toNat.testBit ((i + 1) % w) = A.testBit i
  rotateRight_rotateLeft : IsWord w A (apply .rotateLeft a >>= apply .rotateRight)
  rotateLeft_rotateRight : IsWord w A (apply .rotateRight a >>= apply .rotateLeft)
  /-- As many rotations as there are bits. -/
  rotations : ∀ op ∈ [UnaryOperator.rotateLeft, .rotateRight],
    IsWord w A ((fun r => r >>= apply op)^[w] (.ok a))

namespace UnaryOperator

variable {d : Display} {op : UnaryOperator}

variable (op) in
/-- An operation applied again sees the whole of what it gave. -/
theorem apply_ofWord {n : Nat} (hn : n < d.modulus) :
    op.apply d (.ofWord d n) = op.onWord d n := by
  show op.onWord d (d.word (d.bitsOf n)) = _
  rw [Display.word_bitsOf, Nat.mod_eq_of_lt hn]

/-- An operation that keeps words within the width, applied again and again. -/
theorem iterate_apply {f : Nat → Nat}
    (hop : ∀ n, op.onWord d n = .ok (.ofWord d (f n)))
    (hf : Set.MapsTo f (Set.Iio d.modulus) (Set.Iio d.modulus)) (a : UInt32) (k : Nat) :
    (fun r => r >>= op.apply d)^[k + 1] (.ok (.binary a)) =
      .ok (.ofWord d (f^[k + 1] (d.word a))) := by
  induction k with
  | zero => exact hop _
  | succ k ih =>
    have hlt : f^[k + 1] (d.word a) < d.modulus := hf.iterate (k + 1) (d.word_lt a)
    rw [Function.iterate_succ_apply', ih]
    show op.apply d (.ofWord d _) = _
    rw [apply_ofWord op hlt, hop, Function.iterate_succ_apply' f (k + 1)]

end UnaryOperator

open UnaryOperator in
theorem wordLaws (d : Display) (a : UInt32) :
    WordLaws d.width (d.word a) (.binary a) fun op => op.apply d := by
  have hw := d.one_le_width
  have ha : d.word a < 2 ^ d.width := d.word_lt a
  have hleft := Bits.mapsTo_rotateLeft hw
  have hright := Bits.mapsTo_rotateRight hw
  have hsame {n : Nat} (hn : n = d.word a) : IsWord d.width (d.word a) (.ok (.ofWord d n)) :=
    isWord_ofWord (by rw [hn])
  constructor
  case neg =>
    have hdiff := subMod_word (d := d) 0 a
    rw [Nat.cast_zero, zero_sub] at hdiff
    exact isWord_ofWord hdiff
  case sq => exact isWord_ofWord (by rw [Nat.cast_mul])
  case shiftLeft => exact isWord_ofWord (by rw [Nat.cast_mul]; rfl)
  case shiftRight => exact isWord_ofWord (by rw [Int.natCast_div]; rfl)
  case rotateLeft =>
    have hlt : Bits.rotateLeft d.width (d.word a) < d.modulus := hleft ha
    have hbits := d.toNat_bitsOf (Bits.rotateLeft d.width (d.word a))
    rw [Nat.mod_eq_of_lt hlt] at hbits
    refine ⟨_, rfl, ?_, fun i hi => ?_⟩
    · rw [hbits]
      exact hlt
    · rw [hbits]
      exact Bits.testBit_rotateLeft ha hi
  case rotateRight_rotateLeft =>
    have hback := Bits.rotateRight_rotateLeft hw ha
    show IsWord _ _ (UnaryOperator.rotateRight.apply d (.ofWord d _))
    rw [apply_ofWord _ (hleft ha)]
    exact hsame hback
  case rotateLeft_rotateRight =>
    have hback := Bits.rotateLeft_rotateRight hw ha
    show IsWord _ _ (UnaryOperator.rotateLeft.apply d (.ofWord d _))
    rw [apply_ofWord _ (hright ha)]
    exact hsame hback
  case rotations =>
    obtain ⟨k, hk⟩ : ∃ k, d.width = k + 1 := ⟨d.width - 1, by omega⟩
    have hround := Bits.iterate_rotateLeft hw ha
    have hround' := Bits.iterate_rotateRight hw ha
    intro op hop
    simp only [List.mem_cons, List.not_mem_nil, or_false] at hop
    rcases hop with rfl | rfl
    · rw [hk, iterate_apply (fun _ => rfl) hleft, ← hk]
      exact hsame hround
    · rw [hk, iterate_apply (fun _ => rfl) hright, ← hk]
      exact hsame hround'

/-! ## Integers that become words -/

/-- What comes of two integers that are converted to words, before or after an operation. -/
structure IntegerLaws (d : Display) (m n : Int) : Prop where
  convert : IsWord d.width m (Value.convert d .binary (.integer m))
  combine : ∀ op ∈ [BinaryOperator.add, .sub, .mul, .and, .or, .xor],
    SameWord (op.apply d (.integer m) (.integer n) >>= Value.convert d .binary) (do
      let a ← Value.convert d .binary (.integer m)
      let b ← Value.convert d .binary (.integer n)
      op.apply d a b)
  neg : SameWord (UnaryOperator.neg.apply d (.integer m) >>= Value.convert d .binary)
    (Value.convert d .binary (.integer m) >>= UnaryOperator.neg.apply d)

open BinaryOperator in
theorem integerLaws (d : Display) (m n : Int) : IntegerLaws d m n := by
  obtain ⟨a, ha, hma⟩ := isWord_convert (d := d) m
  obtain ⟨b, hb, hnb⟩ := isWord_convert (d := d) n
  have hm : (d.word a : Int) = m % 2 ^ d.width := word_eq_emod hma
  have hn : (d.word b : Int) = n % 2 ^ d.width := word_eq_emod hnb
  have hm' : m ≡ d.word a [ZMOD 2 ^ d.width] := by rw [hm]; exact (Int.mod_modEq _ _).symm
  have hn' : n ≡ d.word b [ZMOD 2 ^ d.width] := by rw [hn]; exact (Int.mod_modEq _ _).symm
  have hbits {z : Int} {k : Nat} (hk : (k : Int) = z % 2 ^ d.width) (i : Nat) :
      k.testBit i = (decide (i < d.width) && z.testBit i) := by
    rw [← Bits.testBit_emod, ← hk, Int.toNat_natCast]
  have hpair := pairLaws d a b
  constructor
  case convert => exact isWord_convert m
  case combine =>
    intro op hop
    rw [ha, hb]
    show SameWord _ (op.apply d (.binary a) (.binary b))
    simp only [List.mem_cons, List.not_mem_nil, or_false] at hop
    rcases hop with rfl | rfl | rfl | rfl | rfl | rfl <;> rw [apply_integers rfl rfl]
    · exact (isWord_convert (m + n)).same hpair.add (hm'.add hn')
    · exact (isWord_convert (m - n)).same hpair.sub (hm'.sub hn')
    · exact (isWord_convert (m * n)).same hpair.mul (hm'.mul hn')
    · refine (isWord_convert (Bits.and m n)).hasBits.same hpair.and fun i => ?_
      rw [hbits hm, hbits hn, Bits.testBit_and]
      cases decide (i < d.width) <;> rfl
    · refine (isWord_convert (Bits.or m n)).hasBits.same hpair.or fun i => ?_
      rw [hbits hm, hbits hn, Bits.testBit_or, Bool.and_or_distrib_left]
    · refine (isWord_convert (Bits.xor m n)).hasBits.same hpair.xor fun i => ?_
      rw [hbits hm, hbits hn, Bits.testBit_xor, Bool.and_xor_distrib_left]
  case neg =>
    rw [ha]
    exact (isWord_convert (-m)).same (wordLaws d a).neg hm'.neg

/-! ## The laws together -/

/-- **Words of width `w` are the integers modulo `2 ^ w`.** -/
theorem word_arithmetic (d : Display) :
    (∀ a b : UInt32, PairLaws d.width (d.word a) (d.word b) fun op =>
      op.apply d (.binary a) (.binary b)) ∧
    (∀ a : UInt32, WordLaws d.width (d.word a) (.binary a) fun op => op.apply d) ∧
    ∀ m n : Int, IntegerLaws d m n :=
  ⟨pairLaws d, wordLaws d, integerLaws d⟩

/-- Four bits are seen, so that this is 3 minus 10. -/
example : BinaryOperator.sub.apply { wordSize := 4 } (.binary 3) (.binary 250) =
    .ok (.binary 9) := rfl

end RpnCalculator
