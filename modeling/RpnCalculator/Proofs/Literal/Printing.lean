import RpnCalculator.Proofs.Literal.Grammar
import RpnCalculator.Proofs.Text.Words
import RpnCalculator.Value.Rendering
import RpnCalculator.Vocabulary

/-!
# Numbers as they are written

The texts that are written for integers, fractions and words are literals, and they denote what
they were written for (`denotes_writeInteger`, `denotes_fractionText`, `denotes_wordText`).  The
grammar of literals says what a text denotes without mentioning a reader, so this is about
writing only.

A word is written in one of four bases and its digits are put into upper case, while the letter
of the base is a small one.  `number_map_toDigits` takes the base and the change of the digits as
they come: all it needs is that a digit keeps its value.

## Among other words

Such a text is also one word that is no builtin.  It has no blank in it and does not begin with a
quote, and every one of them has a character that no builtin has (`isMark`): a decimal digit, or
the hash before the digits of a word.
-/

namespace RpnCalculator

open Text

/-! ## Digits -/

namespace Text

theorem number_concat {base v : Nat} {c : Char} (hc : digitValue? c = some v) (ds : List Char) :
    number base (ds ++ [c]) = number base ds * base + v := by
  rw [number, numberAfter, List.foldl_append, List.foldl_cons, List.foldl_nil, hc]
  rfl

/-- **The digits of a number denote it**, also when each is replaced by another of its value. -/
theorem number_map_toDigits {base : Nat} (hbase : 1 < base) {f : Char → Char}
    (hf : ∀ k < base, digitValue? (f k.digitChar) = some k) (n : Nat) :
    Digits base ((Nat.toDigits base n).map f) ∧
      number base ((Nat.toDigits base n).map f) = n := by
  induction n using Nat.strongRecOn with
  | ind n ih =>
    by_cases hn : n < base
    · rw [Nat.toDigits_of_lt_base hn, List.map_singleton]
      constructor
      · simpa [Digits] using ⟨n, hf n hn, hn⟩
      · rw [number, numberAfter, List.foldl_cons, List.foldl_nil, hf n hn, Nat.zero_mul,
          Option.getD_some, Nat.zero_add]
    · have hle : base ≤ n := Nat.not_lt.mp hn
      have hlast : n % base < base := Nat.mod_lt n (by omega)
      obtain ⟨hdigits, hnumber⟩ := ih (n / base) (Nat.div_lt_self (by omega) hbase)
      rw [Nat.toDigits_of_base_le hbase hle, List.map_append, List.map_singleton]
      constructor
      · rw [Digits, List.forall_mem_append]
        exact ⟨hdigits, by simpa using ⟨_, hf _ hlast, hlast⟩⟩
      · rw [number_concat (hf _ hlast), hnumber, Nat.mul_comm, Nat.div_add_mod]

theorem isDigit_of_mem_writeDecimal {n : Nat} {c : Char} (hc : c ∈ writeDecimal n) :
    isDigit c = true := by
  rw [writeDecimal_eq] at hc
  have hdigit := Nat.isDigit_of_mem_toDigits (by decide) (by decide) hc
  simpa [Char.isDigit, isDigit, Char.le_def] using hdigit

theorem numeral_writeDecimal (n : Nat) : Numeral (writeDecimal n) := by
  refine ⟨?_, fun c => isDigit_of_mem_writeDecimal⟩
  rw [writeDecimal_eq]
  exact Nat.toDigits_ne_nil

theorem number_writeDecimal (n : Nat) : number 10 (writeDecimal n) = n := by
  rw [← readDecimal_eq (numeral_writeDecimal n).2, readDecimal, writeDecimal_eq,
    Nat.ofDigitChars_ten_toDigits]

/-- An integer is written as a text of it. -/
theorem integerText_writeInteger (n : Int) : IntegerText (writeInteger n) n := by
  have hdigits := numeral_writeDecimal n.natAbs
  unfold writeInteger
  split
  · have htext := IntegerText.mk .minus hdigits
    rw [if_pos rfl, number_writeDecimal] at htext
    rwa [show -(n.natAbs : Int) = n by omega] at htext
  · have htext := IntegerText.mk .absent hdigits
    rw [if_neg (by decide), number_writeDecimal] at htext
    rwa [show (n.natAbs : Int) = n by omega] at htext

end Text

namespace Literal

variable {d : Display}

/-! ## Numbers -/

theorem denotes_writeInteger (n : Int) : Denotes d .integer (writeInteger n) (.integer n) :=
  .integer (integerText_writeInteger n)

/-- The numerator and the denominator are written as they are stored. -/
theorem denotes_fractionText {q : Fraction} (h : q.Reduced) :
    Denotes d .rational q.text (.rational q) := by
  have hden : writeInteger q.den = writeDecimal q.den.natAbs := if_neg (by have := h.1; omega)
  have htext := RatioText.mk (integerText_writeInteger q.num) (numeral_writeDecimal q.den.natAbs)
  rw [number_writeDecimal, ← hden] at htext
  have hcast : (q.den.natAbs : Int) = q.den := Int.natAbs_of_nonneg h.1.le
  refine .rational htext (by have := h.1; omega) h ?_
  rw [hcast, Fraction.toRat]

/-- The letter of the base is told from the digits, which are large letters at most. -/
theorem denotes_wordText (d : Display) (bits : UInt32) :
    Denotes d .binary (d.wordText bits) (.ofWord d (d.word bits)) := by
  have hupper : ∀ k < 16, digitValue? k.digitChar.toUpper = some k := by decide
  have hradix : d.base.radix ≤ 16 := by cases d.base <;> decide
  obtain ⟨hdigits, hnumber⟩ := number_map_toDigits (f := Char.toUpper) d.base.one_lt_radix
    (fun k hk => hupper k (by omega)) (d.word bits)
  have hword := d.word_lt bits
  have htext : WordText d (d.wordText bits) ((Nat.toDigits d.base.radix (d.word bits)).map
      Char.toUpper) d.base := by
    refine .suffixed ?_ ?_
    · simp [Nat.toDigits_ne_nil]
    · intro c hc
      obtain ⟨v, hv, -⟩ := hdigits c hc
      rw [isHexDigit, hv]
      rfl
  refine .binary htext hdigits ?_ ?_
  · rw [hnumber]
    exact hword.trans_le (d.modulus_le.trans (by decide))
  · rw [hnumber, d.toNat_bitsOf]
    rfl

/-! ## Among other words -/

/-- The characters of exact numbers. -/
def isExactChar (c : Char) : Bool :=
  isHexDigit c || ['+', '-', '/', '#', 'h', 'd', 'o', 'b'].contains c

theorem toNat_of_isHexDigit {c : Char} (h : isHexDigit c = true) :
    48 ≤ c.toNat ∧ c.toNat ≤ 102 := by
  have hrange {a b : Char} (hab : (decide (a ≤ c) && decide (c ≤ b)) = true) :
      a.toNat ≤ c.toNat ∧ c.toNat ≤ b.toNat := by
    simp only [Bool.and_eq_true, decide_eq_true_eq] at hab
    exact hab
  unfold isHexDigit digitValue? at h
  split at h
  · rename_i hc
    have hbounds := hrange hc
    simp only [show '0'.toNat = 48 from rfl, show '9'.toNat = 57 from rfl] at hbounds
    omega
  split at h
  · rename_i hc
    have hbounds := hrange hc
    simp only [show 'a'.toNat = 97 from rfl, show 'f'.toNat = 102 from rfl] at hbounds
    omega
  split at h
  · rename_i hc
    have hbounds := hrange hc
    simp only [show 'A'.toNat = 65 from rfl, show 'F'.toNat = 70 from rfl] at hbounds
    omega
  · cases h

theorem isBlank_of_isExactChar {c : Char} (h : isExactChar c = true) : isBlank c = false := by
  rw [isExactChar, Bool.or_eq_true] at h
  rcases h with h | h
  · have hbounds := toNat_of_isHexDigit h
    simp only [isBlank, Bool.or_eq_false_iff, Bool.and_eq_false_iff, decide_eq_false_iff_not,
      beq_eq_false_iff_ne]
    omega
  · have hall : ∀ c ∈ ['+', '-', '/', '#', 'h', 'd', 'o', 'b'], isBlank c = false := by
      simp [isBlank]
    exact hall c (by simpa using h)

variable {cs : List Char} {v : Value}

theorem isExactChar_of_isDigit {c : Char} (h : isDigit c = true) : isExactChar c = true := by
  simp [isExactChar, isHexDigit, (digitValue?_of_isDigit h).1]

theorem isExactChar_of_integerText {n : Int} (h : IntegerText cs n) :
    ∀ c ∈ cs, isExactChar c = true := by
  obtain ⟨hs, hd⟩ := h
  rw [List.forall_mem_append]
  refine ⟨?_, fun c hc => isExactChar_of_isDigit (hd.2 c hc)⟩
  cases hs <;> simp <;> decide

/-- The forms of exact numbers. -/
def Form.isExact : Form → Bool
  | .integer | .rational | .binary => true
  | .string | .float | .complex => false

theorem Denotes.isExactChar {f : Form} (h : Denotes d f cs v) (hf : f.isExact = true) :
    ∀ c ∈ cs, isExactChar c = true := by
  cases h with
  | integer h => exact isExactChar_of_integerText h
  | rational h =>
    obtain ⟨hn, hd⟩ := h
    rw [List.forall_mem_append, List.forall_mem_cons]
    exact ⟨isExactChar_of_integerText hn, by decide, fun c hc => isExactChar_of_isDigit (hd.2 c hc)⟩
  | binary h =>
    have hdigit {c : Char} (hc : isHexDigit c = true) : Literal.isExactChar c = true := by
      simp [Literal.isExactChar, hc]
    have hsuffix (base : Base) : Literal.isExactChar base.suffix = true := by
      cases base <;> decide
    cases h with
    | suffixed hne hex =>
      rw [List.forall_mem_cons, List.forall_mem_append, List.forall_mem_singleton]
      exact ⟨by decide, fun c hc => hdigit (hex c hc), hsuffix _⟩
    | unsuffixed hne hex _ =>
      rw [List.forall_mem_cons]
      exact ⟨by decide, fun c hc => hdigit (hex c hc)⟩
  | _ => cases hf

/-- Characters of which a word of each form has one. -/
def isMark (c : Char) : Bool := isDigit c || ['"', '(', '#'].contains c

theorem Shape.exists_mark {f : Form} (h : Shape f cs) : ∃ c ∈ cs, isMark c = true := by
  have hdigit {ds : List Char} (hne : ds ≠ []) (hds : ∀ c ∈ ds, isDigit c = true) :
      ∃ c ∈ ds, isMark c = true := by
    obtain ⟨c, hc⟩ := List.exists_mem_of_ne_nil ds hne
    exact ⟨c, hc, by simp [isMark, hds c hc]⟩
  have hsub {ds : List Char} (hds : ds ⊆ cs) (h : ∃ c ∈ ds, isMark c = true) :
      ∃ c ∈ cs, isMark c = true := h.imp fun c hc => ⟨hds hc.1, hc.2⟩
  cases h with
  | string => exact ⟨'"', List.mem_cons_self, rfl⟩
  | complex => exact ⟨'(', List.mem_cons_self, rfl⟩
  | binary => exact ⟨'#', List.mem_cons_self, rfl⟩
  | integer h =>
    obtain ⟨hs, hd⟩ := h
    exact hsub (List.subset_append_right _ _) (hdigit hd.1 hd.2)
  | rational hn hd =>
    exact hsub (fun c hc => List.mem_append_right _ (List.mem_cons_of_mem _ hc))
      (hdigit hd.1 hd.2)
  | float h =>
    obtain ⟨hs, hwhole, hpoint, hne | hne, he⟩ := h
    · exact hsub (fun c hc => by simp [hc]) (hdigit hne hwhole)
    · cases hpoint with
      | absent => exact absurd rfl hne
      | present hds => exact hsub (fun c hc => by simp [hc]) (hdigit hne hds)

/-- **No word of a form is a builtin word**, nor is `quit`. -/
theorem Shape.notMem_words {f : Form} {word : String} (h : Shape f word.toList) :
    word ∉ quitWord :: Builtin.words := by
  have hall : ∀ w ∈ quitWord :: Builtin.words, w.toList.any isMark = false := by decide
  intro hmem
  have hmark : word.toList.any isMark = true := List.any_eq_true.mpr h.exists_mark
  rw [hall word hmem] at hmark
  cases hmark

/-- **An exact number is one word.** -/
theorem Denotes.bare {f : Form} (h : Denotes d f cs v) (hf : f.isExact = true) :
    Token.Bare cs := by
  have hchars := h.isExactChar hf
  obtain ⟨c, hc, -⟩ := h.shape.exists_mark
  refine ⟨List.ne_nil_of_mem hc, fun c hc => isBlank_of_isExactChar (hchars c hc), ?_⟩
  intro hhead
  have hquote := hchars _ (List.mem_of_mem_head? hhead)
  exact absurd hquote (by decide)

end Literal

end RpnCalculator
