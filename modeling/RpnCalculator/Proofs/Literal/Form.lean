import RpnCalculator.Proofs.Literal.Decimal

/-!
# The forms of literals

A literal has one of six forms, and a word belongs to one form at most, even if it fails to be a
literal because a number is too large or a digit is wrong.  The form can be told from the first
character and from which characters occur (`form`, `Shape.form_eq`).

This is why the order in which the forms are tried does not matter.  It is also how a reader is
shown to have left a word to the later ones.
-/

namespace RpnCalculator

open Text

namespace Literal

/-! ## Forms -/

/-- The forms of a literal. -/
inductive Form where
  | string
  | integer
  | float
  | rational
  | complex
  | binary
  deriving DecidableEq, Repr

/-- What a word of a form looks like, whether it is a literal or not. -/
inductive Shape : Form → List Char → Prop where
  | string {text : List Char} : Shape .string ('"' :: text)
  | integer {cs : List Char} {n : Int} (h : IntegerText cs n) : Shape .integer cs
  | float {cs : List Char} {x : Decimal} (h : Decimal.Written cs x)
      (hform : x.point = true ∨ x.exponent.isSome = true) : Shape .float cs
  | rational {cs ds : List Char} {n : Int} (hn : IntegerText cs n) (hd : Numeral ds) :
      Shape .rational (cs ++ '/' :: ds)
  | complex {cs : List Char} : Shape .complex ('(' :: cs)
  | binary {cs : List Char} : Shape .binary ('#' :: cs)

/-- The form that a word can have. -/
def form (cs : List Char) : Form :=
  if cs.head? = some '"' then .string
  else if cs.head? = some '(' then .complex
  else if cs.head? = some '#' then .binary
  else if '/' ∈ cs then .rational
  else if '.' ∈ cs ∨ 'e' ∈ cs ∨ 'E' ∈ cs then .float
  else .integer

variable {cs ds : List Char}

/-- The characters of an integer. -/
def isIntegerChar (c : Char) : Bool := isDigit c || c == '+' || c == '-'

/-- The characters of a decimal. -/
def isDecimalChar (c : Char) : Bool := isIntegerChar c || c == '.' || c == 'e' || c == 'E'

theorem isIntegerChar_of_sign {s : List Char} {negative : Bool} (hs : Sign s negative) :
    ∀ c ∈ s, isIntegerChar c = true := by
  rw [← List.all_eq_true]
  cases hs <;> rfl

theorem isIntegerChar_of_isDigit {c : Char} (h : isDigit c = true) : isIntegerChar c = true := by
  simp [isIntegerChar, h]

theorem isIntegerChar_of_integerText {n : Int} (h : IntegerText cs n) :
    ∀ c ∈ cs, isIntegerChar c = true := by
  obtain ⟨hs, hd⟩ := h
  intro c hc
  rcases List.mem_append.mp hc with hc | hc
  · exact isIntegerChar_of_sign hs c hc
  · exact isIntegerChar_of_isDigit (hd.2 c hc)

theorem isDecimalChar_of_isIntegerChar {c : Char} (h : isIntegerChar c = true) :
    isDecimalChar c = true := by
  simp [isDecimalChar, h]

theorem isDecimalChar_of_written {x : Decimal} (h : Decimal.Written cs x) :
    ∀ c ∈ cs, isDecimalChar c = true := by
  obtain ⟨hs, hwhole, hpoint, -, he⟩ := h
  intro c hc
  simp only [List.mem_append] at hc
  rcases hc with hc | hc | hc | hc
  · exact isDecimalChar_of_isIntegerChar (isIntegerChar_of_sign hs c hc)
  · exact isDecimalChar_of_isIntegerChar (isIntegerChar_of_isDigit (hwhole c hc))
  · cases hpoint with
    | absent => cases hc
    | present h =>
      rcases List.mem_cons.mp hc with rfl | hc
      · decide
      · exact isDecimalChar_of_isIntegerChar (isIntegerChar_of_isDigit (h c hc))
  · cases he with
    | absent => cases hc
    | present hmark h =>
      rcases List.mem_cons.mp hc with rfl | hc
      · rcases hmark with rfl | rfl <;> decide
      · exact isDecimalChar_of_isIntegerChar (isIntegerChar_of_integerText h c hc)

/-- A word of such characters has one of three forms. -/
theorem form_of_numeric (h : ∀ c ∈ cs, isDecimalChar c = true ∨ c = '/') :
    form cs =
      if '/' ∈ cs then .rational
      else if '.' ∈ cs ∨ 'e' ∈ cs ∨ 'E' ∈ cs then .float
      else .integer := by
  have hhead : ∀ c, isDecimalChar c = false → c ≠ '/' → cs.head? ≠ some c := by
    intro c hc hslash heq
    rcases h c (List.mem_of_mem_head? heq) with h | h
    · rw [hc] at h
      cases h
    · exact hslash h
  rw [form, if_neg (hhead _ (by decide) (by decide)), if_neg (hhead _ (by decide) (by decide)),
    if_neg (hhead _ (by decide) (by decide))]

theorem notMem_of_char {p : Char → Bool} (h : ∀ c ∈ cs, p c = true) {c : Char} (hc : p c = false) :
    c ∉ cs := fun hmem => by
  rw [h c hmem] at hc
  cases hc

/-- **The form of a word can be told from its characters.** -/
theorem Shape.form_eq {f : Form} (h : Shape f cs) : form cs = f := by
  cases h with
  | string => rfl
  | complex => rfl
  | binary => rfl
  | integer h =>
    have hchars := isIntegerChar_of_integerText h
    have hnone : ∀ c, isIntegerChar c = false → c ∉ cs := fun c => notMem_of_char hchars
    rw [form_of_numeric fun c hc => .inl (isDecimalChar_of_isIntegerChar (hchars c hc)),
      if_neg (hnone '/' (by decide)), if_neg]
    simp [hnone '.' (by decide), hnone 'e' (by decide), hnone 'E' (by decide)]
  | @float _ x h hform =>
    have hchars := isDecimalChar_of_written h
    rw [form_of_numeric fun c hc => .inl (hchars c hc),
      if_neg (notMem_of_char hchars (c := '/') (by decide)), if_pos]
    obtain ⟨hs, hwhole, hpoint, hdigit, he⟩ := h
    rcases hform with hform | hform
    · cases hpoint with
      | absent => cases hform
      | present h => simp
    · cases he with
      | absent => cases hform
      | present hc h => rcases hc with rfl | rfl <;> simp
  | rational hn hd =>
    rw [form_of_numeric, if_pos (by simp)]
    intro c hc
    rcases List.mem_append.mp hc with hc | hc
    · exact .inl (isDecimalChar_of_isIntegerChar (isIntegerChar_of_integerText hn c hc))
    · rcases List.mem_cons.mp hc with rfl | hc
      · exact .inr rfl
      · exact .inl (isDecimalChar_of_isIntegerChar (isIntegerChar_of_isDigit (hd.2 c hc)))

/-- A decimal without a point and an exponent is an integer. -/
theorem exists_integerText {x : Decimal} (h : Decimal.Written cs x)
    (hform : ¬(x.point = true ∨ x.exponent.isSome = true)) : ∃ n, IntegerText cs n := by
  obtain ⟨hs, hwhole, hpoint, hdigit, he⟩ := h
  rw [not_or] at hform
  cases hpoint with
  | present h => exact absurd rfl hform.1
  | absent =>
    cases he with
    | present hc h => exact absurd rfl hform.2
    | absent =>
      rw [List.append_nil, List.append_nil]
      exact ⟨_, .mk hs ⟨hdigit.resolve_right (by simp), hwhole⟩⟩

end Literal
end RpnCalculator
