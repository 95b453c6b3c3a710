import RpnCalculator.Literal
import RpnCalculator.Proofs.Literal.Form

/-!
# The grammar of literals

`Literal.parse` tries six readers one after the other.  This file says which words are literals and
what they stand for without mentioning the readers or their order (`Denotes`), and shows that
`parse` agrees on every word and under all settings (`parse_grammar`).

A reader has a result exactly on the texts of its form, and so it has none on those of another
(`Shape.form_eq`).  In one place two forms overlap in what their readers accept: an integer can also
be taken apart as a decimal.  It is tried first, and what comes to the second reader has a
point or an exponent (`exists_integerText`).

## The letter after a binary word

`b` and `d` are letters for a base and digits as well.  `Suffixed` says when the last character is
taken for a letter: whenever a character precedes it, even where it would be a digit and the other
reading would give a number too.
-/

namespace RpnCalculator

open Text

namespace Literal

variable {cs ds : List Char}

/-! ## Rationals -/

/-- An integer and a denominator. -/
inductive RatioText : List Char → Int → Nat → Prop where
  | mk {cs ds : List Char} {n : Int} (hn : IntegerText cs n) (hd : Numeral ds) :
    RatioText (cs ++ '/' :: ds) n (number 10 ds)

theorem RatioText.shape {n : Int} {m : Nat} (h : RatioText cs n m) : Shape .rational cs := by
  obtain ⟨hn, hd⟩ := h
  exact .rational hn hd

theorem splitRatio?_eq_some_iff {n : Int} {m : Nat} :
    splitRatio? cs = some (n, m) ↔ RatioText cs n m := by
  constructor
  · intro h
    unfold splitRatio? at h
    split at h
    · rename_i c ds hdrop
      split at h
      · rename_i hd
        rw [isNumeral_iff] at hd
        obtain ⟨n', hn, hp⟩ := Option.map_eq_some_iff.mp h
        rw [readDecimal_eq hd.2, Prod.mk.injEq] at hp
        obtain ⟨rfl, rfl⟩ := hp
        have hslash : c = '/' := by
          have hhead := List.head?_dropWhile_not (· != '/') cs
          rw [hdrop] at hhead
          simpa using hhead
        subst hslash
        have hcs := List.takeWhile_append_dropWhile (p := (· != '/')) (l := cs)
        rw [hdrop] at hcs
        rw [← hcs]
        exact .mk (readInteger?_eq_some_iff.mp hn) hd
      · cases h
    · cases h
  · rintro ⟨hn, hd⟩
    rename_i t ds
    have hnone : ∀ c ∈ t, (c != '/') = true := by
      intro c hc
      have hslash : isIntegerChar '/' = false := by decide
      have hchar := isIntegerChar_of_integerText hn c hc
      rw [bne_iff_ne]
      rintro rfl
      rw [hslash] at hchar
      cases hchar
    unfold splitRatio?
    rw [List.dropWhile_append_of_pos hnone, List.takeWhile_append_of_pos hnone]
    simp [isNumeral_iff.mpr hd, readInteger?_eq_some_iff.mpr hn, readDecimal_eq hd.2]

/-! ## Complex numbers -/

/-- A number with blanks around it, and the double that it is rounded to. -/
def PartText (cs : List Char) (y : Double) : Prop :=
  ∃ x, Decimal.Written (trim cs) x ∧ x.Rounds y

theorem readReal?_eq_some_iff {y : Double} : readReal? cs = some y ↔ PartText cs y := by
  unfold readReal? PartText
  rw [Option.bind_eq_some_iff]
  constructor
  · rintro ⟨x, hx, hy⟩
    rw [Decimal.read?_eq_some_iff] at hx
    exact ⟨x, hx, (Decimal.toDouble?_eq_some_iff hx).mp hy⟩
  · rintro ⟨x, hx, hy⟩
    exact ⟨x, Decimal.read?_eq_some_iff.mpr hx, (Decimal.toDouble?_eq_some_iff hx).mpr hy⟩

/-- Trimming takes off blanks only. -/
theorem mem_trim_or_isBlank {c : Char} (hc : c ∈ cs) : c ∈ trim cs ∨ isBlank c = true := by
  have hdrop : ∀ l : List Char, c ∈ l → c ∈ l.dropWhile isBlank ∨ isBlank c = true := by
    intro l hl
    rw [← List.takeWhile_append_dropWhile (p := isBlank) (l := l), List.mem_append] at hl
    exact hl.symm.imp_right fun h => List.all_eq_true.mp List.all_takeWhile c h
  unfold trim
  rcases hdrop cs hc with h | h
  · rw [List.mem_reverse]
    exact hdrop _ (List.mem_reverse.mpr h)
  · exact .inr h

theorem isPart_of {c : Char} (h : isDecimalChar c = true ∨ isBlank c = true) : isPart c = true := by
  have hcases : isPart c = false → c = ',' ∨ c = '@' ∨ c = '(' ∨ c = ')' := by
    simp only [isPart, Bool.and_eq_false_iff, bne_eq_false_iff_eq]
    tauto
  cases hp : isPart c with
  | true => rfl
  | false =>
    rcases hcases hp with rfl | rfl | rfl | rfl <;> exact absurd h (by decide)

theorem PartText.isPart {y : Double} (h : PartText cs y) : ∀ c ∈ cs, isPart c = true := by
  obtain ⟨x, hx, -⟩ := h
  exact fun c hc => isPart_of ((mem_trim_or_isBlank hc).imp_left (isDecimalChar_of_written hx c))

theorem PartText.ne_nil {y : Double} (h : PartText cs y) : cs ≠ [] := by
  obtain ⟨x, hx, -⟩ := h
  rintro rfl
  exact hx.ne_nil rfl

/-- What stands between the parts, and whether they are length and angle. -/
inductive Separator : Char → Bool → Prop where
  | comma : Separator ',' false
  | at : Separator '@' true

/-- Two parts in parentheses. -/
def pairText (first : List Char) (sep : Char) (second : List Char) : List Char :=
  '(' :: (first ++ sep :: (second ++ [')']))

theorem exists_of_splitPair? {first second : List Char} {polar : Bool}
    (h : splitPair? cs = some (first, polar, second)) :
    ∃ sep, Separator sep polar ∧ cs = pairText first sep second := by
  unfold splitPair? at h
  split at h
  · rename_i cs
    dsimp only at h
    split at h
    · rename_i sep rest hrest
      split at h
      · rename_i hsep
        cases h
        have hcs := List.takeWhile_append_dropWhile (p := Literal.isPart) (l := cs)
        have hrest' := List.takeWhile_append_dropWhile (p := Literal.isPart) (l := rest)
        rw [hsep.2.2.2] at hrest'
        refine ⟨sep, ?_, ?_⟩
        · rcases hsep.1 with rfl | rfl
          · exact .comma
          · exact .at
        · rw [pairText, hrest', ← hrest, hcs]
      · cases h
    · cases h
  · cases h

theorem splitPair?_pairText {first second : List Char} {sep : Char} {polar : Bool} {x y : Double}
    (hsep : Separator sep polar) (hfirst : PartText first x) (hsecond : PartText second y) :
    splitPair? (pairText first sep second) = some (first, polar, second) := by
  have hstop : Literal.isPart sep = false := by cases hsep <;> decide
  have hclose : Literal.isPart ')' = false := by decide
  simp only [splitPair?, pairText, List.takeWhile_append_of_pos hfirst.isPart,
    List.dropWhile_append_of_pos hfirst.isPart, List.takeWhile_cons, List.dropWhile_cons, hstop,
    List.takeWhile_append_of_pos hsecond.isPart, List.dropWhile_append_of_pos hsecond.isPart,
    hclose, Bool.false_eq_true, if_false, List.append_nil]
  rw [if_pos ⟨by cases hsep <;> simp, hfirst.ne_nil, hsecond.ne_nil, trivial⟩]
  cases hsep <;> rfl

/-! ## Binary words -/

/-- The letters that name a base after the digits of a binary word. -/
def suffixes : List Char := ['h', 'd', 'o', 'b']

/-- Characters with a letter for the base after them.  A letter that is the only character is no
such letter. -/
def Suffixed (ds : List Char) : Prop := ds.dropLast ≠ [] ∧ ds.getLast? ∈ suffixes.map some

instance (ds : List Char) : Decidable (Suffixed ds) :=
  inferInstanceAs (Decidable (ds.dropLast ≠ [] ∧ ds.getLast? ∈ suffixes.map some))

theorem suffixed_iff {c : Char} (h : ds.getLast? = some c) :
    Suffixed ds ↔ ds.dropLast ≠ [] ∧ c ∈ suffixes := by
  simp [Suffixed, h]

/-- Digits after a hash, and their base. -/
inductive WordText (d : Display) : List Char → List Char → Base → Prop where
  | suffixed {ds : List Char} {base : Base} (hne : ds ≠ [])
      (hex : ∀ c ∈ ds, isHexDigit c = true) : WordText d ('#' :: (ds ++ [base.suffix])) ds base
  | unsuffixed {ds : List Char} (hne : ds ≠ []) (hex : ∀ c ∈ ds, isHexDigit c = true)
      (hs : ¬Suffixed ds) : WordText d ('#' :: ds) ds d.base

theorem suffix_mem_suffixes (base : Base) : base.suffix ∈ suffixes := by
  cases base <;> decide

theorem exists_suffix {c : Char} (h : c ∈ suffixes) :
    ∃ base : Base, c = base.suffix ∧ Base.ofSuffix? c = some base := by
  simp only [suffixes, List.mem_cons, List.not_mem_nil, or_false] at h
  rcases h with rfl | rfl | rfl | rfl
  · exact ⟨.hexadecimal, rfl, rfl⟩
  · exact ⟨.decimal, rfl, rfl⟩
  · exact ⟨.octal, rfl, rfl⟩
  · exact ⟨.binary, rfl, rfl⟩

theorem mem_suffixes_iff {c : Char} : c ∈ suffixes ↔ c = 'h' ∨ c = 'd' ∨ c = 'o' ∨ c = 'b' := by
  simp [suffixes]

theorem splitWord?_eq_some_iff {d : Display} {base : Base} :
    splitWord? d cs = some (ds, base) ↔ WordText d cs ds base := by
  constructor
  · intro h
    unfold splitWord? at h
    split at h
    · rename_i cs
      dsimp only at h
      split at h
      · cases h
      rename_i c hlast
      have hcs : cs = cs.dropLast ++ [c] := (List.dropLast_append_getLast? c hlast).symm
      split at h
      · rename_i hsuffix
        obtain ⟨base', hc, hbase⟩ := exists_suffix (mem_suffixes_iff.mpr hsuffix.1)
        rw [hbase] at h
        cases h
        rw [hcs, hc]
        rw [List.dropLast_concat]
        exact .suffixed hsuffix.2.1 (List.all_eq_true.mp hsuffix.2.2)
      · rename_i hsuffix
        split at h
        · rename_i hhex
          cases h
          have hhex' := List.all_eq_true.mp hhex
          refine .unsuffixed ?_ hhex' ?_
          · rintro rfl
            cases hlast
          · rw [suffixed_iff hlast]
            rintro ⟨hbody, hc⟩
            refine hsuffix ⟨mem_suffixes_iff.mp hc, hbody, List.all_eq_true.mpr fun c hc => ?_⟩
            exact hhex' c (List.dropLast_subset _ hc)
        · cases h
    · cases h
  · intro h
    cases h with
    | suffixed hne hex =>
      have hsuffix := mem_suffixes_iff.mp (suffix_mem_suffixes base)
      simpa [splitWord?, hsuffix, hne] using hex
    | unsuffixed hne hex hs =>
      have hlast := List.getLast?_eq_some_getLast hne
      simp only [splitWord?, hlast]
      rw [if_neg, if_pos (List.all_eq_true.mpr hex)]
      rintro ⟨hsuffix, hbody, -⟩
      exact hs ((suffixed_iff hlast).mpr ⟨hbody, mem_suffixes_iff.mpr hsuffix⟩)

/-! ## All literals -/

/-- The words of each form that are literals, and what they stand for. -/
inductive Denotes (d : Display) : Form → List Char → Value → Prop where
  | closed {text : List Char} :
      Denotes d .string ('"' :: (text ++ ['"'])) (.string (String.ofList text))
  | unclosed {text : List Char} (h : text.getLast? ≠ some '"') :
      Denotes d .string ('"' :: text) (.string (String.ofList text))
  | integer {cs : List Char} {n : Int} (h : IntegerText cs n) : Denotes d .integer cs (.integer n)
  /-- A decimal with a point or an exponent that is rounded to a finite double. -/
  | float {cs : List Char} {x : Decimal} {y : Double} (h : Decimal.Written cs x)
      (hform : x.point = true ∨ x.exponent.isSome = true) (hy : x.Rounds y) :
      Denotes d .float cs (.float y)
  /-- The fraction in lowest terms. -/
  | rational {cs : List Char} {n : Int} {m : Nat} {q : Fraction} (h : RatioText cs n m)
      (hm : m ≠ 0) (hq : q.Reduced) (hvalue : q.toRat = Rat.divInt n m) :
      Denotes d .rational cs (.rational q)
  | complex {first second : List Char} {sep : Char} {polar : Bool} {x y : Double}
      (hsep : Separator sep polar) (hfirst : PartText first x) (hsecond : PartText second y) :
      Denotes d .complex (pairText first sep second) (.complex (complexOf d polar x y))
  /-- A number below `2 ^ 64`, of which the word keeps as many bits as the width allows. -/
  | binary {cs ds : List Char} {base : Base} {bits : UInt32} (h : WordText d cs ds base)
      (hd : Digits base.radix ds) (hlt : number base.radix ds < 2 ^ 64)
      (hbits : bits.toNat = number base.radix ds % 2 ^ d.width) :
      Denotes d .binary cs (.binary bits)

variable {d : Display} {v : Value}

theorem Denotes.shape {f : Form} (h : Denotes d f cs v) : Shape f cs := by
  cases h with
  | closed => exact .string
  | unclosed _ => exact .string
  | integer h => exact .integer h
  | float h hform _ => exact .float h hform
  | rational h => exact h.shape
  | complex => exact .complex
  | binary h => cases h <;> exact .binary


/-! ## Which reader has a result -/

theorem readInteger?_eq_none (h : form cs ≠ .integer) : readInteger? cs = none := by
  rw [Option.eq_none_iff_forall_ne_some]
  intro n hn
  exact h (Shape.integer (readInteger?_eq_some_iff.mp hn)).form_eq

theorem read?_eq_none (h : form cs ≠ .integer) (h' : form cs ≠ .float) :
    Decimal.read? cs = none := by
  rw [Option.eq_none_iff_forall_ne_some]
  intro x hx
  rw [Decimal.read?_eq_some_iff] at hx
  by_cases hform : x.point = true ∨ x.exponent.isSome = true
  · exact h' (Shape.float hx hform).form_eq
  · obtain ⟨n, hn⟩ := exists_integerText hx hform
    exact h (Shape.integer hn).form_eq

theorem splitRatio?_eq_none (h : form cs ≠ .rational) : splitRatio? cs = none := by
  rw [Option.eq_none_iff_forall_ne_some]
  rintro ⟨n, m⟩ hp
  exact h (splitRatio?_eq_some_iff.mp hp).shape.form_eq

theorem splitPair?_eq_none (h : form cs ≠ .complex) : splitPair? cs = none := by
  rw [Option.eq_none_iff_forall_ne_some]
  rintro ⟨first, polar, second⟩ hp
  obtain ⟨sep, -, rfl⟩ := exists_of_splitPair? hp
  exact h Shape.complex.form_eq

/-- The number of a binary word is below the limit. -/
theorem readWord?_eq_some_iff {base : Base} {n : Nat} : readWord? ds base = some n ↔
    Digits base.radix ds ∧ n = number base.radix ds ∧ n < 2 ^ 64 := by
  have hlimit : wordLimit = 2 ^ 64 := by decide
  unfold readWord?
  cases h : readBase? base.radix ds with
  | none =>
    have hnone : ¬Digits base.radix ds := by
      intro hd
      rw [readBase?_eq_some_iff.mpr ⟨hd, rfl⟩] at h
      cases h
    simp [hnone]
  | some k =>
    obtain ⟨hd, hk⟩ := readBase?_eq_some_iff.mp h
    dsimp only
    rw [hlimit]
    split
    · rename_i hlt
      constructor
      · rintro ⟨⟩
        exact ⟨hd, hk, hlt⟩
      · rintro ⟨-, rfl, -⟩
        rw [hk]
    · rename_i hge
      refine iff_of_false (by simp) ?_
      rintro ⟨-, rfl, hlt⟩
      exact hge (hk ▸ hlt)

/-- A rational is refused exactly when its denominator is zero. -/
theorem ofRatio_eq (n : Int) (m : Nat) :
    Value.ofRatio n m = if m = 0 then .error (.domain .zeroDenominator)
      else .ok (.rational (.ofRat (Rat.divInt n m))) := by
  unfold Value.ofRatio
  by_cases h : m = 0
  · rw [if_pos h, if_pos (by exact_mod_cast h)]
  · rw [if_neg h, if_neg (by exact_mod_cast h)]
    rfl

/-- What `readChars?` finds in a rational. -/
theorem readChars?_of_ratioText {n : Int} {m : Nat} (h : RatioText cs n m) :
    readChars? d cs = some (Value.ofRatio n m) := by
  have hform := h.shape.form_eq
  unfold readChars?
  rw [readInteger?_eq_none (by simp [hform]), read?_eq_none (by simp [hform]) (by simp [hform]),
    splitRatio?_eq_some_iff.mpr h]

/-- What it finds in the literals of each form but the first. -/
theorem Denotes.readChars? {f : Form} (h : Denotes d f cs v) (hf : f ≠ .string) :
    readChars? d cs = some (.ok v) := by
  have hform := h.shape.form_eq
  cases h with
  | closed => exact absurd rfl hf
  | unclosed _ => exact absurd rfl hf
  | integer h =>
    unfold Literal.readChars?
    rw [readInteger?_eq_some_iff.mpr h]
  | float h _ hy =>
    unfold Literal.readChars?
    rw [readInteger?_eq_none (by simp [hform]), Decimal.read?_eq_some_iff.mpr h]
    simp [(Decimal.toDouble?_eq_some_iff h).mpr hy]
  | rational h hm hq hvalue =>
    rw [readChars?_of_ratioText h, ofRatio_eq, if_neg hm, ← hvalue, Fraction.ofRat_toRat hq]
  | complex hsep hfirst hsecond =>
    unfold Literal.readChars?
    rw [readInteger?_eq_none (by simp [hform]), read?_eq_none (by simp [hform]) (by simp [hform]),
      splitRatio?_eq_none (by simp [hform]), splitPair?_pairText hsep hfirst hsecond]
    simp [readReal?_eq_some_iff.mpr hfirst, readReal?_eq_some_iff.mpr hsecond]
  | binary h hd hlt hbits =>
    unfold Literal.readChars?
    rw [readInteger?_eq_none (by simp [hform]), read?_eq_none (by simp [hform]) (by simp [hform]),
      splitRatio?_eq_none (by simp [hform]), splitPair?_eq_none (by simp [hform]),
      splitWord?_eq_some_iff.mpr h]
    simp only [readWord?_eq_some_iff.mpr ⟨hd, rfl, hlt⟩, Option.map_some, Value.ofWord]
    rw [UInt32.toNat_inj.mp (hbits.trans (d.toNat_bitsOf _).symm)]

theorem Denotes.string_eq {text : List Char} (h : Denotes d .string ('"' :: text) v) :
    v = .string (String.ofList (dropQuote text)) := by
  cases h with
  | closed =>
    unfold dropQuote
    rw [if_pos List.getLast?_concat, List.dropLast_concat]
  | unclosed h =>
    unfold dropQuote
    rw [if_neg h]

theorem parse_string {word : String} {text : List Char} (h : word.toList = '"' :: text) :
    parse d word = .ok (.string (String.ofList (dropQuote text))) := by
  unfold parse
  rw [h]
  rfl

theorem parse_other {word : String} (h : form word.toList ≠ .string) :
    parse d word = (Literal.readChars? d word.toList).getD (.error (.unrecognized word)) := by
  unfold parse
  split
  · rename_i text hcs
    rw [hcs] at h
    exact absurd rfl h
  · rfl

/-- Whether a word has the first form can be seen from its first character. -/
theorem exists_of_form_string (h : form cs = .string) : ∃ text, cs = '"' :: text := by
  unfold form at h
  split at h
  · rename_i hhead
    exact ⟨_, (List.head?_eq_some_iff.mp hhead).choose_spec⟩
  · repeat' split at h
    all_goals cases h

/-- A literal is read as what it denotes. -/
theorem Denotes.parse_eq {word : String} {f : Form} (h : Denotes d f word.toList v) :
    parse d word = .ok v := by
  by_cases hf : f = .string
  · subst hf
    obtain ⟨text, hcs⟩ := exists_of_form_string h.shape.form_eq
    rw [hcs] at h
    rw [parse_string hcs, h.string_eq]
  · rw [parse_other (by rw [h.shape.form_eq]; exact hf), h.readChars? hf]
    rfl

end Literal
end RpnCalculator
