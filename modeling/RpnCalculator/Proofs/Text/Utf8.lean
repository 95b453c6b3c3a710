import RpnCalculator.Text.Utf8

/-!
# Text and its bytes

Decoding undoes encoding (`decode_encode`), and bytes that are text are the bytes of that text
and of no other (`encode_of_decode`).  So a text can be told from its bytes, and a text never
takes more bytes than it was read from.

Both directions go through the character.  Its first byte says how many are to follow and
which the second can be, and that is what `lead?` returns; `Completes` says which bytes go
on from there, and which character they make.  Then the two facts about a character of
several bytes are that its own bytes lead and complete (`completes_encodeChar`), and that
bytes that lead and complete are the bytes of a character (`encodeChar_of_completes`).  The
second is where overlong forms, surrogates and numbers that are too large have to be
excluded.
-/

namespace RpnCalculator
namespace Utf8

/-! ## Bytes -/

theorem toNat_byte {n : Nat} (h : n < 256) : (UInt8.ofNat n).toNat = n :=
  UInt8.toNat_ofNat_of_lt' h

theorem byte_eq {n : Nat} {b : UInt8} (h : n = b.toNat) : UInt8.ofNat n = b := by
  rw [h, UInt8.ofNat_toNat]

theorem toNat_ofNat_char {n : Nat} (h : n.isValidChar) : (Char.ofNat n).toNat = n := by
  rw [Char.ofNat, dif_pos h]
  rfl

/-! ## Sizes -/

section Sizes

variable {c : Char}

theorem encodeChar_one (h : c.toNat < 0x80) : encodeChar c = [UInt8.ofNat c.toNat] := by
  simp [encodeChar, h]

theorem encodeChar_two (h : 0x80 ≤ c.toNat) (h' : c.toNat < 0x800) :
    encodeChar c = [UInt8.ofNat (0xC0 + c.toNat / 64), UInt8.ofNat (0x80 + c.toNat % 64)] := by
  simp [encodeChar, Nat.not_lt.mpr h, h']

theorem encodeChar_three (h : 0x800 ≤ c.toNat) (h' : c.toNat < 0x10000) :
    encodeChar c =
      [UInt8.ofNat (0xE0 + c.toNat / 4096), UInt8.ofNat (0x80 + c.toNat / 64 % 64),
        UInt8.ofNat (0x80 + c.toNat % 64)] := by
  simp [encodeChar, Nat.not_lt.mpr h, h', show ¬c.toNat < 0x80 by omega]

theorem encodeChar_four (h : 0x10000 ≤ c.toNat) :
    encodeChar c =
      [UInt8.ofNat (0xF0 + c.toNat / 262144), UInt8.ofNat (0x80 + c.toNat / 4096 % 64),
        UInt8.ofNat (0x80 + c.toNat / 64 % 64), UInt8.ofNat (0x80 + c.toNat % 64)] := by
  simp [encodeChar, Nat.not_lt.mpr h, show ¬c.toNat < 0x80 by omega,
    show ¬c.toNat < 0x800 by omega]

end Sizes

/-! ## First bytes -/

section Lead

variable (start : Nat) {b : Nat}

theorem lead?_two (h : 0xC2 ≤ b) (h' : b < 0xE0) :
    lead? start b = some ⟨start, 1, 0, 0x80, 0xBF, b - 0xC0⟩ := by
  rw [lead?, if_neg (by omega), if_pos h']

/-- After the first of three bytes, the second is restricted in two cases. -/
theorem lead?_three (h : 0xE0 ≤ b) (h' : b < 0xF0) :
    ∃ low high, lead? start b = some ⟨start, 1, 1, low, high, b - 0xE0⟩ ∧
      ∀ x, (low ≤ x ∧ x ≤ high) ↔
        (0x80 ≤ x ∧ x ≤ 0xBF) ∧ (b = 0xE0 → 0xA0 ≤ x) ∧ (b = 0xED → x ≤ 0x9F) := by
  rw [lead?, if_neg (by omega), if_neg (by omega)]
  by_cases h₁ : b = 0xE0
  · refine ⟨0xA0, 0xBF, by rw [if_pos h₁, h₁], fun x => ?_⟩
    omega
  by_cases h₂ : b = 0xED
  · refine ⟨0x80, 0x9F, by rw [if_neg h₁, if_pos h₂, h₂], fun x => ?_⟩
    omega
  · refine ⟨0x80, 0xBF, by rw [if_neg h₁, if_neg h₂, if_pos h'], fun x => ?_⟩
    omega

/-- After the first of four bytes, the second is restricted in two cases. -/
theorem lead?_four (h : 0xF0 ≤ b) (h' : b < 0xF5) :
    ∃ low high, lead? start b = some ⟨start, 1, 2, low, high, b - 0xF0⟩ ∧
      ∀ x, (low ≤ x ∧ x ≤ high) ↔
        (0x80 ≤ x ∧ x ≤ 0xBF) ∧ (b = 0xF0 → 0x90 ≤ x) ∧ (b = 0xF4 → x ≤ 0x8F) := by
  rw [lead?, if_neg (by omega), if_neg (by omega), if_neg (by omega), if_neg (by omega),
    if_neg (by omega)]
  by_cases h₁ : b = 0xF0
  · refine ⟨0x90, 0xBF, by rw [if_pos h₁, h₁], fun x => ?_⟩
    omega
  by_cases h₂ : b < 0xF4
  · refine ⟨0x80, 0xBF, by rw [if_neg h₁, if_pos h₂], fun x => ?_⟩
    omega
  · have h₃ : b = 0xF4 := by omega
    refine ⟨0x80, 0x8F, by rw [if_neg h₁, if_neg h₂, if_pos h₃, h₃], fun x => ?_⟩
    omega

/-- No other byte is the first of several. -/
theorem lead?_eq_none (h : b < 0xC2 ∨ 0xF5 ≤ b) : lead? start b = none := by
  unfold lead?
  rcases h with h | h
  · rw [if_pos h]
  · rw [if_neg (by omega), if_neg (by omega), if_neg (by omega), if_neg (by omega),
      if_neg (by omega), if_neg (by omega), if_neg (by omega), if_neg (by omega)]

end Lead

/-! ## What follows the first byte -/

/-- The bytes that end an unfinished character, and the number of the character they make. -/
inductive Completes : Unfinished → List UInt8 → Nat → Prop where
  | last {start seen low high value n : Nat} {b : UInt8}
    (hb : low ≤ b.toNat ∧ b.toNat ≤ high) (hn : value * 64 + b.toNat % 64 = n) :
    Completes ⟨start, seen, 0, low, high, value⟩ [b] n
  | more {start seen owed low high value n : Nat} {b : UInt8} {tail : List UInt8}
    (hb : low ≤ b.toNat ∧ b.toNat ≤ high)
    (h : Completes ⟨start, seen + 1, owed, 0x80, 0xBF, value * 64 + b.toNat % 64⟩ tail n) :
    Completes ⟨start, seen, owed + 1, low, high, value⟩ (b :: tail) n

/-- Bytes that complete a character are decoded as that character. -/
theorem decodeFrom_of_completes {p : Unfinished} {tail : List UInt8} {n : Nat}
    (h : Completes p tail n) (i : Nat) (rest : List UInt8) :
    decodeFrom i (some p) (tail ++ rest) =
      (decodeFrom (i + tail.length) none rest).map (Char.ofNat n :: ·) := by
  induction h generalizing i with
  | last hb hn => simp [decodeFrom, hb, hn]
  | more hb _ ih =>
    rw [List.cons_append, decodeFrom, if_pos hb]
    simp only [ih, List.length_cons]
    rw [Nat.add_right_comm, Nat.add_assoc]

/-- No other bytes are decoded while a character is unfinished. -/
theorem completes_of_decodeFrom {i : Nat} {p : Unfinished} {bytes : List UInt8} {cs : List Char}
    (h : decodeFrom i (some p) bytes = .ok cs) :
    ∃ tail n rest j cs', bytes = tail ++ rest ∧ Completes p tail n ∧
      cs = Char.ofNat n :: cs' ∧ decodeFrom j none rest = .ok cs' := by
  induction bytes generalizing i p with
  | nil => cases h
  | cons b bytes ih =>
    obtain ⟨start, seen, owed, low, high, value⟩ := p
    unfold decodeFrom at h
    split at h
    · rename_i hb
      dsimp only at h
      cases owed with
      | zero =>
        dsimp only at h
        cases hrest : decodeFrom (i + 1) none bytes with
        | error f =>
          rw [hrest] at h
          cases h
        | ok cs' =>
          rw [hrest] at h
          cases h
          exact ⟨[b], _, bytes, i + 1, cs', rfl, .last hb rfl, rfl, hrest⟩
      | succ owed =>
        obtain ⟨tail, n, rest, j, cs', rfl, hc, rfl, hrest⟩ := ih h
        exact ⟨b :: tail, n, rest, j, cs', rfl, .more hb hc, rfl, hrest⟩
    · cases h

/-! ## Characters of several bytes -/

/-- A character is no surrogate, and not too large. -/
theorem valid_toNat (c : Char) : c.toNat < 0xD800 ∨ 0xDFFF < c.toNat ∧ c.toNat < 0x110000 :=
  c.valid

/-- The bytes of a character lead and complete. -/
theorem completes_encodeChar (start : Nat) {c : Char} (h : 0x80 ≤ c.toNat) :
    ∃ b tail p, encodeChar c = b :: tail ∧ 0x80 ≤ b.toNat ∧ lead? start b.toNat = some p ∧
      Completes p tail c.toNat := by
  have hvalid := valid_toNat c
  generalize hn : c.toNat = n at h hvalid
  by_cases h₂ : n < 0x800
  · have hb : (UInt8.ofNat (0xC0 + n / 64)).toNat = 0xC0 + n / 64 := toNat_byte (by omega)
    have hc : (UInt8.ofNat (0x80 + n % 64)).toNat = 0x80 + n % 64 := toNat_byte (by omega)
    refine ⟨_, _, _, by rw [encodeChar_two (by omega) (by omega), hn], by omega,
      lead?_two start (by omega) (by omega), ?_⟩
    exact .last (by omega) (by omega)
  by_cases h₃ : n < 0x10000
  · have hb : (UInt8.ofNat (0xE0 + n / 4096)).toNat = 0xE0 + n / 4096 := toNat_byte (by omega)
    have hc : (UInt8.ofNat (0x80 + n / 64 % 64)).toNat = 0x80 + n / 64 % 64 :=
      toNat_byte (by omega)
    have hd : (UInt8.ofNat (0x80 + n % 64)).toNat = 0x80 + n % 64 := toNat_byte (by omega)
    obtain ⟨low, high, hlead, hrange⟩ :=
      lead?_three start (b := (UInt8.ofNat (0xE0 + n / 4096)).toNat) (by omega) (by omega)
    refine ⟨_, _, _, by rw [encodeChar_three (by omega) (by omega), hn], by omega, hlead, ?_⟩
    exact .more ((hrange _).mpr (by omega)) (.last (by omega) (by omega))
  · have hb : (UInt8.ofNat (0xF0 + n / 262144)).toNat = 0xF0 + n / 262144 :=
      toNat_byte (by omega)
    have hc : (UInt8.ofNat (0x80 + n / 4096 % 64)).toNat = 0x80 + n / 4096 % 64 :=
      toNat_byte (by omega)
    have hd : (UInt8.ofNat (0x80 + n / 64 % 64)).toNat = 0x80 + n / 64 % 64 :=
      toNat_byte (by omega)
    have he : (UInt8.ofNat (0x80 + n % 64)).toNat = 0x80 + n % 64 := toNat_byte (by omega)
    obtain ⟨low, high, hlead, hrange⟩ :=
      lead?_four start (b := (UInt8.ofNat (0xF0 + n / 262144)).toNat) (by omega) (by omega)
    refine ⟨_, _, _, by rw [encodeChar_four (by omega), hn], by omega, hlead, ?_⟩
    exact .more ((hrange _).mpr (by omega))
      (.more (by omega) (.last (by omega) (by omega)))

/-- Bytes that lead and complete are those of a character.  The restrictions on the second
byte are what keeps its number out of the sizes below and out of the surrogates. -/
theorem encodeChar_of_completes {start n : Nat} {b : UInt8} {tail : List UInt8}
    {p : Unfinished} (hp : lead? start b.toNat = some p) (h : Completes p tail n) :
    encodeChar (Char.ofNat n) = b :: tail := by
  have hb := b.toNat_lt_size
  by_cases h₁ : b.toNat < 0xC2 ∨ 0xF5 ≤ b.toNat
  · rw [lead?_eq_none start h₁] at hp
    cases hp
  by_cases h₂ : b.toNat < 0xE0
  · rw [lead?_two start (by omega) h₂] at hp
    cases hp
    cases h with
    | last hc hn =>
      have hnat := toNat_ofNat_char (n := n) (.inl (by omega))
      rw [encodeChar_two (by omega) (by omega), hnat]
      simp only [List.cons.injEq, and_true]
      exact ⟨byte_eq (by omega), byte_eq (by omega)⟩
  by_cases h₃ : b.toNat < 0xF0
  · obtain ⟨low, high, hlead, hrange⟩ := lead?_three start (Nat.le_of_not_lt h₂) h₃
    rw [hlead] at hp
    cases hp
    cases h with
    | more hc h =>
      rw [hrange] at hc
      cases h with
      | last hd hn =>
        have hnat := toNat_ofNat_char (n := n) (by unfold Nat.isValidChar; omega)
        rw [encodeChar_three (by omega) (by omega), hnat]
        simp only [List.cons.injEq, and_true]
        exact ⟨byte_eq (by omega), byte_eq (by omega), byte_eq (by omega)⟩
  · obtain ⟨low, high, hlead, hrange⟩ :=
      lead?_four start (b := b.toNat) (by omega) (by omega)
    rw [hlead] at hp
    cases hp
    cases h with
    | more hc h =>
      rw [hrange] at hc
      cases h with
      | more hd h =>
        cases h with
        | last he hn =>
          have hnat := toNat_ofNat_char (n := n) (by unfold Nat.isValidChar; omega)
          rw [encodeChar_four (by omega), hnat]
          simp only [List.cons.injEq, and_true]
          exact ⟨byte_eq (by omega), byte_eq (by omega), byte_eq (by omega), byte_eq (by omega)⟩

/-! ## Texts -/

/-- A character in front is decoded from its bytes. -/
theorem decodeFrom_encodeChar (c : Char) (i : Nat) (rest : List UInt8) :
    decodeFrom i none (encodeChar c ++ rest) =
      (decodeFrom (i + (encodeChar c).length) none rest).map (c :: ·) := by
  by_cases h : c.toNat < 0x80
  · have hb : (UInt8.ofNat c.toNat).toNat = c.toNat := toNat_byte (by omega)
    rw [encodeChar_one h, List.singleton_append, decodeFrom, if_pos (by omega), hb,
      Char.ofNat_toNat]
    rfl
  · obtain ⟨b, tail, p, hcode, hb, hlead, hc⟩ := completes_encodeChar i (Nat.le_of_not_lt h)
    rw [hcode, List.cons_append, decodeFrom, if_neg (by omega), hlead]
    dsimp only
    rw [decodeFrom_of_completes hc, Char.ofNat_toNat, List.length_cons]
    rw [Nat.add_right_comm, Nat.add_assoc]

theorem decodeFrom_flatMap (cs : List Char) (i : Nat) :
    decodeFrom i none (cs.flatMap encodeChar) = .ok cs := by
  induction cs generalizing i with
  | nil => rfl
  | cons c cs ih =>
    rw [List.flatMap_cons, decodeFrom_encodeChar, ih]
    rfl

/-- **Text is read back from its bytes.** -/
theorem decode_encode (s : String) : decode (encode s) = .ok s := by
  rw [decode, encode, decodeFrom_flatMap]
  simp only [Except.map, String.ofList_toList]

/-- The bytes of the characters that were decoded are the bytes that were given. -/
theorem flatMap_of_decodeFrom {i : Nat} {bytes : List UInt8} {cs : List Char}
    (h : decodeFrom i none bytes = .ok cs) : cs.flatMap encodeChar = bytes := by
  match bytes with
  | [] =>
    cases h
    rfl
  | b :: bytes =>
    unfold decodeFrom at h
    split at h
    · rename_i hb
      cases hrest : decodeFrom (i + 1) none bytes with
      | error f =>
        rw [hrest] at h
        cases h
      | ok cs' =>
        rw [hrest] at h
        cases h
        have hnat := toNat_ofNat_char (n := b.toNat) (.inl (by omega))
        rw [List.flatMap_cons, encodeChar_one (by omega), hnat, UInt8.ofNat_toNat,
          flatMap_of_decodeFrom hrest]
        rfl
    · split at h
      · rename_i p hp
        obtain ⟨tail, n, rest, j, cs', rfl, hc, rfl, hrest⟩ := completes_of_decodeFrom h
        rw [List.flatMap_cons, encodeChar_of_completes hp hc, flatMap_of_decodeFrom hrest]
        rfl
      · cases h
termination_by bytes.length

/-- **Bytes that are text are the bytes of that text.** -/
theorem encode_of_decode {bytes : List UInt8} {s : String} (h : decode bytes = .ok s) :
    encode s = bytes := by
  unfold decode at h
  cases hcs : decodeFrom 0 none bytes with
  | error f =>
    rw [hcs] at h
    cases h
  | ok cs =>
    rw [hcs] at h
    cases h
    rw [encode, String.toList_ofList, flatMap_of_decodeFrom hcs]

end Utf8
end RpnCalculator
