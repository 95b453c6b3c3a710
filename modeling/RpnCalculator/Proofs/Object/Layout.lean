import RpnCalculator.Proofs.Object.Payload

/-!
# The format of a payload

`Layout v bytes` says that some bytes are a payload of a value, without saying how they are
made.  A number of fixed size is known by the number that its bytes stand for; a text and a
sequence have their length in front of them, in eight bytes; an integer is a sign byte and the
sequence of its digits in base `2 ^ 32`, the last of which is not zero.

There is one payload for each value, and it is the one that is written (`layout_iff`).  Lengths
and counts have to fit into eight bytes for that, and those of a payload do when the payload
itself is not longer.
-/

namespace RpnCalculator

namespace StoredObject

/-! ## Fields -/

/-- A number in as many bytes as are given, least byte first. -/
structure IsNumber (size n : Nat) (bytes : List UInt8) : Prop where
  length : bytes.length = size
  value : littleEndian bytes = n

/-- Two values, one after the other. -/
inductive IsPair {α β : Type} (R : α → List UInt8 → Prop) (S : β → List UInt8 → Prop) :
    α × β → List UInt8 → Prop where
  | mk {a : α} {b : β} {part part' : List UInt8} (hfst : R a part) (hsnd : S b part') :
    IsPair R S (a, b) (part ++ part')

/-- A sequence is the pair of a count and the parts of its items. -/
abbrev IsSequence {α : Type} (R : α → List UInt8 → Prop) (as : List α) : List UInt8 → Prop :=
  IsPair (IsNumber 8) (Reader.Parts R) (as.length, as)

/-- A text is the pair of a length and its bytes. -/
abbrev IsText (s : String) : List UInt8 → Prop :=
  IsPair (IsNumber 8) (fun s bytes => bytes = Utf8.encode s) ((Utf8.encode s).length, s)

/-- The sign of an integer as a byte. -/
def IsSign (n : Int) (b : UInt8) : Prop :=
  (n = 0 → b = 0) ∧ (0 < n → b = 1) ∧ (n < 0 → b = 255)

/-- The sign of an integer and its digits. -/
inductive IsInteger : Int → List UInt8 → Prop where
  | mk {n : Int} {sign : UInt8} {ds : List Nat} {part : List UInt8} (hsign : IsSign n sign)
    (hdigits : Reader.ofDigits ds = n.natAbs) (hlast : ds.getLast? ≠ some 0)
    (hpart : IsSequence (IsNumber 4) ds part) : IsInteger n (sign :: part)

/-! ## Values -/

mutual

/-- The index of the kind of a value, and what the value holds. -/
inductive Layout : Value → List UInt8 → Prop where
  | mk {v : Value} {index part : List UInt8} (hindex : IsNumber 4 v.kind.index index)
    (hpart : Content v part) : Layout v (index ++ part)

/-- What a value holds, without its index. -/
inductive Content : Value → List UInt8 → Prop where
  | binary {bits : UInt32} {part : List UInt8} (h : IsNumber 4 bits.toNat part) :
    Content (.binary bits) part
  | complex {z : Complex} {re im : List UInt8} (hre : IsNumber 8 z.re.bits.toNat re)
    (him : IsNumber 8 z.im.bits.toNat im) : Content (.complex z) (re ++ im)
  | directory {entries : List (String × Value)} {part : List UInt8}
    (h : IsPair (IsNumber 8) (Reader.Parts (IsPair IsText Layout))
      (entries.length, entries) part) : Content (.directory entries) part
  | float {x : Double} {part : List UInt8} (h : IsNumber 8 x.bits.toNat part) :
    Content (.float x) part
  | integer {n : Int} {part : List UInt8} (h : IsInteger n part) : Content (.integer n) part
  | labeled {label : String} {v : Value} {part part' : List UInt8} (hlabel : IsText label part)
    (hv : Layout v part') : Content (.labeled label v) (part ++ part')
  | list {items : List Value} {part : List UInt8}
    (h : IsPair (IsNumber 8) (Reader.Parts Layout) (items.length, items) part) :
    Content (.list items) part
  | matrix {rows : List (List Value)} {part : List UInt8}
    (h : IsPair (IsNumber 8) (Reader.Parts fun row =>
      IsPair (IsNumber 8) (Reader.Parts Layout) (row.length, row)) (rows.length, rows) part) :
    Content (.matrix rows) part
  | program {s : String} {part : List UInt8} (h : IsText s part) : Content (.program s) part
  | rational {q : Fraction} {num den : List UInt8} (hnum : IsInteger q.num num)
    (hden : IsInteger q.den den) : Content (.rational q) (num ++ den)
  | string {s : String} {part : List UInt8} (h : IsText s part) : Content (.string s) part
  | vector {items : List Value} {part : List UInt8}
    (h : IsPair (IsNumber 8) (Reader.Parts Layout) (items.length, items) part) :
    Content (.vector items) part

end

/-! ## There is one payload -/

/-- The bytes that are said to be something are these bytes. -/
def Determines (R : List UInt8 → Prop) (part : List UInt8) : Prop :=
  ∀ bytes, R bytes ↔ bytes = part

theorem littleEndian_lt (bytes : List UInt8) : littleEndian bytes < 256 ^ bytes.length := by
  induction bytes with
  | nil => decide
  | cons b bytes ih =>
    have hb := b.toNat_lt
    rw [littleEndian, List.length_cons, Nat.pow_succ]
    omega

/-- Bytes are written as they are for the number that they stand for. -/
theorem number_littleEndian (bytes : List UInt8) :
    number bytes.length (littleEndian bytes) = bytes := by
  induction bytes with
  | nil => rfl
  | cons b bytes ih => rw [littleEndian, List.length_cons, number_add_mul, ih]

theorem isNumber_iff {size n : Nat} {bytes : List UInt8} :
    IsNumber size n bytes ↔ n < 256 ^ size ∧ bytes = number size n := by
  constructor
  · rintro ⟨rfl, rfl⟩
    exact ⟨littleEndian_lt bytes, (number_littleEndian bytes).symm⟩
  · rintro ⟨hn, rfl⟩
    exact ⟨length_number size n, littleEndian_number hn⟩

theorem determines_number {size n : Nat} (h : n < 256 ^ size) :
    Determines (IsNumber size n) (number size n) :=
  fun _ => isNumber_iff.trans (and_iff_right h)

section

variable {α β : Type} {R : α → List UInt8 → Prop} {S : β → List UInt8 → Prop}

theorem determines_pair {a : α} {b : β} {part part' : List UInt8} (h : Determines (R a) part)
    (h' : Determines (S b) part') : Determines (IsPair R S (a, b)) (part ++ part') := by
  intro bytes
  constructor
  · intro hpair
    cases hpair with
    | mk hfst hsnd => rw [(h _).mp hfst, (h' _).mp hsnd]
  · rintro rfl
    exact .mk ((h _).mpr rfl) ((h' _).mpr rfl)

/-- Parts that are determined one by one are determined together. -/
theorem determines_parts {part : α → List UInt8} {as : List α}
    (h : ∀ a ∈ as, Determines (R a) (part a)) :
    Determines (Reader.Parts R as) (as.flatMap part) := by
  induction as with
  | nil =>
    intro bytes
    constructor
    · intro hparts
      cases hparts
      rfl
    · rintro rfl
      exact .nil
  | cons a as ih =>
    rw [List.forall_mem_cons] at h
    intro bytes
    constructor
    · intro hparts
      cases hparts with
      | cons ha has => rw [(h.1 _).mp ha, (ih h.2 _).mp has, List.flatMap_cons]
    · rintro rfl
      exact .cons ((h.1 _).mpr rfl) ((ih h.2 _).mpr rfl)

theorem determines_sequence {part : α → List UInt8} {as : List α} (hlen : as.length < 256 ^ 8)
    (h : ∀ a ∈ as, Determines (R a) (part a)) :
    Determines (IsSequence R as) (sequencePayload part as) :=
  determines_pair (determines_number hlen) (determines_parts h)

end

theorem determines_text {s : String} (h : (Utf8.encode s).length < 256 ^ 8) :
    Determines (IsText s) (text s) :=
  determines_pair (determines_number h) fun _ => Iff.rfl

/-! ## Integers -/

/-- The last digit is not zero. -/
theorem getLast?_digits (n : Nat) : (digits n).getLast? ≠ some 0 := by
  unfold digits
  split
  · simp
  · rename_i h
    rw [List.getLast?_cons]
    have ih := getLast?_digits (n / digitBase)
    cases hlast : (digits (n / digitBase)).getLast? with
    | none =>
      -- the only digit is the number itself
      have hnil : n / digitBase = 0 := by
        have hvalue := ofDigits_digits (n / digitBase)
        rw [List.getLast?_eq_none_iff.mp hlast] at hvalue
        exact hvalue.symm
      have hmod := Nat.mod_add_div n digitBase
      rw [hnil, Nat.mul_zero, Nat.add_zero] at hmod
      rw [hmod]
      simpa using h
    | some d =>
      rw [hlast] at ih
      simpa using ih
termination_by n
decreasing_by exact Nat.div_lt_self (by omega) (by decide)

/-- Digits that do not end in zero are those of their number. -/
theorem digits_ofDigits {ds : List Nat} (h : ∀ d ∈ ds, d < digitBase)
    (hlast : ds.getLast? ≠ some 0) : digits (Reader.ofDigits ds) = ds := by
  induction ds with
  | nil =>
    unfold Reader.ofDigits digits
    rfl
  | cons d ds ih =>
    rw [List.forall_mem_cons] at h
    have hdiv : (d + digitBase * Reader.ofDigits ds) / digitBase = Reader.ofDigits ds := by
      rw [Nat.add_mul_div_left _ _ (by decide), Nat.div_eq_of_lt h.1, Nat.zero_add]
    have hmod : (d + digitBase * Reader.ofDigits ds) % digitBase = d := by
      rw [Nat.add_mul_mod_self_left, Nat.mod_eq_of_lt h.1]
    have hrest : digits (Reader.ofDigits ds) = ds := by
      refine ih h.2 fun hzero => hlast ?_
      rw [List.getLast?_cons, hzero]
      rfl
    have hne : d + digitBase * Reader.ofDigits ds ≠ 0 := by
      intro hzero
      have hds : Reader.ofDigits ds = 0 := by
        rw [← hdiv, hzero]
        rfl
      rw [hds] at hrest
      rw [hds, Nat.mul_zero, Nat.add_zero] at hzero
      have hnil : ds = [] := by
        rw [← hrest]
        unfold digits
        rfl
      rw [hzero, hnil] at hlast
      exact hlast rfl
    unfold Reader.ofDigits digits
    rw [if_neg hne, hdiv, hmod, hrest]

theorem isSign_iff {n : Int} {b : UInt8} : IsSign n b ↔ b = signByte n := by
  unfold IsSign signByte
  rcases Int.lt_trichotomy n 0 with h | h | h
  · simp [h, Int.ne_of_lt h, Int.lt_asymm h]
  · simp [h]
  · simp [h, (Int.ne_of_lt h).symm, Int.lt_asymm h]

theorem determines_integer {n : Int} (h : (digits n.natAbs).length < 256 ^ 8) :
    Determines (IsInteger n) (integer n) := by
  have hseq {ds : List Nat} (hlen : ds.length < 256 ^ 8) (hlt : ∀ d ∈ ds, d < digitBase) :
      Determines (IsSequence (IsNumber 4) ds) (sequencePayload (number 4) ds) :=
    determines_sequence hlen fun d hd => determines_number (hlt d hd)
  intro bytes
  constructor
  · intro hn
    cases hn with
    | @mk sign ds part hsign hdigits hlast hpart =>
      have hpart' := hpart
      cases hpart' with
      | mk hcount hparts =>
        have hlt : ∀ d ∈ ds, d < digitBase := by
          intro d hd
          obtain ⟨p, hp⟩ := hparts.exists_of_mem hd
          exact (isNumber_iff.mp hp).1
        have hds : digits n.natAbs = ds := by rw [← hdigits, digits_ofDigits hlt hlast]
        rw [(hseq (isNumber_iff.mp hcount).1 hlt _).mp hpart, isSign_iff.mp hsign, integer, hds]
        rfl
  · rintro rfl
    have hlt : ∀ d ∈ digits n.natAbs, d < digitBase := fun d hd => lt_of_mem_digits hd
    exact .mk (isSign_iff.mpr rfl) (ofDigits_digits _) (getLast?_digits _) ((hseq h hlt _).mpr rfl)

/-! ## Values -/

/-- It is enough to determine what comes after the index. -/
theorem determines_layout {v : Value}
    (h : (contentPayload v).length < 256 ^ 8 → Determines (Content v) (contentPayload v))
    (hlen : (payload v).length < 256 ^ 8) : Determines (Layout v) (payload v) := by
  have hindex : v.kind.index < 256 ^ 4 := by cases v.kind <;> decide
  rw [length_payload] at hlen
  have hcontent := h (by omega)
  rw [payload_eq]
  intro bytes
  constructor
  · intro hlayout
    cases hlayout with
    | mk hnumber hpart => rw [(determines_number hindex _).mp hnumber, (hcontent _).mp hpart]
  · rintro rfl
    exact .mk ((determines_number hindex _).mpr rfl) ((hcontent _).mpr rfl)

theorem determines_items {items : List Value}
    (ih : ∀ v ∈ items, (payload v).length < 256 ^ 8 → Determines (Layout v) (payload v))
    (hlen : (sequencePayload payload items).length < 256 ^ 8) :
    Determines (IsSequence Layout items) (sequencePayload payload items) := by
  refine determines_sequence (length_lt_of_payload hlen) ?_
  intro v hv
  have hpart := length_part_lt payload hv
  exact ih v hv (by omega)

/-- **The payload of a value is what is written, and nothing else.** -/
theorem layout_iff {v : Value} (hlen : (payload v).length < 256 ^ 8) :
    Determines (Layout v) (payload v) := by
  induction v with
  | binary bits =>
    refine determines_layout (fun _ bytes => ?_) hlen
    exact Iff.trans ⟨fun h => by cases h with | binary h => exact h, .binary⟩
      (determines_number bits.toNat_lt bytes)
  | complex z =>
    refine determines_layout (fun _ bytes => ?_) hlen
    have hdouble (x : Double) : Determines (IsNumber 8 x.bits.toNat) (double x) :=
      determines_number x.bits.toNat_lt
    have hpair := determines_pair (hdouble z.re) (hdouble z.im)
    exact Iff.trans
      ⟨fun h => by cases h with | complex hre him => exact .mk hre him,
        fun h => by cases h with | mk hre him => exact .complex hre him⟩
      (hpair bytes)
  | float x =>
    refine determines_layout (fun _ bytes => ?_) hlen
    exact Iff.trans ⟨fun h => by cases h with | float h => exact h, .float⟩
      (determines_number x.bits.toNat_lt bytes)
  | integer n =>
    refine determines_layout (fun hpart bytes => ?_) hlen
    rw [contentPayload, length_integer] at hpart
    exact Iff.trans ⟨fun h => by cases h with | integer h => exact h, .integer⟩
      (determines_integer (by omega) bytes)
  | rational q =>
    refine determines_layout (fun hpart bytes => ?_) hlen
    rw [contentPayload, List.length_append, length_integer, length_integer] at hpart
    have hnum : Determines (IsInteger q.num) (integer q.num) := determines_integer (by omega)
    have hden : Determines (IsInteger q.den) (integer q.den) := determines_integer (by omega)
    exact Iff.trans
      ⟨fun h => by cases h with | rational hnum hden => exact .mk hnum hden,
        fun h => by cases h with | mk hnum hden => exact .rational hnum hden⟩
      (determines_pair hnum hden bytes)
  | program s =>
    refine determines_layout (fun hpart bytes => ?_) hlen
    rw [contentPayload, length_text] at hpart
    exact Iff.trans ⟨fun h => by cases h with | program h => exact h, .program⟩
      (determines_text (by omega) bytes)
  | string s =>
    refine determines_layout (fun hpart bytes => ?_) hlen
    rw [contentPayload, length_text] at hpart
    exact Iff.trans ⟨fun h => by cases h with | string h => exact h, .string⟩
      (determines_text (by omega) bytes)
  | labeled label v ih =>
    refine determines_layout (fun hpart bytes => ?_) hlen
    rw [contentPayload, List.length_append, length_text] at hpart
    have hlabel : Determines (IsText label) (text label) := determines_text (by omega)
    have hv : Determines (Layout v) (payload v) := ih (by omega)
    exact Iff.trans
      ⟨fun h => by cases h with | labeled hlabel hv => exact .mk hlabel hv,
        fun h => by cases h with | mk hlabel hv => exact .labeled hlabel hv⟩
      (determines_pair hlabel hv bytes)
  | list items ih =>
    refine determines_layout (fun hpart bytes => ?_) hlen
    exact Iff.trans ⟨fun h => by cases h with | list h => exact h, .list⟩
      (determines_items ih hpart bytes)
  | vector items ih =>
    refine determines_layout (fun hpart bytes => ?_) hlen
    exact Iff.trans ⟨fun h => by cases h with | vector h => exact h, .vector⟩
      (determines_items ih hpart bytes)
  | matrix rows ih =>
    refine determines_layout (fun hpart bytes => ?_) hlen
    rw [contentPayload] at hpart
    have hrow (row : List Value) (hrow : row ∈ rows) :
        Determines (IsSequence Layout row) (sequencePayload payload row) := by
      have hlt := length_part_lt (sequencePayload payload) hrow
      exact determines_items (ih row hrow) (by omega)
    have hrows := determines_sequence (length_lt_of_rows hpart) hrow
    exact Iff.trans ⟨fun h => by cases h with | matrix h => exact h, .matrix⟩
      (hrows bytes)
  | directory entries ih =>
    refine determines_layout (fun hpart bytes => ?_) hlen
    rw [contentPayload] at hpart
    have hentry (e : String × Value) (he : e ∈ entries) :
        Determines (IsPair IsText Layout e) (entryPayload e) := by
      have hlt := length_part_lt entryPayload he
      rw [length_entryPayload] at hlt
      exact determines_pair (determines_text (by omega)) (ih e he (by omega))
    have hentries := determines_sequence (length_lt_of_entries hpart) hentry
    exact Iff.trans ⟨fun h => by cases h with | directory h => exact h, .directory⟩
      (hentries bytes)

end StoredObject

end RpnCalculator
