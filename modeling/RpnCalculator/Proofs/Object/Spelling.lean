import RpnCalculator.Proofs.Object.Rejection

/-!
# Spellings of a payload

A value has one payload, the one that is written for it.  The reader accepts others.
`Spelling v bytes` says what it takes for the value, again without saying how it is read.  It
differs from `Layout` in two places, and in no other.

* The digits of an integer may end in zeros, and an integer that is zero may have any of the
  three signs; behind the sign of zero, any digits do.
* The entries of a directory may come in any order and may repeat a name, of which the last
  one counts.

Both places can lie deep in a value, and the entries that do not count are nowhere in the value
at all.  So what is read from a spelling is not shown by induction on the value but on the depth
that the reader is given, which is never smaller than the number of bytes (`gives_spelling`).

## Objects

From this it is read off what an object is that is accepted: a header, a spelling, and possibly
bytes behind it (`accepts_spellings`).  It is the object that is written for its value just if
it has the layout of that value.
-/

namespace RpnCalculator

namespace StoredObject

/-! ## What is a spelling -/

/-- A sign and digits, of which the last ones may be zeros. -/
inductive SpellsInteger : Int → List UInt8 → Prop where
  | zero {ds : List Nat} {part : List UInt8} (h : IsSequence (IsNumber 4) ds part) :
    SpellsInteger 0 (0 :: part)
  | plus {ds : List Nat} {part : List UInt8} (h : IsSequence (IsNumber 4) ds part) :
    SpellsInteger (Reader.ofDigits ds) (1 :: part)
  | minus {ds : List Nat} {part : List UInt8} (h : IsSequence (IsNumber 4) ds part) :
    SpellsInteger (-(Reader.ofDigits ds : Int)) (255 :: part)

/-- Two integers, of which the second is not zero. -/
inductive SpellsFraction : Fraction → List UInt8 → Prop where
  | mk {q : Fraction} {num den : List UInt8} (hnum : SpellsInteger q.num num)
    (hden : SpellsInteger q.den den) (hzero : q.den ≠ 0) : SpellsFraction q (num ++ den)

/-- The names of a directory are in order, and under each name is the last entry of some. -/
structure Collects (named : List (String × Value)) (d : Directory Value) : Prop where
  ascending : d.Ascending
  find? (name : String) : d.find? name = Directory.find? name named.reverse

/-- The kinds of what has a single spelling. -/
def plainKinds : List Kind := [.binary, .complex, .float, .program, .string]

mutual

/-- The index of the kind of a value, and what the value holds. -/
inductive Spelling : Value → List UInt8 → Prop where
  | mk {v : Value} {index part : List UInt8} (hindex : IsNumber 4 v.kind.index index)
    (hpart : SpelledContent v part) : Spelling v (index ++ part)

/-- What a value holds, without its index. -/
inductive SpelledContent : Value → List UInt8 → Prop where
  | plain {v : Value} {part : List UInt8} (hkind : v.kind ∈ plainKinds) (h : Content v part) :
    SpelledContent v part
  | integer {n : Int} {part : List UInt8} (h : SpellsInteger n part) :
    SpelledContent (.integer n) part
  | rational {q : Fraction} {part : List UInt8} (h : SpellsFraction q part) :
    SpelledContent (.rational q) part
  | labeled {label : String} {v : Value} {part part' : List UInt8} (hlabel : IsText label part)
    (hv : Spelling v part') : SpelledContent (.labeled label v) (part ++ part')
  | list {items : List Value} {part : List UInt8}
    (h : IsPair (IsNumber 8) (Reader.Parts Spelling) (items.length, items) part) :
    SpelledContent (.list items) part
  | vector {items : List Value} {part : List UInt8}
    (h : IsPair (IsNumber 8) (Reader.Parts Spelling) (items.length, items) part) :
    SpelledContent (.vector items) part
  | matrix {rows : List (List Value)} {part : List UInt8}
    (h : IsPair (IsNumber 8) (Reader.Parts fun row =>
      IsPair (IsNumber 8) (Reader.Parts Spelling) (row.length, row)) (rows.length, rows) part) :
    SpelledContent (.matrix rows) part
  | directory {named entries : List (String × Value)} {part : List UInt8}
    (h : IsPair (IsNumber 8) (Reader.Parts (IsPair IsText Spelling)) (named.length, named) part)
    (hentries : Collects named entries) : SpelledContent (.directory entries) part

end

theorem collects_iff {named : List (String × Value)} {d : Directory Value} :
    Collects named d ↔ d = Directory.ofList named := by
  have hascending := Directory.ascending_ofList named
  constructor
  · intro h
    refine h.ascending.ext hascending fun name => ?_
    rw [h.find?, Directory.find?_ofList]
  · rintro rfl
    exact ⟨hascending, fun name => Directory.find?_ofList name named⟩

namespace Reader

variable {α : Type} {R : α → List UInt8 → Prop} {r : Reader α}

/-! ## What is taken is a spelling -/

theorem takes_isNumber (size : Nat) : Takes (IsNumber size) (number size) :=
  (takes_number size).imp fun _ _ h => isNumber_iff.mpr h

theorem takes_isDouble : Takes (fun x => IsNumber 8 x.bits.toNat) double :=
  takes_double.imp fun x _ hpart => isNumber_iff.mpr ⟨x.bits.toNat_lt, hpart⟩

theorem takes_isText : Takes IsText text :=
  takes_text_lt.imp fun _ part h => (determines_text h.1 part).mpr h.2

/-- A count and as many parts. -/
theorem takes_isSequence (h : Takes R r) : Takes (IsSequence R) (sequence r) := by
  refine (takes_isNumber 8).bind fun n part hpart => (h.times n).imp fun as parts hparts => ?_
  obtain ⟨rfl, hparts⟩ := hparts
  exact .mk hpart hparts

theorem takes_spelledInteger : Takes SpellsInteger integer := by
  refine takes_byte.bind fun sign part hpart => ?_
  split
  · rename_i hsign
    refine (takes_isNumber 8).bind fun k part' hk => ?_
    refine ((takes_isNumber 4).times k).bind fun ds parts hparts => Takes.pure ?_
    obtain ⟨rfl, hparts⟩ := hparts
    have hdigits : IsSequence (IsNumber 4) ds (part' ++ parts) := .mk hk hparts
    rw [hpart, List.append_nil, List.singleton_append]
    rcases hsign with rfl | rfl | rfl
    · exact .zero hdigits
    · exact .plus hdigits
    · exact .minus hdigits
  · exact Takes.fail _

theorem takes_spelledFraction : Takes SpellsFraction fraction := by
  refine takes_spelledInteger.bind fun num part hnum =>
    takes_spelledInteger.bind fun den part' hden => ?_
  split
  · exact Takes.fail _
  · rename_i hzero
    refine Takes.pure ?_
    rw [List.append_nil]
    exact .mk hnum hden hzero

theorem takes_spelledEntry {r : Reader Value} (h : Takes Spelling r) :
    Takes (IsPair IsText Spelling) (entry r) := by
  refine takes_isText.bind fun name part hname => h.bind fun v part' hv => Takes.pure ?_
  rw [List.append_nil]
  exact .mk hname hv

theorem takes_spelledContent {r : Reader Value} (h : Takes Spelling r) (kind : Kind) :
    Takes (fun v part => v.kind = kind ∧ SpelledContent v part) (content r kind) := by
  cases kind with
  | binary =>
    refine (takes_isNumber 4).bind fun n part hn =>
      Takes.pure ⟨rfl, .plain (by simp [Value.kind, plainKinds]) ?_⟩
    have hlt : n < 2 ^ 32 := (isNumber_iff.mp hn).1
    rw [List.append_nil]
    refine .binary ?_
    rwa [UInt32.toNat_ofNat_of_lt' hlt]
  | complex =>
    refine takes_isDouble.bind fun re part hre => takes_isDouble.bind fun im part' him =>
      Takes.pure ⟨rfl, .plain (by simp [Value.kind, plainKinds]) ?_⟩
    rw [List.append_nil]
    exact .complex hre him
  | float =>
    refine takes_isDouble.bind fun x part hx =>
      Takes.pure ⟨rfl, .plain (by simp [Value.kind, plainKinds]) ?_⟩
    rw [List.append_nil]
    exact .float hx
  | integer =>
    refine takes_spelledInteger.bind fun n part hn => Takes.pure ⟨rfl, ?_⟩
    rw [List.append_nil]
    exact .integer hn
  | rational =>
    refine takes_spelledFraction.bind fun q part hq => Takes.pure ⟨rfl, ?_⟩
    rw [List.append_nil]
    exact .rational hq
  | program =>
    refine takes_isText.bind fun s part hs =>
      Takes.pure ⟨rfl, .plain (by simp [Value.kind, plainKinds]) ?_⟩
    rw [List.append_nil]
    exact .program hs
  | string =>
    refine takes_isText.bind fun s part hs =>
      Takes.pure ⟨rfl, .plain (by simp [Value.kind, plainKinds]) ?_⟩
    rw [List.append_nil]
    exact .string hs
  | labeled =>
    refine takes_isText.bind fun label part hlabel => h.bind fun v part' hv =>
      Takes.pure ⟨rfl, ?_⟩
    rw [List.append_nil]
    exact .labeled hlabel hv
  | list =>
    refine (takes_isSequence h).bind fun items part hitems => Takes.pure ⟨rfl, ?_⟩
    rw [List.append_nil]
    exact .list hitems
  | vector =>
    refine (takes_isSequence h).bind fun items part hitems => Takes.pure ⟨rfl, ?_⟩
    rw [List.append_nil]
    exact .vector hitems
  | matrix =>
    refine (takes_isSequence (takes_isSequence h)).bind fun rows part hrows =>
      Takes.pure ⟨rfl, ?_⟩
    rw [List.append_nil]
    exact .matrix hrows
  | directory =>
    refine (takes_isSequence (takes_spelledEntry h)).bind fun named part hnamed =>
      Takes.pure ⟨rfl, ?_⟩
    rw [List.append_nil]
    exact .directory hnamed (collects_iff.mpr rfl)

/-- **What is read is spelt by what it was read from.** -/
theorem takes_spelling (depth : Nat) : Takes Spelling (value depth) := by
  induction depth with
  | zero => exact Takes.fail _
  | succ depth ih =>
    refine (takes_isNumber 4).bind fun index part hindex => ?_
    split
    · exact Takes.fail _
    · rename_i kind hkind
      refine (takes_spelledContent ih kind).imp fun v part' hv => ?_
      obtain ⟨rfl, hcontent⟩ := hv
      rw [Kind.eq_index_of_ofIndex? hkind] at hindex
      exact .mk hindex hcontent

/-! ## What is a spelling is taken -/

theorem gives_isNumber {size n : Nat} {part : List UInt8} (h : IsNumber size n part) :
    Gives True (number size) n part := by
  obtain ⟨hn, rfl⟩ := isNumber_iff.mp h
  exact gives_number hn

theorem gives_isDouble {x : Double} {part : List UInt8} (h : IsNumber 8 x.bits.toNat part) :
    Gives True double x part := by
  obtain ⟨-, rfl⟩ := isNumber_iff.mp h
  exact gives_double x

theorem gives_isText {s : String} {part : List UInt8} (h : IsText s part) :
    Gives True text s part := by
  cases h with
  | mk hlen hbytes =>
    obtain ⟨hlt, rfl⟩ := isNumber_iff.mp hlen
    rw [hbytes]
    exact gives_text hlt

/-- Parts that are given back one by one are given back together. -/
theorem gives_parts {bound : Nat}
    (h : ∀ a part, part.length ≤ bound → R a part → Gives True r a part) {as : List α}
    {parts : List UInt8} (hparts : Parts R as parts) (hlen : parts.length ≤ bound) :
    Gives True (times r as.length) as parts := by
  induction hparts with
  | nil => exact Gives.pure []
  | cons ha _ ih =>
    rw [List.length_append] at hlen
    exact (h _ _ (by omega) ha).andThen (ih (by omega)).map

theorem gives_isSequence {bound : Nat}
    (h : ∀ a part, part.length ≤ bound → R a part → Gives True r a part) {as : List α}
    {part : List UInt8} (hseq : IsSequence R as part) (hlen : part.length ≤ bound) :
    Gives True (sequence r) as part := by
  cases hseq with
  | mk hcount hparts =>
    rw [List.length_append] at hlen
    exact (gives_isNumber hcount).andThen (gives_parts h hparts (by omega))

/-- A sign is followed by digits, whichever they are. -/
theorem gives_signed {sign : UInt8} (hsign : sign = 0 ∨ sign = 1 ∨ sign = 255) {ds : List Nat}
    {part : List UInt8} (h : IsSequence (IsNumber 4) ds part) :
    Gives True integer (if sign = 0 then 0 else if sign = 1 then (ofDigits ds : Int)
      else -(ofDigits ds : Int)) (sign :: part) := by
  cases h with
  | mk hcount hparts =>
    refine (gives_byte sign).andThen ?_
    rw [if_pos hsign]
    refine (gives_isNumber hcount).andThen ?_
    exact (gives_parts (fun _ _ _ hd => gives_isNumber hd) hparts (Nat.le_refl _)).map

theorem gives_spelledInteger {n : Int} {part : List UInt8} (h : SpellsInteger n part) :
    Gives True integer n part := by
  cases h with
  | zero h => exact gives_signed (.inl rfl) h
  | plus h => exact gives_signed (.inr (.inl rfl)) h
  | minus h => exact gives_signed (.inr (.inr rfl)) h

theorem gives_spelledFraction {q : Fraction} {part : List UInt8} (h : SpellsFraction q part) :
    Gives True fraction q part := by
  cases h with
  | @mk num den hnum hden hzero =>
    refine (gives_spelledInteger hnum).andThen ?_
    have key : Gives True (integer >>= fun d =>
        if d = 0 then fail .zeroDenominator else pure ⟨q.num, d⟩) q (den ++ []) := by
      refine (gives_spelledInteger hden).andThen ?_
      rw [if_neg hzero]
      exact Gives.pure q
    rwa [List.append_nil] at key

/-- What has a single spelling is read as it would be without anything in it. -/
theorem gives_plain {v : Value} {part : List UInt8} (r : Reader Value)
    (hkind : v.kind ∈ plainKinds) (h : Content v part) : Gives True (content r v.kind) v part := by
  cases h with
  | @binary bits _ h =>
    have key := (gives_isNumber h).map (f := fun n => Value.binary (.ofNat n))
    rwa [UInt32.ofNat_toNat] at key
  | complex hre him => exact (gives_isDouble hre).andThen (gives_isDouble him).map
  | float h => exact (gives_isDouble h).map
  | program h => exact (gives_isText h).map
  | string h => exact (gives_isText h).map
  | integer | rational | labeled | list | vector | matrix | directory =>
    simp [plainKinds, Value.kind] at hkind

/-- A name and a value are given back if values of this length are. -/
theorem gives_spelledEntry {r : Reader Value} {bound : Nat}
    (h : ∀ v part, part.length ≤ bound → Spelling v part → Gives True r v part)
    (e : String × Value) (part : List UInt8) (hlen : part.length ≤ bound)
    (he : IsPair IsText Spelling e part) : Gives True (entry r) e part := by
  cases he with
  | mk hname hv =>
    rw [List.length_append] at hlen
    exact (gives_isText hname).andThen (h _ _ (by omega) hv).map

theorem gives_spelledContent {r : Reader Value} {bound : Nat}
    (h : ∀ v part, part.length ≤ bound → Spelling v part → Gives True r v part) {v : Value}
    {part : List UInt8} (hlen : part.length ≤ bound) (hv : SpelledContent v part) :
    Gives True (content r v.kind) v part := by
  cases hv with
  | plain hkind hcontent => exact gives_plain r hkind hcontent
  | integer hn => exact (gives_spelledInteger hn).map
  | rational hq => exact (gives_spelledFraction hq).map
  | labeled hlabel hv =>
    rw [List.length_append] at hlen
    exact (gives_isText hlabel).andThen (h _ _ (by omega) hv).map
  | list hitems => exact (gives_isSequence h hitems hlen).map
  | vector hitems => exact (gives_isSequence h hitems hlen).map
  | matrix hrows =>
    have hrow (row : List Value) (part : List UInt8) (hlen : part.length ≤ bound)
        (hrow : IsSequence Spelling row part) : Gives True (sequence r) row part :=
      gives_isSequence h hrow hlen
    exact (gives_isSequence hrow hrows hlen).map
  | directory hnamed hentries =>
    rw [collects_iff.mp hentries]
    exact (gives_isSequence (gives_spelledEntry h) hnamed hlen).map
      (f := fun entries => Value.directory (Directory.ofList entries))

/-- **A spelling is read as the value that it spells.**  The index of a value takes bytes, and
so what is in it is shorter; the depth never runs out. -/
theorem gives_spelling (depth : Nat) (v : Value) (part : List UInt8) (hlen : part.length < depth)
    (h : Spelling v part) : Gives True (value depth) v part := by
  induction depth generalizing v part with
  | zero => omega
  | succ depth ih =>
    cases h with
    | @mk _ index content hindex hcontent =>
      have hfour : index.length = 4 := hindex.length
      rw [List.length_append] at hlen
      have hshorter (w : Value) (part : List UInt8) (hle : part.length ≤ content.length)
          (hw : Spelling w part) : Gives True (value depth) w part := ih w part (by omega) hw
      refine (gives_isNumber hindex).andThen ?_
      simp only [Kind.ofIndex?_index]
      exact gives_spelledContent hshorter (Nat.le_refl _) hcontent

end Reader

/-! ## Payloads and objects -/

/-- What is read from a payload is what its front spells. -/
theorem valueOfPayload_eq_ok_iff {part : List UInt8} {v : Value} :
    valueOfPayload part = .ok v ↔ ∃ front back, part = front ++ back ∧ Spelling v front := by
  constructor
  · intro h
    unfold valueOfPayload at h
    cases hread : Reader.value (part.length + 1) part with
    | error e =>
      rw [hread] at h
      cases h
    | ok p =>
      obtain ⟨w, back⟩ := p
      rw [hread] at h
      cases h
      obtain ⟨front, hpart, hspelling, -⟩ := Reader.takes_spelling _ _ _ _ hread
      exact ⟨front, back, hpart, hspelling⟩
  · rintro ⟨front, back, rfl, h⟩
    have hlen : front.length < (front ++ back).length + 1 := by
      rw [List.length_append]
      omega
    rw [valueOfPayload, (Reader.gives_spelling _ v front hlen h).eq_ok]
    rfl

/-- An accepted object is a header, a spelling of its value, and what comes behind that. -/
theorem spelling_of_decode {bytes : List UInt8} {v : Value} (h : decode bytes = .ok v) :
    ∃ len part rest, bytes = signature ++ len ++ UInt8.ofNat v.kind.index :: (part ++ rest) ∧
      IsNumber 8 (part ++ rest).length len ∧ Spelling v part ∧ v.validate = .ok () := by
  obtain ⟨held, rfl, hlen, hv, hwf⟩ := decode_eq_ok_iff.mp h
  obtain ⟨part, rest, rfl, hspelling⟩ := valueOfPayload_eq_ok_iff.mp hv
  exact ⟨_, part, rest, rfl, isNumber_iff.mpr ⟨hlen, rfl⟩, hspelling,
    Value.validate_eq_ok_iff.mpr hwf⟩

/-- A header and a spelling are accepted. -/
theorem decode_of_spelling {v : Value} {len part : List UInt8} (h : Spelling v part)
    (hlen : IsNumber 8 part.length len) (hvalid : v.validate = .ok ()) :
    decode (signature ++ len ++ UInt8.ofNat v.kind.index :: part) = .ok v := by
  obtain ⟨hlt, rfl⟩ := isNumber_iff.mp hlen
  have hv : valueOfPayload part = .ok v :=
    valueOfPayload_eq_ok_iff.mpr ⟨part, [], (List.append_nil part).symm, h⟩
  exact decode_eq_ok_iff.mpr ⟨part, rfl, hlt, hv, Value.validate_eq_ok_iff.mp hvalid⟩

/-- Of an accepted object, the one that is written for its value is the one with its layout. -/
theorem layout_iff_of_decode {bytes : List UInt8} {v : Value} (h : decode bytes = .ok v) :
    Layout v (bytes.drop headerLength) ↔ bytes = encode v := by
  obtain ⟨part, rfl, hlen, hv, -⟩ := decode_eq_ok_iff.mp h
  have hpayload : (payload v).length < 256 ^ 8 :=
    Nat.lt_of_le_of_lt (valueOfPayload_eq_ok hv).1.1 hlen
  have hdrop (kind : Kind) (part : List UInt8) : (wrapped kind part).drop headerLength = part := by
    have hhead : (signature ++ count part.length ++ [UInt8.ofNat kind.index]).length =
        headerLength := by simp [signature, headerLength]
    have hsplit : wrapped kind part =
        (signature ++ count part.length ++ [UInt8.ofNat kind.index]) ++ part := by simp [wrapped]
    rw [hsplit, ← hhead, List.drop_left]
  rw [hdrop, layout_iff hpayload]
  constructor
  · rintro rfl
    rfl
  · intro heq
    rw [← hdrop v.kind part, heq, encode_eq, hdrop]

theorem length_encode_le {bytes : List UInt8} {v : Value} (h : decode bytes = .ok v) :
    (encode v).length ≤ bytes.length := by
  obtain ⟨part, rfl, -, hv, -⟩ := decode_eq_ok_iff.mp h
  have hle := (valueOfPayload_eq_ok hv).1.1
  rw [encode_eq, length_wrapped, length_wrapped]
  omega

/-- **An object is accepted for the value that it spells.**  An accepted object has the right
header, a spelling of the value, and possibly bytes behind it.  It is the object that is written
for the value just if it has the layout of the value; that object is accepted too, and none is
shorter.  Cutting an accepted object or adding to it makes it a faulty file.  Each spelling of a
value that keeps the rules is accepted in its header, and every refusal is a fault of a file. -/
theorem accepts_spellings :
    (∀ (bytes : List UInt8) (v : Value), decode bytes = .ok v →
      (∃ len part rest, bytes = signature ++ len ++ UInt8.ofNat v.kind.index :: (part ++ rest) ∧
        IsNumber 8 (part ++ rest).length len ∧ Spelling v part ∧ v.validate = .ok ()) ∧
      (Layout v (bytes.drop 19) ↔ bytes = encode v) ∧
      decode (encode v) = .ok v ∧ (encode v).length ≤ bytes.length ∧
      ∀ bytes', bytes' <+: bytes ∨ bytes <+: bytes' → bytes' ≠ bytes →
        ∃ f, decode bytes' = .error f) ∧
    (∀ (v : Value) (len part : List UInt8), Spelling v part → IsNumber 8 part.length len →
      v.validate = .ok () →
      decode (signature ++ len ++ UInt8.ofNat v.kind.index :: part) = .ok v) ∧
    ∀ (bytes : List UInt8) (f : StorageFault), decode bytes = .error f →
      (Fault.storage f).category = .ioFailure := by
  refine ⟨fun bytes v h => ?_, fun v len part => decode_of_spelling, fun _ _ _ => rfl⟩
  refine ⟨spelling_of_decode h, layout_iff_of_decode h, decode_encode_of_decode h,
    length_encode_le h, fun _ hcut hne => refused_of_prefix_of_decode h hcut hne⟩

/-- Five with a zero for its highest digit: it is accepted, it is not what is written for five,
and with a byte more it is refused. -/
theorem accepts_spellings_zero_digit :
    let five := number 4 4 ++ 1 :: (number 8 2 ++ (number 4 5 ++ (number 4 0 ++ [])))
    decode (wrapped .integer five) = .ok (.integer 5) ∧
      wrapped .integer five ≠ encode (.integer 5) ∧
      ¬Layout (.integer 5) ((wrapped .integer five).drop 19) ∧
      ∃ f, decode (wrapped .integer five ++ [0]) = .error f := by
  intro five
  have hnumber {size n : Nat} (hn : n < 256 ^ size) : IsNumber size n (number size n) :=
    isNumber_iff.mpr ⟨hn, rfl⟩
  have hdigits :
      IsSequence (IsNumber 4) [5, 0] (number 8 2 ++ (number 4 5 ++ (number 4 0 ++ []))) :=
    .mk (hnumber (by decide)) (.cons (hnumber (by decide)) (.cons (hnumber (by decide)) .nil))
  have hspelling : Spelling (.integer 5) five :=
    .mk (hnumber (by decide)) (.integer (.plus hdigits))
  have h : decode (wrapped .integer five) = .ok (.integer 5) :=
    accepts_spellings.2.1 (.integer 5) _ five hspelling (hnumber (by decide)) rfl
  have hne : wrapped .integer five ≠ encode (.integer 5) := by decide +kernel
  obtain ⟨-, hlayout, -, -, hcut⟩ := accepts_spellings.1 _ _ h
  exact ⟨h, hne, fun hl => hne (hlayout.mp hl),
    hcut _ (.inr (List.prefix_append _ [0])) (by decide +kernel)⟩

/-- Objects that are accepted although they are not what is written: an integer with a zero for
its highest digit, a zero with digits and a zero with a sign, a directory out of order with a name
that is repeated, and a value with a byte behind it. -/
theorem accepts_other_spellings :
    decode (wrapped .integer (number 4 4 ++ 1 :: count 2 ++ number 4 5 ++ number 4 0)) =
      .ok (.integer 5) ∧
    decode (wrapped .integer (number 4 4 ++ 0 :: count 1 ++ number 4 7)) = .ok (.integer 0) ∧
    decode (wrapped .integer (number 4 4 ++ 255 :: count 0)) = .ok (.integer 0) ∧
    decode (wrapped .directory (number 4 2 ++ count 3 ++ entryPayload ("b", .binary 1) ++
      entryPayload ("a", .binary 2) ++ entryPayload ("b", .binary 3))) =
      .ok (.directory [("a", .binary 2), ("b", .binary 3)]) ∧
    decode (wrapped .binary (payload (.binary 5) ++ [0])) = .ok (.binary 5) ∧
    ¬∀ bytes v, decode bytes = .ok v → bytes = encode v := by
  refine ⟨rfl, rfl, rfl, rfl, rfl, fun h => ?_⟩
  have hsame := h (wrapped .integer (number 4 4 ++ 255 :: count 0)) (.integer 0) rfl
  exact absurd hsame (by decide +kernel)

end StoredObject

end RpnCalculator
