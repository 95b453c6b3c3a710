import RpnCalculator.Proofs.Object.Layout

/-!
# Objects come back as they were written

An object is a payload in a wrapping that says how long the payload is and of which kind its
value.  `decode` accepts some bytes exactly when they are a payload wrapped in this way, when
the reader finds a value of that kind in it, and when the value is well-formed
(`decode_eq_ok_iff`).  So what is written can be read back if it is well-formed, and is refused
if it is not.

## Values and what is assumed of them

Two assumptions are made of a value, and neither is about what it stands for.  The names of
its directories ascend (`Value.Ordered`): a directory is a list here, and without an order it
would have several lists.  And its payload can be counted in eight bytes, as everything can
that fits into the memory of a machine.
-/

namespace RpnCalculator

namespace StoredObject

/-! ## Wrapping -/

/-- A payload with a header for a kind. -/
def wrapped (kind : Kind) (part : List UInt8) : List UInt8 :=
  signature ++ count part.length ++ UInt8.ofNat kind.index :: part

theorem encode_eq (v : Value) : encode v = wrapped v.kind (payload v) := rfl

theorem length_wrapped (kind : Kind) (part : List UInt8) :
    (wrapped kind part).length = headerLength + part.length := by
  simp only [wrapped, signature, headerLength, List.length_append, List.length_cons,
    List.length_nil, length_count]
  omega

/-- A payload is accepted if it holds a well-formed value of the kind of its tag. -/
theorem valueTagged_eq_ok_iff {kind : Kind} {part : List UInt8} {v : Value} :
    valueTagged kind part = .ok v ↔
      valueOfPayload part = .ok v ∧ v.kind = kind ∧ v.WellFormed := by
  unfold valueTagged
  cases hpart : valueOfPayload part with
  | error e => simp
  | ok w =>
    dsimp only
    rw [Except.ok.injEq, ← Value.flaw?_eq_none_iff]
    by_cases hkind : w.kind = kind
    · rw [if_neg (not_not_intro hkind)]
      cases hflaw : w.flaw? with
      | some f =>
        simp only [reduceCtorEq, false_iff]
        rintro ⟨rfl, -, hnone⟩
        rw [hflaw] at hnone
        cases hnone
      | none =>
        simp only [Except.ok.injEq]
        constructor
        · rintro rfl
          exact ⟨rfl, hkind, hflaw⟩
        · exact fun h => h.1
    · rw [if_pos hkind]
      simp only [reduceCtorEq, false_iff]
      rintro ⟨rfl, h, -⟩
      exact hkind h

/-- A payload and its wrapping come apart again. -/
theorem decode_wrapped {kind : Kind} {part : List UInt8} (h : part.length < 256 ^ 8) :
    decode (wrapped kind part) = valueTagged kind part := by
  have hlen : ¬(wrapped kind part).length < headerLength := by
    rw [length_wrapped]
    omega
  have hdrop : (wrapped kind part).drop signature.length =
      count part.length ++ UInt8.ofNat kind.index :: part := by
    rw [wrapped, List.append_assoc, List.drop_left]
  have htake : (wrapped kind part).take signature.length = signature := by
    rw [wrapped, List.append_assoc, List.take_left]
  have hheld : (wrapped kind part).drop headerLength = part := by
    rw [show headerLength = signature.length + 9 from rfl, ← List.drop_drop, hdrop,
      List.drop_append, length_count, List.drop_of_length_le (by rw [length_count]; omega)]
    rfl
  have htag : (UInt8.ofNat kind.index).toNat = kind.index := by cases kind <;> rfl
  rw [decode, if_neg (by simp [hlen, htake])]
  simp only [hdrop, hheld, (Reader.gives_count h).eq_ok, ne_eq, not_true_eq_false, if_false,
    List.headD_cons, htag, Kind.ofIndex?_index]

/-- **What is accepted** is a payload in its wrapping, of a value that is well-formed. -/
theorem decode_eq_ok_iff {bytes : List UInt8} {v : Value} :
    decode bytes = .ok v ↔
      ∃ part, bytes = wrapped v.kind part ∧ part.length < 256 ^ 8 ∧
        valueOfPayload part = .ok v ∧ v.WellFormed := by
  constructor
  · intro h
    unfold decode at h
    split at h
    · cases h
    rename_i hstart
    rw [not_or, Nat.not_lt, Decidable.not_not] at hstart
    dsimp only at h
    split at h
    · cases h
    rename_i n rest hn
    split at h
    · cases h
    rename_i hheld
    split at h
    · cases h
    rename_i kind hkind
    obtain ⟨hv, rfl, hwf⟩ := valueTagged_eq_ok_iff.mp h
    obtain ⟨part, hpart, ⟨hlt, rfl⟩, -⟩ := Reader.takes_number 8 _ _ _ hn
    -- what comes after the length is the tag and the payload
    have hsplit : bytes = signature ++ (count n ++ rest) := by
      have hcut := List.take_append_drop signature.length bytes
      rw [hstart.2, hpart] at hcut
      exact hcut.symm
    have hlen := hstart.1
    rw [hsplit] at hlen
    cases rest with
    | nil => simp [signature, headerLength] at hlen
    | cons tag held =>
      have hdrop : bytes.drop headerLength = held := by
        rw [show headerLength = signature.length + 9 from rfl, ← List.drop_drop, hpart,
          List.drop_append, length_number, List.drop_of_length_le (by rw [length_number]; omega)]
        rfl
      have htag : tag = UInt8.ofNat v.kind.index := by
        rw [← Kind.eq_index_of_ofIndex? hkind]
        exact (UInt8.ofNat_toNat).symm
      rw [hdrop] at hheld hv
      rw [ne_eq, Decidable.not_not] at hheld
      refine ⟨held, ?_, by rwa [hheld], hv, hwf⟩
      rw [hsplit, wrapped, htag, hheld, List.append_assoc]
  · rintro ⟨part, rfl, hlen, hv, hwf⟩
    rw [decode_wrapped hlen, valueTagged_eq_ok_iff]
    exact ⟨hv, rfl, hwf⟩

/-! ## What was read -/

/-- What a payload is read as does not depend on what follows. -/
theorem valueOfPayload_eq_ok {part : List UInt8} {v : Value} (h : valueOfPayload part = .ok v) :
    Reader.Fits v part ∧ ∃ front back, part = front ++ back ∧
      ∀ more depth, part.length < depth → Reader.value depth (front ++ more) = .ok (v, more) := by
  unfold valueOfPayload at h
  cases hread : Reader.value (part.length + 1) part with
  | error e =>
    rw [hread] at h
    cases h
  | ok p =>
    obtain ⟨w, back⟩ := p
    rw [hread] at h
    cases h
    obtain ⟨front, hpart, hfits, hmore⟩ := Reader.takes_value _ _ _ _ hread
    refine ⟨⟨?_, hfits.2⟩, front, back, hpart, fun more depth hdepth => ?_⟩
    · rw [hpart, List.length_append]
      exact Nat.le_add_right_of_le hfits.1
    · exact Reader.extends_value hdepth _ _ _ (hmore more)

/-- The names of the directories in an object are put in order when it is read. -/
theorem ordered_of_decode {bytes : List UInt8} {v : Value} (h : decode bytes = .ok v) :
    v.Ordered := by
  obtain ⟨part, -, -, hv, -⟩ := decode_eq_ok_iff.mp h
  have hfits := (valueOfPayload_eq_ok hv).1
  exact hfits.2

/-! ## Reading what was written -/

/-- The reader gives back what was written, unless it is not well-formed. -/
theorem valueOfPayload_payload {v : Value} (hord : v.Ordered)
    (hlen : (payload v).length < 256 ^ 8) :
    valueOfPayload (payload v) = .ok v ∨
      ¬v.WellFormed ∧ ∃ e, valueOfPayload (payload v) = .error e := by
  have key := Reader.restores v ((payload v).length + 1) (Nat.le_succ _) hlen hord []
  rw [List.append_nil] at key
  unfold valueOfPayload
  rcases key with h | ⟨hwf, e, h⟩
  · exact .inl (by rw [h]; rfl)
  · exact .inr ⟨hwf, e, by rw [h]; rfl⟩

/-- A well-formed value is read back. -/
theorem decode_encode {v : Value} (hord : v.Ordered) (hlen : (payload v).length < 256 ^ 8)
    (hwf : v.WellFormed) : decode (encode v) = .ok v := by
  rcases valueOfPayload_payload hord hlen with h | ⟨hnot, -⟩
  · exact decode_eq_ok_iff.mpr ⟨payload v, encode_eq v, hlen, h, hwf⟩
  · exact absurd hwf hnot

/-- Another value is refused. -/
theorem decode_encode_eq_error {v : Value} (hord : v.Ordered)
    (hlen : (payload v).length < 256 ^ 8) (hwf : ¬v.WellFormed) :
    ∃ f, decode (encode v) = .error f := by
  rw [encode_eq, decode_wrapped hlen]
  cases h : valueTagged v.kind (payload v) with
  | error f => exact ⟨f, rfl⟩
  | ok w =>
    obtain ⟨hw, -, hwf'⟩ := valueTagged_eq_ok_iff.mp h
    rcases valueOfPayload_payload hord hlen with hv | ⟨-, e, hv⟩
    · rw [hv] at hw
      cases hw
      exact absurd hwf' hwf
    · rw [hv] at hw
      cases hw

/-- **An object is laid out as the format says, and comes back as it was.**  Its payload is the
one that the format has for the value.  What is read from it is the value, to the last bit, if
the value is well-formed; if it is not, the object is refused. -/
theorem encode_restores (v : Value) (hord : v.Ordered) (hlen : (payload v).length < 2 ^ 64) :
    (∃ len part, encode v = signature ++ len ++ UInt8.ofNat v.kind.index :: part ∧
      IsNumber 8 part.length len ∧ ∀ bytes, Layout v bytes ↔ bytes = part) ∧
    (v.validate = .ok () → decode (encode v) = .ok v) ∧
    (v.validate ≠ .ok () → ∃ f, decode (encode v) = .error f ∧
      (Fault.storage f).category = .ioFailure) := by
  have hcount : (payload v).length < 256 ^ 8 := hlen
  refine ⟨⟨_, payload v, rfl, isNumber_iff.mpr ⟨hcount, rfl⟩, layout_iff hcount⟩, ?_, ?_⟩
  · intro hwf
    exact decode_encode hord hcount (Value.validate_eq_ok_iff.mp hwf)
  · intro hwf
    rw [ne_eq, Value.validate_eq_ok_iff] at hwf
    obtain ⟨f, hf⟩ := decode_encode_eq_error hord hcount hwf
    exact ⟨f, hf, rfl⟩

/-- A directory in a list comes back, and rows of different lengths do not. -/
theorem encode_restores_nested :
    decode (encode (.list [.directory [("a", .float ⟨1⟩), ("b", .rational ⟨-1, 2⟩)]])) =
        .ok (.list [.directory [("a", .float ⟨1⟩), ("b", .rational ⟨-1, 2⟩)]]) ∧
      ∃ f, decode (encode (.matrix [[.integer 1], []])) = .error f := by
  constructor
  · refine (encode_restores _ ?_ (by decide +kernel)).2.1 rfl
    simp only [Value.Ordered, Value.ItemsOrdered, Value.EntriesOrdered, Directory.Ascending,
      and_true, List.not_mem_nil, List.mem_singleton, forall_eq, false_implies, implies_true]
    decide
  · obtain ⟨f, hf, -⟩ := (encode_restores (.matrix [[.integer 1], []])
      (by simp [Value.Ordered, Value.RowsOrdered, Value.ItemsOrdered]) (by decide +kernel)).2.2
      (by simp [Value.validate, Value.flaw?, Value.rectangular])
    exact ⟨f, hf⟩

end StoredObject

end RpnCalculator
