import RpnCalculator.Proofs.Object.RoundTrip

/-!
# What is refused

Whatever bytes are decoded, the result is a fault of a file or a value that is well-formed and
could be stored again (`refused_or_sound`).

Bytes that are missing are noticed, and so are bytes that are too many.  For the object as a
whole that is because its length is in its header, so that of two objects neither is the beginning
of the other (`eq_of_prefix_of_decode`).  If the header is corrected, there is only the payload to
tell.  It does, because a reader does not look beyond the part it takes: had it found a value in
what is left, then it would have found the same value, and nothing more, in the whole
(`eq_payload_of_valueOfPayload`).
-/

namespace RpnCalculator

namespace StoredObject

/-! ## Cutting the payload -/

/-- **A payload that is cut off is not read.** -/
theorem eq_payload_of_valueOfPayload {v w : Value} (hord : v.Ordered)
    (hlen : (payload v).length < 256 ^ 8) (hwf : v.WellFormed) {part : List UInt8}
    (hcut : part <+: payload v) (h : valueOfPayload part = .ok w) : part = payload v := by
  obtain ⟨missing, hmissing⟩ := hcut
  obtain ⟨-, front, back, rfl, hmore⟩ := valueOfPayload_eq_ok h
  have hdepth : (front ++ back).length < (payload v).length + 1 := by
    have htotal := congrArg List.length hmissing
    rw [List.length_append] at htotal
    omega
  -- the whole payload is read in two ways, and they agree
  have hshort := hmore (back ++ missing) _ hdepth
  rw [← List.append_assoc, hmissing] at hshort
  have hwhole := Reader.restores v ((payload v).length + 1) (Nat.le_succ _) hlen hord []
  rw [List.append_nil, hshort] at hwhole
  rcases hwhole with hwhole | ⟨hnot, -⟩
  · simp only [Except.ok.injEq, Prod.mk.injEq, List.append_eq_nil_iff] at hwhole
    rw [← hmissing, hwhole.2.2, List.append_nil]
  · exact absurd hwf hnot

/-! ## Cutting and extending objects -/

/-- The length in its header leaves nothing behind an object. -/
theorem eq_nil_of_wrapped_append {kind kind' : Kind} {part part' more : List UInt8}
    (hlen : part.length < 256 ^ 8) (hlen' : part'.length < 256 ^ 8)
    (h : wrapped kind part ++ more = wrapped kind' part') : more = [] := by
  have htotal := congrArg List.length h
  rw [List.length_append, length_wrapped, length_wrapped] at htotal
  simp only [wrapped, List.append_assoc] at h
  have hcount := List.append_inj_left (List.append_cancel_left h) (by simp)
  have hsame : part.length = part'.length := by
    rw [← littleEndian_number hlen, ← littleEndian_number hlen']
    exact congrArg littleEndian hcount
  rw [← List.length_eq_zero_iff]
  omega

/-- **Of two accepted objects, neither is the beginning of the other.** -/
theorem eq_of_prefix_of_decode {bytes bytes' : List UInt8} {v v' : Value}
    (h : decode bytes = .ok v) (h' : decode bytes' = .ok v') (hcut : bytes <+: bytes') :
    bytes = bytes' := by
  obtain ⟨part, rfl, hlen, -⟩ := decode_eq_ok_iff.mp h
  obtain ⟨part', rfl, hlen', -⟩ := decode_eq_ok_iff.mp h'
  obtain ⟨more, hmore⟩ := hcut
  have hnil := eq_nil_of_wrapped_append hlen hlen' hmore
  rwa [hnil, List.append_nil] at hmore

/-- An accepted object that is cut off is refused, and so is one with bytes behind it. -/
theorem refused_of_prefix_of_decode {bytes bytes' : List UInt8} {v : Value}
    (h : decode bytes = .ok v) (hcut : bytes' <+: bytes ∨ bytes <+: bytes') (hne : bytes' ≠ bytes) :
    ∃ f, decode bytes' = .error f := by
  cases h' : decode bytes' with
  | error f => exact ⟨f, rfl⟩
  | ok w =>
    rcases hcut with hcut | hcut
    · exact absurd (eq_of_prefix_of_decode h' h hcut) hne
    · exact absurd (eq_of_prefix_of_decode h h' hcut).symm hne

/-- And so is one whose payload is cut off, whatever its header says. -/
theorem refused_of_payload_cut {v : Value} (hord : v.Ordered)
    (hlen : (payload v).length < 256 ^ 8) (hwf : v.WellFormed) {part : List UInt8}
    (hcut : part <+: payload v) (hne : part ≠ payload v) (kind : Kind) :
    ∃ f, decode (wrapped kind part) = .error f := by
  have hpart : part.length < 256 ^ 8 := Nat.lt_of_le_of_lt hcut.length_le hlen
  cases h : decode (wrapped kind part) with
  | error f => exact ⟨f, rfl⟩
  | ok w =>
    rw [decode_wrapped hpart, valueTagged_eq_ok_iff] at h
    exact absurd (eq_payload_of_valueOfPayload hord hlen hwf hcut h.1) hne

/-! ## All bytes -/

/-- A value that was decoded can be stored again. -/
theorem decode_encode_of_decode {bytes : List UInt8} {v : Value} (h : decode bytes = .ok v) :
    decode (encode v) = .ok v := by
  obtain ⟨part, -, hpart, hv, hwf⟩ := decode_eq_ok_iff.mp h
  obtain ⟨hle, hord⟩ := (valueOfPayload_eq_ok hv).1
  exact decode_encode hord (by omega) hwf

/-- **Bytes are refused, or they are a sound object.**  What is accepted has the signature, its
length in the header and the kind of its value in the tag; the value is well-formed, and comes
back when it is stored again.  And of an object that can be read, nothing can be taken away and
nothing added, be it that the header is corrected. -/
theorem refused_or_sound :
    (∀ bytes : List UInt8,
      (∃ f, decode bytes = .error f ∧ (Fault.storage f).category = .ioFailure) ∨
      ∃ v, decode bytes = .ok v ∧ 19 ≤ bytes.length ∧ bytes.take 10 = signature ∧
        IsNumber 8 (bytes.length - 19) ((bytes.drop 10).take 8) ∧
        bytes[18]?.map UInt8.toNat = some v.kind.index ∧ v.validate = .ok () ∧
        decode (encode v) = .ok v) ∧
    ∀ v : Value, v.Ordered → (payload v).length < 2 ^ 64 → v.validate = .ok () →
      (∀ bytes, bytes <+: encode v → bytes ≠ encode v →
        ∃ f, decode bytes = .error f ∧ (Fault.storage f).category = .ioFailure) ∧
      (∀ bytes, encode v <+: bytes → bytes ≠ encode v →
        ∃ f, decode bytes = .error f ∧ (Fault.storage f).category = .ioFailure) ∧
      ∀ part, part <+: payload v → part ≠ payload v →
        ∃ f, decode (signature ++ count part.length ++ UInt8.ofNat v.kind.index :: part) =
          .error f ∧ (Fault.storage f).category = .ioFailure := by
  have hio {bytes : List UInt8} (h : ∃ f, decode bytes = .error f) :
      ∃ f, decode bytes = .error f ∧ (Fault.storage f).category = .ioFailure := by
    obtain ⟨f, hf⟩ := h
    exact ⟨f, hf, rfl⟩
  constructor
  · intro bytes
    cases h : decode bytes with
    | error f => exact .inl ⟨f, rfl, rfl⟩
    | ok v =>
      refine .inr ⟨v, rfl, ?_⟩
      obtain ⟨part, hbytes, hpart, -, hwf⟩ := decode_eq_ok_iff.mp h
      have hagain := decode_encode_of_decode h
      have htag : (UInt8.ofNat v.kind.index).toNat = v.kind.index := by cases v.kind <;> rfl
      have hlen := length_wrapped v.kind part
      rw [← hbytes, headerLength] at hlen
      refine ⟨by omega, ?_, ?_, ?_, Value.validate_eq_ok_iff.mpr hwf, hagain⟩
      · rw [hbytes, wrapped, List.append_assoc]
        exact List.take_left' rfl
      · rw [hlen, Nat.add_sub_cancel_left, hbytes, wrapped, List.append_assoc,
          List.drop_left' (show signature.length = 10 from rfl), List.take_left' (length_count _)]
        exact isNumber_iff.mpr ⟨hpart, rfl⟩
      · rw [hbytes, wrapped, List.getElem?_append_right (by simp [signature])]
        simp [signature, htag]
  · intro v hord hlen hvalid
    have hwf := Value.validate_eq_ok_iff.mp hvalid
    have hself := decode_encode hord hlen hwf
    exact ⟨fun bytes hcut hne => hio (refused_of_prefix_of_decode hself (.inl hcut) hne),
      fun bytes hcut hne => hio (refused_of_prefix_of_decode hself (.inr hcut) hne),
      fun part hcut hne => hio (refused_of_payload_cut hord hlen hwf hcut hne v.kind)⟩

/-- An object without its last byte is refused, and so is its payload under a new header. -/
theorem refused_or_sound_of_text :
    (∃ f, decode (encode (.string "ab")).dropLast = .error f) ∧
    (∃ f, decode (encode (.string "ab") ++ [0]) = .error f) ∧
    ∃ f, decode (signature ++ count 13 ++ UInt8.ofNat 10 :: (payload (.string "ab")).dropLast) =
      .error f := by
  have h := refused_or_sound.2 (.string "ab") (by simp [Value.Ordered]) (by decide +kernel) rfl
  refine ⟨?_, ?_, ?_⟩
  · obtain ⟨f, hf, -⟩ := h.1 _ (List.dropLast_prefix _) (by decide +kernel)
    exact ⟨f, hf⟩
  · obtain ⟨f, hf, -⟩ := h.2.1 _ (List.prefix_append _ [0]) (by decide +kernel)
    exact ⟨f, hf⟩
  · obtain ⟨f, hf, -⟩ := h.2.2 _ (List.dropLast_prefix _) (by decide +kernel)
    exact ⟨f, hf⟩

end StoredObject

end RpnCalculator
