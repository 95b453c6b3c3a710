import RpnCalculator.Object.Decoding

/-!
# Readers and the parts they take

A reader takes a part off the front of some bytes.  Three things can be said of it without
saying which reader it is, and each of them is kept when readers are put together, so that
in the end they hold of the reader of values.

* `Takes`: a reader looks at nothing but the part that it takes, and value and part are
  related in a certain way.  It cannot know how many bytes follow, and so a part that was cut
  off is missed by whichever reader comes to it.
* `Gives`: a reader gives back what was written, whatever follows it.  A value may break a
  rule that the reader checks, and then it is allowed to fail; the rules are a condition that
  is carried along.
* `Extends`: a reader does all that another one does.  This is what a larger depth is for.
-/

namespace RpnCalculator

namespace StoredObject

namespace Reader

variable {α β : Type}

@[simp] theorem pure_apply (a : α) (bytes : List UInt8) :
    (pure a : Reader α) bytes = .ok (a, bytes) := rfl

@[simp] theorem fail_apply (e : Corruption) (bytes : List UInt8) :
    (fail e : Reader α) bytes = .error e := rfl

theorem bind_apply (r : Reader α) (f : α → Reader β) (bytes : List UInt8) :
    (r >>= f) bytes =
      match r bytes with
      | .ok (a, rest) => f a rest
      | .error e => .error e := rfl

/-- One reader after another succeeds when both do. -/
theorem bind_eq_ok_iff {r : Reader α} {f : α → Reader β} {bytes rest : List UInt8} {b : β} :
    (r >>= f) bytes = .ok (b, rest) ↔
      ∃ a mid, r bytes = .ok (a, mid) ∧ f a mid = .ok (b, rest) := by
  rw [bind_apply]
  cases hr : r bytes with
  | ok p =>
    obtain ⟨a, mid⟩ := p
    simp only [Except.ok.injEq, Prod.mk.injEq]
    constructor
    · exact fun h => ⟨a, mid, ⟨rfl, rfl⟩, h⟩
    · rintro ⟨_, _, ⟨rfl, rfl⟩, h⟩
      exact h
  | error e => simp

/-! ## What is taken -/

/-- What is taken is a part from the front; value and part are related; and what follows the
part does not matter. -/
def Takes (R : α → List UInt8 → Prop) (r : Reader α) : Prop :=
  ∀ bytes a rest, r bytes = .ok (a, rest) →
    ∃ part, bytes = part ++ rest ∧ R a part ∧ ∀ more, r (part ++ more) = .ok (a, more)

namespace Takes

variable {R : α → List UInt8 → Prop} {r : Reader α}

theorem pure {a : α} (h : R a []) : Takes R (pure a) := by
  intro bytes b rest hb
  cases hb
  exact ⟨[], rfl, h, fun more => rfl⟩

theorem fail (e : Corruption) : Takes R (fail e) := by
  intro bytes b rest hb
  cases hb

theorem imp {R' : α → List UInt8 → Prop} (h : Takes R r) (himp : ∀ a part, R a part → R' a part) :
    Takes R' r := by
  intro bytes a rest hr
  obtain ⟨part, hbytes, hR, hmore⟩ := h bytes a rest hr
  exact ⟨part, hbytes, himp a part hR, hmore⟩

/-- The parts of two readers, one after the other. -/
theorem bind {S : β → List UInt8 → Prop} {f : α → Reader β} (h : Takes R r)
    (hf : ∀ a part, R a part → Takes (fun b part' => S b (part ++ part')) (f a)) :
    Takes S (r >>= f) := by
  intro bytes b rest hb
  obtain ⟨a, mid, hr, hfa⟩ := bind_eq_ok_iff.mp hb
  obtain ⟨part, rfl, hR, hmore⟩ := h bytes a mid hr
  obtain ⟨part', rfl, hS, hmore'⟩ := hf a part hR mid b rest hfa
  refine ⟨part ++ part', by rw [List.append_assoc], hS, fun more => ?_⟩
  rw [List.append_assoc, bind_eq_ok_iff]
  exact ⟨a, _, hmore _, hmore' more⟩

end Takes

/-- The parts of several values, one after the other. -/
inductive Parts (R : α → List UInt8 → Prop) : List α → List UInt8 → Prop where
  | nil : Parts R [] []
  | cons {a : α} {as : List α} {part parts : List UInt8} (h : R a part) (hs : Parts R as parts) :
    Parts R (a :: as) (part ++ parts)

theorem Parts.exists_of_mem {R : α → List UInt8 → Prop} {as : List α} {parts : List UInt8}
    (h : Parts R as parts) {a : α} (ha : a ∈ as) : ∃ part, R a part := by
  induction h with
  | nil => simp at ha
  | cons h _ ih =>
    rcases List.mem_cons.mp ha with rfl | ha
    · exact ⟨_, h⟩
    · exact ih ha

theorem Takes.times {R : α → List UInt8 → Prop} {r : Reader α} (h : Takes R r) (n : Nat) :
    Takes (fun as parts => as.length = n ∧ Parts R as parts) (times r n) := by
  induction n with
  | zero => exact Takes.pure ⟨rfl, .nil⟩
  | succ n ih =>
    refine h.bind fun a part hR => ih.bind fun as parts hparts => Takes.pure ?_
    rw [List.append_nil]
    exact ⟨by rw [List.length_cons, hparts.1], .cons hR hparts.2⟩

/-! ## What is given back -/

/-- Reading a part gives back what was written, unless a condition fails. -/
def Gives (Q : Prop) (r : Reader α) (a : α) (part : List UInt8) : Prop :=
  ∀ rest, r (part ++ rest) = .ok (a, rest) ∨ ¬Q ∧ ∃ e, r (part ++ rest) = .error e

namespace Gives

variable {Q Q' : Prop} {r : Reader α} {a : α} {part : List UInt8}

theorem pure (a : α) : Gives True (Pure.pure a) a [] := fun _ => .inl rfl

theorem imp (h : Gives Q r a part) (himp : Q' → Q) : Gives Q' r a part := by
  intro rest
  rcases h rest with h | ⟨hQ, h⟩
  · exact .inl h
  · exact .inr ⟨fun hQ' => hQ (himp hQ'), h⟩

theorem bind {f : α → Reader β} {b : β} {part' : List UInt8} (h : Gives Q r a part)
    (hf : Gives Q' (f a) b part') : Gives (Q ∧ Q') (r >>= f) b (part ++ part') := by
  intro rest
  rw [List.append_assoc, bind_apply]
  rcases h (part' ++ rest) with h | ⟨hQ, e, h⟩
  · rw [h]
    rcases hf rest with hf | ⟨hQ', hf⟩
    · exact .inl hf
    · exact .inr ⟨fun hQs => hQ' hQs.2, hf⟩
  · rw [h]
    exact .inr ⟨fun hQs => hQ hQs.1, e, rfl⟩

/-- A field in front that is always given back. -/
theorem andThen {f : α → Reader β} {b : β} {part' : List UInt8} (h : Gives True r a part)
    (hf : Gives Q (f a) b part') : Gives Q (r >>= f) b (part ++ part') :=
  (h.bind hf).imp fun hQ => ⟨trivial, hQ⟩

/-- What is given back can be put into something else. -/
theorem map {f : α → β} (h : Gives Q r a part) :
    Gives Q (r >>= fun a => Pure.pure (f a)) (f a) part := by
  intro rest
  rw [bind_apply]
  rcases h rest with h | ⟨hQ, e, h⟩
  · rw [h]
    exact .inl rfl
  · rw [h]
    exact .inr ⟨hQ, e, rfl⟩

theorem times {Q : α → Prop} {part : α → List UInt8} {as : List α}
    (h : ∀ a ∈ as, Gives (Q a) r a (part a)) :
    Gives (∀ a ∈ as, Q a) (times r as.length) as (as.flatMap part) := by
  induction as with
  | nil => exact (Gives.pure []).imp fun _ => trivial
  | cons a as ih =>
    rw [List.forall_mem_cons] at h
    rw [List.flatMap_cons]
    exact (h.1.bind (ih h.2).map).imp List.forall_mem_cons.mp

/-- What is given back without a condition. -/
theorem eq_ok (h : Gives True r a part) (rest : List UInt8) :
    r (part ++ rest) = .ok (a, rest) := by
  rcases h rest with h | ⟨hQ, -⟩
  · exact h
  · exact absurd trivial hQ

end Gives

/-! ## What is done as well -/

/-- The second reader reads what the first one reads. -/
def Extends (r r' : Reader α) : Prop :=
  ∀ bytes a rest, r bytes = .ok (a, rest) → r' bytes = .ok (a, rest)

namespace Extends

theorem refl (r : Reader α) : Extends r r := fun _ _ _ h => h

theorem bind {r r' : Reader α} {f f' : α → Reader β} (h : Extends r r')
    (hf : ∀ a, Extends (f a) (f' a)) : Extends (r >>= f) (r' >>= f') := by
  intro bytes b rest hb
  obtain ⟨a, mid, hr, hfa⟩ := bind_eq_ok_iff.mp hb
  exact bind_eq_ok_iff.mpr ⟨a, mid, h _ _ _ hr, hf a _ _ _ hfa⟩

theorem times {r r' : Reader α} (h : Extends r r') (n : Nat) :
    Extends (times r n) (times r' n) := by
  induction n with
  | zero => exact refl _
  | succ n ih => exact h.bind fun a => ih.bind fun as => refl _

end Extends

end Reader

end StoredObject

end RpnCalculator
