/-!
# The order of texts

Texts are ordered character by character, characters by their numbers, and a text comes
after its own beginnings.  This is also the order of the UTF-8 bytes, since the bytes of
a character grow with its number.

The comparison is written out on lists of characters, so that its laws are inductions on
the text.
-/

namespace RpnCalculator
namespace Text

/-- Which of two texts comes first. -/
def compareChars : List Char → List Char → Ordering
  | [], [] => .eq
  | [], _ :: _ => .lt
  | _ :: _, [] => .gt
  | a :: s, b :: t =>
    if a.toNat < b.toNat then .lt
    else if b.toNat < a.toNat then .gt
    else compareChars s t

private theorem char_eq_of_toNat {a b : Char} (h : a.toNat = b.toNat) : a = b := by
  apply Char.ext
  exact UInt32.toNat_inj.mp h

theorem compareChars_eq_iff {s t : List Char} : compareChars s t = .eq ↔ s = t := by
  induction s generalizing t with
  | nil => cases t <;> simp [compareChars]
  | cons a s ih =>
    cases t with
    | nil => simp [compareChars]
    | cons b t =>
      unfold compareChars
      split
      · rename_i h
        have : a ≠ b := fun e => absurd h (by simp [e])
        simp [this]
      · split
        · rename_i h
          have : a ≠ b := fun e => absurd h (by simp [e])
          simp [this]
        · have : a = b := char_eq_of_toNat (by omega)
          simp [ih, this]

/-- Comparing in the other order turns the answer round. -/
theorem compareChars_swap (s t : List Char) :
    compareChars t s = (compareChars s t).swap := by
  induction s generalizing t with
  | nil => cases t <;> rfl
  | cons a s ih =>
    cases t with
    | nil => rfl
    | cons b t =>
      unfold compareChars
      rcases Nat.lt_trichotomy a.toNat b.toNat with h | h | h
      · simp [h, Nat.lt_asymm h]
      · simp [h, ih]
      · simp [h, Nat.lt_asymm h]

theorem compareChars_lt_trans {s t u : List Char} (h : compareChars s t = .lt)
    (h' : compareChars t u = .lt) : compareChars s u = .lt := by
  induction s generalizing t u with
  | nil =>
    cases u with
    | nil => cases t <;> simp [compareChars] at h h'
    | cons c u => rfl
  | cons a s ih =>
    cases t with
    | nil => simp [compareChars] at h
    | cons b t =>
      cases u with
      | nil => simp [compareChars] at h'
      | cons c u =>
        unfold compareChars at h h' ⊢
        rcases Nat.lt_trichotomy a.toNat b.toNat with hab | hab | hab
        · rcases Nat.lt_trichotomy b.toNat c.toNat with hbc | hbc | hbc
          · simp [Nat.lt_trans hab hbc]
          · simp [← hbc, hab]
          · simp [hbc, Nat.lt_asymm hbc] at h'
        · rcases Nat.lt_trichotomy b.toNat c.toNat with hbc | hbc | hbc
          · simp [hab, hbc]
          · simp only [hab, hbc, Nat.lt_irrefl, if_false] at h h' ⊢
            exact ih h h'
          · simp [hbc, Nat.lt_asymm hbc] at h'
        · simp [hab, Nat.lt_asymm hab] at h

/-- Which of two strings comes first. -/
def compare (s t : String) : Ordering := compareChars s.toList t.toList

theorem compare_eq_iff {s t : String} : compare s t = .eq ↔ s = t := by
  rw [compare, compareChars_eq_iff]
  exact ⟨fun h => String.toList_inj.mp h, fun h => h ▸ rfl⟩

@[simp] theorem compare_self (s : String) : compare s s = .eq := compare_eq_iff.mpr rfl

theorem compare_swap (s t : String) : compare t s = (compare s t).swap :=
  compareChars_swap _ _

theorem compare_lt_trans {s t u : String} (h : compare s t = .lt) (h' : compare t u = .lt) :
    compare s u = .lt :=
  compareChars_lt_trans h h'

end Text
end RpnCalculator
