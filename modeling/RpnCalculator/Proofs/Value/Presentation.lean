import RpnCalculator.Proofs.Value.Heredity
import RpnCalculator.Value.Arithmetic
import RpnCalculator.Value.Functions
import RpnCalculator.Proofs.Literal.Grammar

/-!
# Settings that only say how values are shown

Of the six settings, the unit of angles and the width of words enter computation.  The other
four (base, form of complex numbers, form of floats, decimals) say how a value is written.
`Display.unstyled` forgets these four, and this file shows that operations, conversions and
literals do not notice (`UnaryOperator.apply_unstyled`, `BinaryOperator.apply_unstyled`,
`Value.convert_unstyled`, `Literal.parse_unstyled`).

## The two exceptions

A conversion to a string makes a text of a value, and that text depends on all settings.  No
operation makes one: operands meet in a string only if both are strings already, and then
neither is converted (`kind_eq_string_of_join?`).

The digits of a binary word are read in the base in force unless a letter after them names
another.  Words without such a letter are `Literal.Unsuffixed`.
-/

namespace RpnCalculator

/-- The settings that enter computation, the others being as in a new calculator. -/
def Display.unstyled (d : Display) : Display := { angle := d.angle, wordSize := d.wordSize }

/-! ## Conversions -/

namespace Value

variable {d : Display}

/-- **A conversion to anything but a string does not depend on how values are shown.** -/
theorem convert_unstyled {target : Kind} (h : target ≠ .string) (v : Value) :
    v.convert d.unstyled target = v.convert d target := by
  unfold convert
  cases target with
  | string => exact absurd rfl h
  | binary => cases v <;> rfl
  | complex => cases v <;> rfl
  | float => cases v <;> rfl
  | integer => cases v <;> rfl
  | rational => cases v <;> rfl
  | directory | labeled | list | matrix | program | vector => cases v <;> rfl

end Value

/-! ## One value -/

namespace UnaryOperator

variable {d : Display}

theorem onWord_unstyled (op : UnaryOperator) (b : Nat) :
    op.onWord d.unstyled b = op.onWord d b := rfl

theorem onFloat_unstyled (op : UnaryOperator) (x : Double) :
    op.onFloat d.unstyled x = op.onFloat d x := rfl

theorem onInteger_unstyled (op : UnaryOperator) (n : Int) :
    op.onInteger d.unstyled n = op.onInteger d n := rfl

theorem onRational_unstyled (op : UnaryOperator) (q : Rat) :
    op.onRational d.unstyled q = op.onRational d q := rfl

theorem floatOf_unstyled (v : Value) : floatOf d.unstyled v = floatOf d v := by
  rw [floatOf, floatOf, Value.convert_unstyled (by decide)]

/-- The value has the same results whatever the settings for showing it. -/
def Plain (d : Display) (v : Value) : Prop :=
  ∀ op : UnaryOperator, op.apply d.unstyled v = op.apply d v

theorem negateItems_unstyled {vs : List Value} (h : ∀ v ∈ vs, Plain d v) :
    negateItems d.unstyled vs = negateItems d vs := by
  induction vs with
  | nil => rfl
  | cons v vs ih =>
    rw [List.forall_mem_cons] at h
    rw [negateItems_cons, negateItems_cons, h.1, ih h.2]

theorem negateRows_unstyled {rows : List (List Value)}
    (h : ∀ row ∈ rows, ∀ v ∈ row, Plain d v) :
    negateRows d.unstyled rows = negateRows d rows := by
  induction rows with
  | nil => rfl
  | cons row rows ih =>
    rw [List.forall_mem_cons] at h
    rw [negateRows_cons, negateRows_cons, negateItems_unstyled h.1, ih h.2]

/-- The length of a vector takes each magnitude through a conversion. -/
theorem sumOfSquares_unstyled {vs : List Value} {sum : Double} (h : ∀ v ∈ vs, Plain d v) :
    sumOfSquares d.unstyled sum vs = sumOfSquares d sum vs := by
  induction vs generalizing sum with
  | nil => rfl
  | cons v vs ih =>
    rw [List.forall_mem_cons] at h
    rw [sumOfSquares_cons, sumOfSquares_cons, h.1]
    simp only [floatOf_unstyled, ih h.2]

/-- **An operation on one value does not depend on how values are shown.** -/
theorem apply_unstyled (v : Value) : Plain d v := by
  induction v with
  | binary bits => exact fun op => op.onWord_unstyled (d.word bits)
  | float x => exact fun op => op.onFloat_unstyled x
  | integer n => exact fun op => op.onInteger_unstyled n
  | rational q => exact fun op => op.onRational_unstyled q.toRat
  | vector items ih =>
    intro op
    unfold apply
    rw [negateItems_unstyled ih, sumOfSquares_unstyled ih]
  | matrix rows ih =>
    intro op
    unfold apply
    rw [negateRows_unstyled ih]
  | _ => exact fun op => rfl

end UnaryOperator

/-! ## Two values -/

/-- Only strings meet in a string. -/
theorem kind_eq_string_of_join? {l r : Kind} (h : l.join? r = some .string) :
    l = .string ∧ r = .string := by
  revert h
  cases l <;> cases r <;> decide

namespace BinaryOperator

variable {d : Display} {op : BinaryOperator}

theorem combine_unstyled (l r : Value) : op.combine d.unstyled l r = op.combine d l r := by
  rfl

/-- An operand that has to be converted is not made a string. -/
theorem coerce_unstyled {k : Kind} {v : Value} (h : k = .string → v.kind = .string) :
    coerce d.unstyled k v = coerce d k v := by
  unfold coerce
  by_cases hkind : v.kind = k
  · rw [if_pos hkind, if_pos hkind]
  · rw [if_neg hkind, if_neg hkind, Value.convert_unstyled]
    rintro rfl
    exact hkind (h rfl)

theorem combineMet_unstyled (l r : Value) :
    op.combineMet d.unstyled l r = op.combineMet d l r := by
  cases hk : l.kind.join? r.kind with
  | none => simp only [combineMet, hk]
  | some k =>
    have hl : k = .string → l.kind = .string := by
      rintro rfl
      exact (kind_eq_string_of_join? hk).1
    have hr : k = .string → r.kind = .string := by
      rintro rfl
      exact (kind_eq_string_of_join? hk).2
    rw [combineMet_of_join? hk, combineMet_of_join? hk, coerce_unstyled hl, coerce_unstyled hr]
    simp only [combine_unstyled]

/-- The value has the same results with every other, whatever the settings for showing it. -/
def Plain (d : Display) (l : Value) : Prop :=
  ∀ (op : BinaryOperator) (r : Value), op.apply d.unstyled l r = op.apply d l r

theorem itemwise_unstyled {xs ys : List Value} (h : ∀ x ∈ xs, Plain d x) :
    itemwise d.unstyled op xs ys = itemwise d op xs ys := by
  induction xs generalizing ys with
  | nil => cases ys <;> rfl
  | cons x xs ih =>
    rw [List.forall_mem_cons] at h
    cases ys with
    | nil => rfl
    | cons y ys => rw [itemwise_cons, itemwise_cons, h.1, ih h.2]

theorem rowwise_unstyled {a b : List (List Value)} (h : ∀ row ∈ a, ∀ x ∈ row, Plain d x) :
    rowwise d.unstyled op a b = rowwise d op a b := by
  induction a generalizing b with
  | nil => cases b <;> rfl
  | cons x a ih =>
    rw [List.forall_mem_cons] at h
    cases b with
    | nil => rfl
    | cons y b =>
      by_cases hlen : x.length = y.length
      · rw [rowwise_cons _ _ _ _ hlen, rowwise_cons _ _ _ _ hlen, itemwise_unstyled h.1, ih h.2]
      · rw [rowwise, rowwise, if_neg hlen, if_neg hlen]

theorem dot_unstyled {xs ys : List Value} {sum : Value} (h : ∀ x ∈ xs, Plain d x) :
    dot d.unstyled xs sum ys = dot d xs sum ys := by
  induction xs generalizing sum ys with
  | nil => rfl
  | cons x xs ih =>
    rw [List.forall_mem_cons] at h
    cases ys with
    | nil => rfl
    | cons y ys =>
      rw [dot_cons, dot_cons, h.1]
      simp only [combineMet_unstyled, ih h.2]

theorem products_unstyled {a : List (List Value)} {cols : List (Option (List Value))}
    (h : ∀ row ∈ a, ∀ x ∈ row, Plain d x) :
    products d.unstyled a cols = products d a cols := by
  induction a with
  | nil => rfl
  | cons row a ih =>
    rw [List.forall_mem_cons] at h
    rw [products_cons, products_cons, ih h.2]
    simp only [dot_unstyled h.1]

/-- **An operation on two values does not depend on how values are shown.** -/
theorem apply_unstyled (l : Value) : Plain d l := by
  induction l with
  | vector xs ih =>
    intro op r
    cases r with
    | vector ys =>
      unfold apply
      simp only [itemwise_unstyled ih, dot_unstyled ih, combine_unstyled]
    | _ =>
      rw [apply_eq_combineMet _ op (by simp [Value.kind]), combineMet_unstyled,
        apply_eq_combineMet _ op (by simp [Value.kind])]
  | matrix a ih =>
    intro op r
    cases r with
    | matrix b =>
      unfold apply
      simp only [rowwise_unstyled ih, products_unstyled ih, combine_unstyled]
    | _ =>
      rw [apply_eq_combineMet _ op (by simp [Value.kind]), combineMet_unstyled,
        apply_eq_combineMet _ op (by simp [Value.kind])]
  | _ =>
    intro op r
    rw [apply_eq_combineMet _ op (by simp [Value.kind]), combineMet_unstyled,
      apply_eq_combineMet _ op (by simp [Value.kind])]

end BinaryOperator

/-! ## Literals -/

namespace Literal

variable {d : Display}

/-- A binary word without a letter after its digits. -/
def Unsuffixed (cs : List Char) : Prop :=
  cs.head? = some '#' ∧ cs.tail ≠ [] ∧ cs.tail.all Text.isHexDigit = true ∧ ¬Suffixed cs.tail

instance (cs : List Char) : Decidable (Unsuffixed cs) :=
  inferInstanceAs (Decidable (cs.head? = some '#' ∧ cs.tail ≠ [] ∧
    cs.tail.all Text.isHexDigit = true ∧ ¬Suffixed cs.tail))

theorem splitWord?_unstyled {cs : List Char} (h : ¬Unsuffixed cs) :
    splitWord? d.unstyled cs = splitWord? d cs := by
  unfold splitWord?
  split
  · rename_i ds
    cases hlast : ds.getLast? with
    | none => rfl
    | some c =>
      dsimp only
      split
      · rfl
      rename_i hsuffix
      by_cases hall : ds.all Text.isHexDigit = true
      · -- all are digits, and the last one names no base
        refine absurd ⟨rfl, ?_, hall, ?_⟩ h
        · rintro rfl
          cases hlast
        · rw [List.tail_cons, suffixed_iff hlast]
          rintro ⟨hbody, hc⟩
          refine hsuffix ⟨mem_suffixes_iff.mp hc, hbody, List.all_eq_true.mpr fun c hc => ?_⟩
          exact List.all_eq_true.mp hall c (List.dropLast_subset ds hc)
      · rw [if_neg hall, if_neg hall]
  · rfl

theorem readChars?_unstyled {cs : List Char} (h : ¬Unsuffixed cs) :
    readChars? d.unstyled cs = readChars? d cs := by
  unfold readChars?
  rw [splitWord?_unstyled h]
  rfl

/-- **A literal does not depend on how values are shown** if it is no binary word without a
letter for its base. -/
theorem parse_unstyled {word : String} (h : ¬Unsuffixed word.toList) :
    parse d.unstyled word = parse d word := by
  unfold parse
  split
  · rfl
  · rw [readChars?_unstyled h]

end Literal

end RpnCalculator
