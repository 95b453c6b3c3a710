import RpnCalculator.Proofs.Number.Sign
import RpnCalculator.Proofs.Value.Blindness
import RpnCalculator.Proofs.Value.Tower

/-!
# Comparisons

Six operators compare, in two ways.  Equality asks whether two values agree part by part, and it
is the same question for all kinds but words.  The other four ask for the order of two values,
and every kind that has an order has its own.  This file says that the two ways never disagree.

Operands are compared where they meet, in one kind.  There the order is an `Option Ordering`, which
is none if an operand is a NaN, and each of the six comparisons can be read off it
(`answers`, `combine_comparison`).  That equality can be read off it as well is where the two ways
are tied together (`equality_of_order?`).  All laws that connect the comparisons with each other are
then laws of `Ordering`, and the laws for exchanged operands rest on the order of exchanged
operands being the order turned round (`order?_swap`).

Strings are ordered, and so are the numbers that are not complex.  A NaN is met only where an
operand is one: a number that becomes a float can become an infinity, but no NaN
(`comparesNaN_iff`).
-/

namespace RpnCalculator

namespace BinaryOperator

variable {d : Display} {op : BinaryOperator}

/-! ## Orders -/

section

variable {α : Type} [LinearOrder α]

theorem orderOf_eq_iff {a b : α} : orderOf a b = .eq ↔ a = b := by
  rcases lt_trichotomy a b with h | rfl | h
  · simp [orderOf, h, h.ne]
  · simp [orderOf]
  · simp [orderOf, h.not_gt, h.ne']

theorem orderOf_swap (a b : α) : orderOf b a = (orderOf a b).swap := by
  rcases lt_trichotomy a b with h | rfl | h
  · simp [orderOf, h, h.not_gt, h.ne']
  · simp [orderOf]
  · simp [orderOf, h, h.not_gt, h.ne']

end

/-- Exchanged operands have the order turned round. -/
theorem order?_swap (l r : Value) :
    order? d r l = (order? d l r).map (Option.map Ordering.swap) := by
  cases l with
  | binary a =>
    cases r with
    | binary b => simp only [order?, Option.map_some, orderOf_swap (d.word a)]
    | _ => rfl
  | float x =>
    cases r with
    | float y => simp only [order?, Option.map_some, Double.compare?_swap x y]
    | _ => rfl
  | integer m =>
    cases r with
    | integer n => simp only [order?, Option.map_some, orderOf_swap m]
    | _ => rfl
  | rational p =>
    cases r with
    | rational q => simp only [order?, Option.map_some, orderOf_swap p.toRat]
    | _ => rfl
  | string s =>
    cases r with
    | string t => simp only [order?, Option.map_some, Text.compare_swap s t]
    | _ => rfl
  | _ => cases r <;> rfl

/-- What a comparison answers of operands in an order, or in none if one is a NaN. -/
def answers (op : BinaryOperator) : Option Ordering → Bool
  | some o => op.holds o
  | none => decide (op = .ne)

theorem answers_of_isEquality (hop : op.isEquality = true) (o : Option Ordering) :
    op.answers o = if op = .ne then !(o == some .eq) else o == some .eq := by
  cases op with
  | eq | ne => cases o with
    | none => rfl
    | some o => cases o <;> rfl
  | _ => cases hop

theorem beq_eq_orderOf {α : Type} [LinearOrder α] [BEq α] [LawfulBEq α] (a b : α) :
    (a == b) = (some (orderOf a b) == some Ordering.eq) := by
  rw [Bool.eq_iff_iff, beq_iff_eq, beq_iff_eq, Option.some.injEq, orderOf_eq_iff]

/-- **Values that have an order are equal when the order says so.** -/
theorem equality_of_order? {l r : Value} {o : Option Ordering} (h : order? d l r = some o)
    (hop : op.isEquality = true) : op.equality d l r = .truth (op.answers o) := by
  rw [answers_of_isEquality hop]
  unfold order? at h
  split at h
  · rw [← Option.some.inj h, ← beq_eq_orderOf]
    rfl
  · rw [← Option.some.inj h]
    simp only [equality, Value.equals, Double.equals]
  · rw [← Option.some.inj h, ← beq_eq_orderOf]
    simp only [equality, Value.equals]
  · rw [← Option.some.inj h, ← beq_eq_orderOf]
    simp only [equality, Value.equals]
  · rename_i s t
    have hsame : (s == t) = (some (Text.compare s t) == some Ordering.eq) := by
      rw [Bool.eq_iff_iff, beq_iff_eq, beq_iff_eq, Option.some.injEq, Text.compare_eq_iff]
    rw [← Option.some.inj h, ← hsame]
    simp only [equality, Value.equals]
  · cases h

/-- So every comparison of values that have an order is read off the order. -/
theorem combine_comparison {l r : Value} {o : Option Ordering} (h : order? d l r = some o)
    (hop : op.isComparison = true) : op.combine d l r = .ok (.truth (op.answers o)) := by
  unfold combine
  by_cases heq : op.isEquality = true
  · rw [if_pos heq, equality_of_order? h heq]
  · have hord : op.isOrdering = true := by
      rw [isComparison, Bool.or_eq_true] at hop
      exact hop.resolve_left heq
    rw [if_neg heq, if_pos hord, h]
    cases o with
    | some o => rfl
    | none => cases op <;> first | rfl | cases hord

/-! ## Operands -/

/-- Two strings, or two numbers that are not complex. -/
def Comparable (a b : Value) : Prop :=
  (a.kind = .string ∧ b.kind = .string) ∨
    (a.kind ∈ [Kind.binary, .float, .integer, .rational] ∧
      b.kind ∈ [Kind.binary, .float, .integer, .rational])

/-- One of two operands is a NaN in the kind in which they meet. -/
def ComparesNaN (d : Display) (a b : Value) : Prop :=
  ∃ k x, a.kind.join? b.kind = some k ∧
    (coerce d k a = .ok (.float x) ∨ coerce d k b = .ok (.float x)) ∧ x.isNaN = true

variable {a b : Value}

theorem Comparable.symm (h : Comparable a b) : Comparable b a := by
  rcases h with h | h
  · exact .inl h.symm
  · exact .inr h.symm

/-- Neither of two operands that can be compared holds values. -/
theorem Comparable.holdsValues (h : Comparable a b) :
    a.kind.holdsValues = false ∧ b.kind.holdsValues = false := by
  have hnumber : ∀ k ∈ [Kind.binary, .float, .integer, .rational], k.holdsValues = false := by
    decide
  rcases h with ⟨ha, hb⟩ | ⟨ha, hb⟩
  · rw [ha, hb]
    exact ⟨rfl, rfl⟩
  · exact ⟨hnumber _ ha, hnumber _ hb⟩

/-- They do not meet as containers either. -/
theorem Comparable.meets (h : Comparable a b) :
    ∀ k, a.kind.join? b.kind = some k → k.holdsValues = false := by
  intro k hk
  rw [← Bool.not_eq_true]
  intro hold
  obtain ⟨rfl, -⟩ := kinds_of_join? hk hold
  rw [h.holdsValues.1] at hold
  cases hold

/-- Operands that can be compared meet where there is an order. -/
theorem Comparable.exists_order? (h : Comparable a b) :
    ∃ k a' b' o, a.kind.join? b.kind = some k ∧ coerce d k a = .ok a' ∧ coerce d k b = .ok b' ∧
      order? d a' b' = some o := by
  cases a <;> cases b <;> simp [Comparable, Value.kind] at h <;>
    exact ⟨_, _, _, _, rfl, rfl, rfl, rfl⟩

/-! ## Operands that are NaN -/

/-- An order has no answer if one of the values is a NaN. -/
theorem eq_none_iff_of_order? {l r : Value} {o : Option Ordering} (h : order? d l r = some o) :
    o = none ↔ ∃ x, (l = .float x ∨ r = .float x) ∧ x.isNaN = true := by
  unfold order? at h
  split at h
  case h_2 x y =>
    rw [← Option.some.inj h, Double.compare?_eq_none_iff, Bool.or_eq_true]
    simp only [Value.float.injEq]
    constructor
    · rintro (hx | hy)
      · exact ⟨x, .inl rfl, hx⟩
      · exact ⟨y, .inr rfl, hy⟩
    · rintro ⟨z, rfl | rfl, hz⟩
      · exact .inl hz
      · exact .inr hz
  case h_6 => cases h
  all_goals
    rw [← Option.some.inj h]
    simp

/-- No number becomes a NaN on its way to another kind. -/
theorem eq_float_of_coerce {k : Kind} {v : Value} {x : Double}
    (h : coerce d k v = .ok (.float x)) (hx : x.isNaN = true) : v = .float x := by
  obtain rfl : k = .float := (kind_of_coerce h).symm
  have hfinite {negative : Bool} {y : Double} (hy : y.HasSign negative) (hyx : y = x) : False := by
    rw [← hyx, hy.isNaN] at hx
    cases hx
  cases v with
  | float y => exact Except.ok.inj h
  | binary bits => exact (hfinite (Double.hasSign_ofNat _) (Value.float.inj (Except.ok.inj h))).elim
  | integer n => exact (hfinite (Double.hasSign_ofInt _) (Value.float.inj (Except.ok.inj h))).elim
  | rational q => exact (hfinite (Double.hasSign_ofRat _) (Value.float.inj (Except.ok.inj h))).elim
  | _ => cases h

/-- **A NaN is met only where an operand is one.** -/
theorem Comparable.comparesNaN_iff (h : Comparable a b) :
    ComparesNaN d a b ↔ ∃ x, (a = .float x ∨ b = .float x) ∧ x.isNaN = true := by
  constructor
  · rintro ⟨k, x, -, ha | hb, hx⟩
    · exact ⟨x, .inl (eq_float_of_coerce ha hx), hx⟩
    · exact ⟨x, .inr (eq_float_of_coerce hb hx), hx⟩
  · rintro ⟨x, rfl | rfl, hx⟩
    · refine ⟨.float, x, ?_, .inl rfl, hx⟩
      cases b <;> simp [Comparable, Value.kind] at h <;> rfl
    · refine ⟨.float, x, ?_, .inr rfl, hx⟩
      cases a <;> simp [Comparable, Value.kind] at h <;> rfl

/-! ## The six comparisons -/

/-- Operands that meet are compared by their order there. -/
theorem Comparable.apply_of_order? (h : Comparable a b) {k : Kind} {a' b' : Value}
    {o : Option Ordering} (hk : a.kind.join? b.kind = some k) (ha : coerce d k a = .ok a')
    (hb : coerce d k b = .ok b') (ho : order? d a' b' = some o) (hop : op.isComparison = true) :
    op.apply d a b = .ok (.truth (op.answers o)) := by
  rw [apply_eq_combineMet d op (not_sequence_of_meets h.meets), combineMet_of_join? hk, ha, hb]
  exact combine_comparison ho hop

/-- **All comparisons of two operands are read off one order**, which is turned round when the
operands are exchanged, and is missing when one of them is a NaN. -/
theorem Comparable.exists_answers (d : Display) (h : Comparable a b) :
    ∃ o, (∀ op : BinaryOperator, op.isComparison = true →
        op.apply d a b = .ok (.truth (op.answers o)) ∧
        op.apply d b a = .ok (.truth (op.answers (o.map Ordering.swap)))) ∧
      (o = none ↔ ComparesNaN d a b) := by
  obtain ⟨k, a', b', o, hk, ha, hb, ho⟩ := h.exists_order? (d := d)
  have hk' : b.kind.join? a.kind = some k := by rw [Kind.join?_comm, hk]
  have ho' : order? d b' a' = some (o.map Ordering.swap) := by rw [order?_swap, ho, Option.map_some]
  refine ⟨o, fun op hop => ⟨?_, ?_⟩, ?_⟩
  · exact h.apply_of_order? hk ha hb ho hop
  · exact h.symm.apply_of_order? hk' hb ha ho' hop
  · rw [eq_none_iff_of_order? ho]
    constructor
    · rintro ⟨x, hx, hnan⟩
      refine ⟨k, x, hk, ?_, hnan⟩
      rcases hx with rfl | rfl
      · exact .inl ha
      · exact .inr hb
    · rintro ⟨l, x, hl, hx, hnan⟩
      obtain rfl : k = l := Option.some.inj (hk.symm.trans hl)
      rw [ha, hb] at hx
      exact ⟨x, hx.imp Except.ok.inj Except.ok.inj, hnan⟩

theorem answers_ne (o : Option Ordering) : answers .ne o = !answers .eq o := by
  cases o with
  | none => rfl
  | some o => cases o <;> rfl

/-- Exchanged operands have the answers of the comparison that is the other way round. -/
theorem answers_swap (o : Option Ordering) :
    answers .gt (o.map Ordering.swap) = answers .lt o ∧
      answers .ge (o.map Ordering.swap) = answers .le o ∧
      answers .eq (o.map Ordering.swap) = answers .eq o := by
  cases o with
  | none => decide
  | some o => cases o <;> decide

/-- Of two operands in an order one is smaller, or they are equal. -/
theorem answers_some (o : Ordering) :
    [answers .lt (some o), answers .eq (some o), answers .gt (some o)].count true = 1 ∧
      answers .le (some o) = (answers .lt (some o) || answers .eq (some o)) ∧
      answers .ge (some o) = (answers .gt (some o) || answers .eq (some o)) := by
  cases o <;> decide

/-- What looks like an operand is compared like it. -/
theorem Comparable.apply_alike (h : Comparable a b) {a' b' : Value} (ha : a.Alike d a')
    (hb : b.Alike d b') (hop : op.isComparison = true) : op.apply d a' b' = op.apply d a b := by
  rw [Value.alike_iff] at ha hb
  have hkind : a.kind = a'.kind ∧ b.kind = b'.kind := by
    rw [← Value.kind_visible a, ha, ← Value.kind_visible b, hb]
    exact ⟨Value.kind_visible _, Value.kind_visible _⟩
  have h' : Comparable a' b' := by rwa [Comparable, ← hkind.1, ← hkind.2]
  have hseen : op.apply d (a.visible d) (b.visible d) = _ := apply_visible fun _ => h.meets
  rw [ha, hb, apply_visible fun _ => h'.meets] at hseen
  -- both results are truth values, and those are seen as they are
  obtain ⟨o, hanswers, -⟩ := h.exists_answers d
  obtain ⟨o', hanswers', -⟩ := h'.exists_answers d
  rw [(hanswers op hop).1, (hanswers' op hop).1] at hseen ⊢
  exact hseen

/-- **Comparisons are coherent.**  Two strings are compared, and any two numbers that are not
complex, and all six comparisons answer.  The answers contradict each other nowhere: neither
inequality and equality, nor the answers to exchanged operands, nor equality and the order.
Operands are in exactly one of three orders, unless one is a NaN, and then only the inequality
holds.  Of a word only the visible part is compared. -/
theorem comparisons_cohere (d : Display) {a b : Value} (h : Comparable a b) :
    ∃ holds holds' : BinaryOperator → Bool,
      (∀ op : BinaryOperator, op.isComparison = true →
        op.apply d a b = .ok (.truth (holds op)) ∧ op.apply d b a = .ok (.truth (holds' op))) ∧
      holds .ne = !holds .eq ∧
      (holds .lt = holds' .gt ∧ holds .le = holds' .ge ∧ holds .eq = holds' .eq) ∧
      (¬ComparesNaN d a b →
        [holds .lt, holds .eq, holds .gt].count true = 1 ∧
        holds .le = (holds .lt || holds .eq) ∧ holds .ge = (holds .gt || holds .eq)) ∧
      (ComparesNaN d a b →
        ∀ op : BinaryOperator, op.isComparison = true → (holds op = true ↔ op = .ne)) ∧
      (ComparesNaN d a b ↔ ∃ x, (a = .float x ∨ b = .float x) ∧ x.isNaN = true) ∧
      (∀ a' b', a.Alike d a' → b.Alike d b' → ∀ op : BinaryOperator, op.isComparison = true →
        op.apply d a' b' = op.apply d a b) := by
  obtain ⟨o, hanswers, hnan⟩ := h.exists_answers d
  obtain ⟨hlt, hle, heq⟩ := answers_swap o
  refine ⟨fun op => op.answers o, fun op => op.answers (o.map Ordering.swap), hanswers,
    answers_ne o, ⟨hlt.symm, hle.symm, heq.symm⟩, ?_, ?_, h.comparesNaN_iff, ?_⟩
  · intro hordered
    obtain ⟨r, rfl⟩ := Option.ne_none_iff_exists'.mp (mt hnan.mp hordered)
    exact answers_some r
  · intro hnone op _
    rw [hnan.mpr hnone]
    exact decide_eq_true_iff
  · intro a' b' ha hb op hop
    exact h.apply_alike ha hb hop

/-- Where words have eight bits, a word of nine bits is met by its visible part 255, which is less
than 511/2; so the fraction is greater than the word, also if the hidden bit is gone.  Of a NaN
and a word only the inequality holds. -/
theorem comparisons_cohere_narrowed :
    (Comparable (.binary 0x1FF) (.rational ⟨511, 2⟩) ∧
      BinaryOperator.lt.apply Value.eightBits (.binary 0x1FF) (.rational ⟨511, 2⟩) =
        .ok (.integer 1) ∧
      BinaryOperator.gt.apply Value.eightBits (.rational ⟨511, 2⟩) (.binary 0x1FF) =
        .ok (.integer 1) ∧
      BinaryOperator.lt.apply Value.eightBits (.binary 0xFF) (.rational ⟨511, 2⟩) =
        .ok (.integer 1)) ∧
    (Comparable (.float .nan) (.binary 5) ∧
      ∀ op : BinaryOperator, op.isComparison = true →
        op.apply Value.eightBits (.float .nan) (.binary 5) = .ok (.truth (op = .ne))) := by
  have hword : Comparable (.binary 0x1FF) (.rational ⟨511, 2⟩) := by
    simp [Comparable, Value.kind]
  have horder : order? Value.eightBits (.rational (.ofInt 255)) (.rational ⟨511, 2⟩) =
      some (some .lt) := by
    decide +kernel
  have hless : BinaryOperator.lt.apply Value.eightBits (.binary 0x1FF) (.rational ⟨511, 2⟩) =
      .ok (.truth true) := hword.apply_of_order? rfl rfl rfl horder rfl
  have hnan : Comparable (.float .nan) (.binary 5) := by
    simp [Comparable, Value.kind]
  obtain ⟨holds, holds', hall, -, ⟨hlt, -⟩, -, -, -, halike⟩ :=
    comparisons_cohere Value.eightBits hword
  obtain ⟨holdsNaN, _, hallNaN, -, -, -, hnone, hiff, -⟩ :=
    comparisons_cohere Value.eightBits hnan
  refine ⟨⟨hword, hless, ?_, ?_⟩, hnan, ?_⟩
  · rw [(hall .gt rfl).2, ← hlt, ← (hall .lt rfl).1, hless]
    rfl
  · rw [halike _ _ Value.alike_narrowed (Value.alike_iff.mpr rfl) .lt rfl, hless]
    rfl
  · intro op hop
    have hne := hnone (hiff.mpr ⟨.nan, .inl rfl, rfl⟩) op hop
    rw [(hallNaN op hop).1, Bool.eq_iff_iff.mpr (hne.trans decide_eq_true_iff.symm)]

end BinaryOperator

end RpnCalculator
