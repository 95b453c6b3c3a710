import RpnCalculator.Proofs.Value.Conversion
import RpnCalculator.Proofs.Value.Visible
import RpnCalculator.Value.Arithmetic
import RpnCalculator.Value.Functions

/-!
# Operations do not see hidden bits

What is seen of the result of an operation is the result of the operation on what is seen of
its operands (`BinaryOperator.apply_visible`).  An operation on one value does not hand
anything hidden on either: it has the same result on a value and on what is seen of it
(`UnaryOperator.apply_visible`).  So values that look alike are told apart by no operation, no
conversion and no text (`Value.hidden_bits_unobserved`).

## The exception

An equality of two containers of one kind is the equality of all that they hold
(`BinaryOperator.apply_equality`), and that compares the stored bits of words, where the
equality of two words compares the visible ones.  So a narrowed word can differ, as the item
of a vector, from a word that it equals on its own (`Value.hidden_bits_observed`).  The error
goes one way only: containers that are found equal are equal as they are seen
(`Value.equals_visible`).

## How the statement goes through sequences

The equation for an operation is stated with `Except.map`, and the functions on sequences are
folds in `Except`; the two meet in `map_cons_seq`, which moves a function on items over a
result that is put in front of others.  The induction is on the left operand, as the recursion
of the operation is.
-/

namespace RpnCalculator

/-- Whether the values of a kind hold other values. -/
def Kind.holdsValues : Kind → Bool
  | .directory | .labeled | .list | .matrix | .vector => true
  | _ => false

namespace Value

/-- The value has no hidden bits, at any depth. -/
def Shown (d : Display) (v : Value) : Prop := v.visible d = v

variable {d : Display}

@[simp] theorem shown_complex (z : Complex) : (complex z).Shown d := rfl

@[simp] theorem shown_float (x : Double) : (float x).Shown d := rfl

@[simp] theorem shown_integer (n : Int) : (integer n).Shown d := rfl

@[simp] theorem shown_ofRat (q : Rat) : (ofRat q).Shown d := rfl

@[simp] theorem shown_ofWord (n : Nat) : (ofWord d n).Shown d := visible_ofWord n

/-- Nothing is hidden of a result in which nothing is hidden. -/
theorem map_visible_of_shown {r : Except Fault Value}
    (h : Ends (Shown d) (fun _ => True) r) : r.map (visible d) = r := by
  cases r with
  | ok v => exact congrArg Except.ok h
  | error f => rfl

end Value

/-- A function of items goes over a result that is put in front of others. -/
theorem map_cons_seq {ε α β : Type} {r : Except ε α} {rs : Except ε (List α)} (f : α → β) :
    (r.map f >>= fun b => (rs.map (List.map f)).map (b :: ·)) =
      (r >>= fun a => rs.map (a :: ·)).map (List.map f) := by
  cases r with
  | error e => rfl
  | ok a => cases rs <;> rfl

/-- Equal values are of one kind. -/
theorem Value.kind_eq_of_equals {l r : Value} (h : l.equals r = true) : l.kind = r.kind := by
  unfold Value.equals at h
  split at h
  all_goals first | rfl | cases h

/-! ## One value -/

namespace UnaryOperator

variable {d : Display}

theorem negateItems_visible {vs : List Value}
    (h : ∀ v ∈ vs, ∀ op : UnaryOperator, op.apply d (v.visible d) = op.apply d v) :
    negateItems d (vs.map (Value.visible d)) = negateItems d vs := by
  induction vs with
  | nil => rfl
  | cons v vs ih =>
    rw [List.forall_mem_cons] at h
    rw [List.map_cons, negateItems_cons, negateItems_cons, h.1, ih h.2]

theorem negateRows_visible {rows : List (List Value)}
    (h : ∀ row ∈ rows, ∀ v ∈ row, ∀ op : UnaryOperator,
      op.apply d (v.visible d) = op.apply d v) :
    negateRows d (rows.map (List.map (Value.visible d))) = negateRows d rows := by
  induction rows with
  | nil => rfl
  | cons row rows ih =>
    rw [List.forall_mem_cons] at h
    rw [List.map_cons, negateRows_cons, negateRows_cons, negateItems_visible h.1, ih h.2]

theorem sumOfSquares_visible {vs : List Value} {sum : Double}
    (h : ∀ v ∈ vs, ∀ op : UnaryOperator, op.apply d (v.visible d) = op.apply d v) :
    sumOfSquares d sum (vs.map (Value.visible d)) = sumOfSquares d sum vs := by
  induction vs generalizing sum with
  | nil => rfl
  | cons v vs ih =>
    rw [List.forall_mem_cons] at h
    rw [List.map_cons, sumOfSquares_cons, sumOfSquares_cons, h.1]
    simp only [ih h.2]

/-- **An operation on one value does not see hidden bits**, and its result has none. -/
theorem apply_visible (op : UnaryOperator) (v : Value) :
    op.apply d (v.visible d) = op.apply d v := by
  induction v generalizing op with
  | binary bits =>
    rw [Value.visible_binary, apply, apply, Value.word_bitsOf_word]
  | vector items ih =>
    rw [Value.visible_vector]
    unfold apply
    rw [negateItems_visible ih, sumOfSquares_visible ih]
  | matrix rows ih =>
    rw [Value.visible_matrix]
    unfold apply
    rw [negateRows_visible ih]
  | _ => simp [apply, Value.kind]

end UnaryOperator

/-! ## Two values of one kind -/

namespace BinaryOperator

open Value (Shown)

variable {d : Display} {op : BinaryOperator}

theorem shown_onWords (op : BinaryOperator) (a b : Nat) :
    Ends (Shown d) (fun _ => True) (op.onWords d a b) := by
  cases op <;> simp [onWords, outside, unsupported]

theorem shown_onComplex (op : BinaryOperator) (z w : Complex) :
    Ends (Shown d) (fun _ => True) (op.onComplex z w) := by
  cases op <;> simp [onComplex, outside, unsupported]

theorem shown_floatPow (x y : Double) : (floatPow x y).Shown d := by
  unfold floatPow
  split
  · exact Value.shown_complex _
  · exact Value.shown_float _

theorem shown_onFloats (op : BinaryOperator) (x y : Double) :
    Ends (Shown d) (fun _ => True) (op.onFloats x y) := by
  cases op <;> simp [onFloats, outside, unsupported, shown_floatPow]

theorem shown_onIntegers (op : BinaryOperator) (m n : Int) :
    Ends (Shown d) (fun _ => True) (op.onIntegers m n) := by
  cases op <;> simp [onIntegers, integerPow, outside, unsupported]

theorem shown_onRationals (op : BinaryOperator) (p q : Rat) :
    Ends (Shown d) (fun _ => True) (op.onRationals p q) := by
  cases op <;> simp [onRationals, rationalPow, outside, unsupported, shown_onFloats]

/-- Values of two kinds are not equal. -/
theorem equality_of_kind_ne {l r : Value} (h : l.kind ≠ r.kind) :
    op.equality d l r = .truth (if op = .ne then true else false) := by
  have hequals : l.equals r = false := by
    rw [Bool.eq_false_iff]
    exact fun heq => h (Value.kind_eq_of_equals heq)
  rw [equality, hequals]
  · rfl
  · rintro a b rfl rfl
    exact h rfl

/-- An equality does not see hidden bits, unless it looks into a container. -/
theorem equality_visible {l r : Value} (h : l.kind.holdsValues = false) :
    op.equality d (l.visible d) (r.visible d) = op.equality d l r := by
  by_cases hkind : l.kind = r.kind
  · cases l with
    | directory es | labeled label v | list items | matrix rows | vector items => cases h
    | binary a =>
      cases r with
      | binary b => simp only [Value.visible_binary, equality, Value.word_bitsOf_word]
      | _ => cases hkind
    | _ => cases r <;> first | rfl | cases hkind
  · rw [equality_of_kind_ne hkind, equality_of_kind_ne (by simpa using hkind)]

theorem order?_visible (l r : Value) : order? d (l.visible d) (r.visible d) = order? d l r := by
  cases l with
  | binary a =>
    cases r with
    | binary b => simp only [Value.visible_binary, order?, Value.word_bitsOf_word]
    | _ => rfl
  | _ => cases r <;> rfl

/-- Of values of one kind only lists hand anything on, and they hand on what they hold. -/
theorem combine_visible {l r : Value} (h : op.isEquality = true → l.kind.holdsValues = false) :
    op.combine d (l.visible d) (r.visible d) = (op.combine d l r).map (Value.visible d) := by
  by_cases heq : op.isEquality = true
  · unfold combine
    rw [if_pos heq, if_pos heq, equality_visible (h heq)]
    rfl
  by_cases hord : op.isOrdering = true
  · unfold combine
    rw [if_neg heq, if_neg heq, if_pos hord, if_pos hord, order?_visible, Value.kind_visible]
    split <;> rfl
  · unfold combine
    rw [if_neg heq, if_neg heq, if_neg hord, if_neg hord]
    cases l with
    | binary a =>
      cases r with
      | binary b =>
        simp only [Value.visible_binary, Value.word_bitsOf_word]
        exact (Value.map_visible_of_shown (shown_onWords op _ _)).symm
      | _ => rfl
    | complex z =>
      cases r with
      | complex w => exact (Value.map_visible_of_shown (shown_onComplex op z w)).symm
      | _ => rfl
    | float x =>
      cases r with
      | float y => exact (Value.map_visible_of_shown (shown_onFloats op x y)).symm
      | _ => rfl
    | integer m =>
      cases r with
      | integer n => exact (Value.map_visible_of_shown (shown_onIntegers op m n)).symm
      | _ => rfl
    | rational p =>
      cases r with
      | rational q => exact (Value.map_visible_of_shown (shown_onRationals op _ _)).symm
      | _ => rfl
    | string s =>
      cases r with
      | string t =>
        dsimp only [Value.visible_string]
        split <;> rfl
      | _ => rfl
    | list a =>
      cases r with
      | list b =>
        simp only [Value.visible_list]
        split
        · rw [← List.map_append, ← Value.visible_list]
          rfl
        · rfl
      | _ => rfl
    | _ => rfl

theorem coerce_visible (k : Kind) (v : Value) :
    coerce d k (v.visible d) = (coerce d k v).map (Value.visible d) := by
  rw [coerce, coerce, Value.kind_visible]
  split
  · rfl
  · exact Value.convert_visible k v

/-- What is brought to a kind is of that kind. -/
theorem kind_of_coerce {k : Kind} {v w : Value} (h : coerce d k v = .ok w) : w.kind = k := by
  rw [coerce] at h
  split at h
  · rename_i hkind
    rwa [← Except.ok.inj h]
  · exact Value.kind_of_convert h

/-- Values that meet are converted first, and an equality sees hidden bits if they meet as
containers. -/
theorem combineMet_visible {l r : Value}
    (h : op.isEquality = true → ∀ k, l.kind.join? r.kind = some k → k.holdsValues = false) :
    op.combineMet d (l.visible d) (r.visible d) =
      (op.combineMet d l r).map (Value.visible d) := by
  cases hk : l.kind.join? r.kind with
  | none => simp [combineMet, hk, Except.map]
  | some k =>
    have hk' : (l.visible d).kind.join? (r.visible d).kind = some k := by simpa using hk
    rw [combineMet_of_join? hk, combineMet_of_join? hk', coerce_visible, coerce_visible]
    cases hl : coerce d k l with
    | error f => rfl
    | ok l' =>
      cases coerce d k r with
      | error f => rfl
      | ok r' =>
        refine combine_visible fun heq => ?_
        rw [kind_of_coerce hl]
        exact h heq k hk

/-! ## Sequences -/

theorem collect_visible {α α' β : Type} {f : α → Except Fault β} {f' : α' → Except Fault β}
    {g : α → α'} {h : β → β} {as : List α} (hf : ∀ a ∈ as, f' (g a) = (f a).map h) :
    collect f' (as.map g) = (collect f as).map (List.map h) := by
  induction as with
  | nil => rfl
  | cons a as ih =>
    rw [List.forall_mem_cons] at hf
    rw [List.map_cons, collect_cons, collect_cons, hf.1, ih hf.2, map_cons_seq]

theorem mapM_getElem?_visible (rows : List (List Value)) (j : Nat) :
    ((rows.map (List.map (Value.visible d))).mapM fun row => row[j]?) =
      (rows.mapM fun row => row[j]?).map (List.map (Value.visible d)) := by
  induction rows with
  | nil => rfl
  | cons row rows ih =>
    rw [List.map_cons, List.mapM_cons, List.mapM_cons, ih, List.getElem?_map]
    cases row[j]? with
    | none => rfl
    | some v => cases rows.mapM fun row => row[j]? <;> rfl

theorem length_headD_visible (rows : List (List Value)) :
    ((rows.map (List.map (Value.visible d))).headD []).length = (rows.headD []).length := by
  cases rows <;> simp

theorem columns_visible (rows : List (List Value)) :
    columns (rows.map (List.map (Value.visible d))) =
      (columns rows).map (Option.map (List.map (Value.visible d))) := by
  rw [columns, columns, length_headD_visible, List.map_map]
  exact List.map_congr_left fun j _ => mapM_getElem?_visible rows j

/-- The operation does not see hidden bits of the value, whatever it is combined with. -/
def Blind (d : Display) (v : Value) : Prop :=
  ∀ op : BinaryOperator, ¬op.isEquality = true → ∀ w : Value,
    op.apply d (v.visible d) (w.visible d) = (op.apply d v w).map (Value.visible d)

theorem itemwise_visible (hop : ¬op.isEquality = true) {xs ys : List Value}
    (hb : ∀ x ∈ xs, Blind d x) :
    itemwise d op (xs.map (Value.visible d)) (ys.map (Value.visible d)) =
      (itemwise d op xs ys).map (List.map (Value.visible d)) := by
  induction xs generalizing ys with
  | nil => cases ys <;> rfl
  | cons x xs ih =>
    rw [List.forall_mem_cons] at hb
    cases ys with
    | nil => rfl
    | cons y ys =>
      rw [List.map_cons, List.map_cons, itemwise_cons, itemwise_cons, hb.1 op hop y, ih hb.2,
        map_cons_seq]

theorem rowwise_visible (hop : ¬op.isEquality = true) {a b : List (List Value)}
    (hb : ∀ row ∈ a, ∀ x ∈ row, Blind d x) :
    rowwise d op (a.map (List.map (Value.visible d))) (b.map (List.map (Value.visible d))) =
      (rowwise d op a b).map (List.map (List.map (Value.visible d))) := by
  induction a generalizing b with
  | nil => cases b <;> rfl
  | cons x a ih =>
    rw [List.forall_mem_cons] at hb
    cases b with
    | nil => rfl
    | cons y b =>
      rw [List.map_cons, List.map_cons]
      by_cases hlen : x.length = y.length
      · have hlen' : (x.map (Value.visible d)).length = (y.map (Value.visible d)).length := by
          simpa using hlen
        rw [rowwise_cons d op _ _ hlen, rowwise_cons d op _ _ hlen', itemwise_visible hop hb.1,
          ih hb.2, map_cons_seq]
      · rw [rowwise, rowwise, if_neg hlen, if_neg (by simpa using hlen)]
        rfl

/-- The sum that is carried along is seen as well. -/
theorem dot_visible (sum : Value) {xs ys : List Value} (hb : ∀ x ∈ xs, Blind d x) :
    dot d (xs.map (Value.visible d)) (sum.visible d) (ys.map (Value.visible d)) =
      (dot d xs sum ys).map (Value.visible d) := by
  induction xs generalizing sum ys with
  | nil => rfl
  | cons x xs ih =>
    rw [List.forall_mem_cons] at hb
    cases ys with
    | nil => rfl
    | cons y ys =>
      rw [List.map_cons, List.map_cons, dot_cons, dot_cons, hb.1 .mul (by decide) y]
      cases BinaryOperator.mul.apply d x y with
      | error f => rfl
      | ok p =>
        -- the next sum is again a value of which something may be hidden
        show (BinaryOperator.add.combineMet d (sum.visible d) (p.visible d) >>= _) =
          (BinaryOperator.add.combineMet d sum p >>= fun s => dot d xs s ys).map _
        rw [combineMet_visible fun heq => absurd heq (by decide)]
        cases BinaryOperator.add.combineMet d sum p with
        | error f => rfl
        | ok s => exact ih s hb.2

theorem products_visible {a : List (List Value)} {cols : List (Option (List Value))}
    (hb : ∀ row ∈ a, ∀ x ∈ row, Blind d x) :
    products d (a.map (List.map (Value.visible d)))
        (cols.map (Option.map (List.map (Value.visible d)))) =
      (products d a cols).map (List.map (List.map (Value.visible d))) := by
  induction a with
  | nil => rfl
  | cons row a ih =>
    rw [List.forall_mem_cons] at hb
    rw [List.map_cons, products_cons, products_cons, ih hb.2, collect_visible, map_cons_seq]
    intro col _
    cases col with
    | none => rfl
    | some col =>
      simp only [Option.map_some, List.length_map]
      split
      · exact dot_visible (.integer 0) hb.1
      · rfl

/-- Unless they are combined item by item, two values only have to meet. -/
theorem apply_visible_of_met {l r : Value}
    (h : l.kind = r.kind → l.kind ≠ .vector ∧ l.kind ≠ .matrix)
    (heq : op.isEquality = true → ∀ k, l.kind.join? r.kind = some k → k.holdsValues = false) :
    op.apply d (l.visible d) (r.visible d) = (op.apply d l r).map (Value.visible d) := by
  have h' : (l.visible d).kind = (r.visible d).kind →
      (l.visible d).kind ≠ .vector ∧ (l.visible d).kind ≠ .matrix := by simpa using h
  rw [apply_eq_combineMet d op h, apply_eq_combineMet d op h', combineMet_visible heq]

theorem apply_visible_vector (hop : ¬op.isEquality = true) {xs ys : List Value}
    (hb : ∀ x ∈ xs, Blind d x) :
    op.apply d (.vector (xs.map (Value.visible d))) (.vector (ys.map (Value.visible d))) =
      (op.apply d (.vector xs) (.vector ys)).map (Value.visible d) := by
  have hcombine := combine_visible (d := d) (l := .vector xs) (r := .vector ys)
    fun heq => absurd heq hop
  rw [Value.visible_vector, Value.visible_vector] at hcombine
  unfold apply
  cases op with
  | add | sub =>
    simp only [List.length_map]
    split
    · rw [itemwise_visible hop hb]
      cases itemwise d _ xs ys <;> simp [Except.map]
    · rfl
  | mul =>
    simp only [List.length_map]
    split
    · exact dot_visible (.integer 0) hb
    · rfl
  | _ => exact hcombine

theorem apply_visible_matrix (hop : ¬op.isEquality = true) {a b : List (List Value)}
    (hb : ∀ row ∈ a, ∀ x ∈ row, Blind d x) :
    op.apply d (.matrix (a.map (List.map (Value.visible d))))
        (.matrix (b.map (List.map (Value.visible d)))) =
      (op.apply d (.matrix a) (.matrix b)).map (Value.visible d) := by
  have hcombine := combine_visible (d := d) (l := .matrix a) (r := .matrix b)
    fun heq => absurd heq hop
  rw [Value.visible_matrix, Value.visible_matrix] at hcombine
  unfold apply
  cases op with
  | add | sub =>
    simp only [List.length_map]
    split
    · rw [rowwise_visible hop hb]
      cases rowwise d _ a b <;> simp [Except.map]
    · rfl
  | mul =>
    simp only [length_headD_visible, List.length_map, columns_visible]
    split
    · rw [products_visible hb]
      cases products d a (columns b) <;> simp [Except.map]
    · rfl
  | _ => exact hcombine

/-- **No operation but an equality sees hidden bits.** -/
theorem blind (l : Value) : Blind d l := by
  induction l with
  | vector xs ih =>
    intro op hop r
    cases r with
    | vector ys =>
      rw [Value.visible_vector, Value.visible_vector]
      exact apply_visible_vector hop ih
    | _ => exact apply_visible_of_met (by simp [Value.kind]) fun heq => absurd heq hop
  | matrix a ih =>
    intro op hop r
    cases r with
    | matrix b =>
      rw [Value.visible_matrix, Value.visible_matrix]
      exact apply_visible_matrix hop ih
    | _ => exact apply_visible_of_met (by simp [Value.kind]) fun heq => absurd heq hop
  | _ =>
    intro op hop r
    exact apply_visible_of_met (by simp [Value.kind]) fun heq => absurd heq hop

/-- Values of one kind that do not meet as containers are no sequences. -/
theorem not_sequence_of_meets {l r : Value}
    (h : ∀ k, l.kind.join? r.kind = some k → k.holdsValues = false) :
    l.kind = r.kind → l.kind ≠ .vector ∧ l.kind ≠ .matrix := by
  intro hkind
  have hself := h l.kind
  rw [← hkind, Kind.join?_self] at hself
  split at hself
  · rename_i hdirectory
    rw [hdirectory]
    decide
  · have hheld : l.kind.holdsValues = false := hself rfl
    constructor <;>
      · intro hsequence
        rw [hsequence] at hheld
        cases hheld

/-- **What is seen of the result of an operation is the result on what is seen**, unless the
operation is an equality and the operands meet as containers. -/
theorem apply_visible {l r : Value}
    (h : op.isEquality = true → ∀ k, l.kind.join? r.kind = some k → k.holdsValues = false) :
    op.apply d (l.visible d) (r.visible d) = (op.apply d l r).map (Value.visible d) := by
  by_cases hop : op.isEquality = true
  · exact apply_visible_of_met (not_sequence_of_meets (h hop)) h
  · exact blind l op hop r

/-! ## Equality of containers -/

/-- Values that meet as containers are containers of one kind. -/
theorem kinds_of_join? {k l m : Kind} (h : k.join? l = some m) (hold : m.holdsValues = true) :
    k = m ∧ l = m := by
  cases k <;> cases l <;> cases h <;> first | exact ⟨rfl, rfl⟩ | cases hold

/-- **An equality of containers** is the equality of what is stored in them. -/
theorem apply_equality (hop : op.isEquality = true) {l r : Value} {k : Kind}
    (hk : l.kind.join? r.kind = some k) (hold : k.holdsValues = true) :
    op.apply d l r = .ok (.truth (if op = .ne then !l.equals r else l.equals r)) := by
  obtain ⟨hl, hr⟩ := kinds_of_join? hk hold
  subst hl
  cases op with
  | eq | ne =>
    -- of one kind, only words are compared otherwise, and directories do not meet
    cases l <;> cases r <;> cases hr <;>
      first
      | rfl
      | (cases hold; done)
      | cases hk
  | _ => cases hop

end BinaryOperator

namespace Value

variable {d : Display}

theorem itemsEqual_visible {vs ws : List Value}
    (h : ∀ v ∈ vs, ∀ w, v.equals w = true → (v.visible d).equals (w.visible d) = true)
    (heq : itemsEqual vs ws = true) :
    itemsEqual (vs.map (visible d)) (ws.map (visible d)) = true := by
  induction vs generalizing ws with
  | nil => cases ws <;> simp [itemsEqual] at heq ⊢
  | cons v vs ih =>
    rw [List.forall_mem_cons] at h
    cases ws with
    | nil => simp [itemsEqual] at heq
    | cons w ws =>
      rw [itemsEqual, Bool.and_eq_true] at heq
      rw [List.map_cons, List.map_cons, itemsEqual, h.1 w heq.1, ih h.2 heq.2]
      rfl

theorem rowsEqual_visible {rows rows' : List (List Value)}
    (h : ∀ row ∈ rows, ∀ v ∈ row, ∀ w,
      v.equals w = true → (v.visible d).equals (w.visible d) = true)
    (heq : rowsEqual rows rows' = true) :
    rowsEqual (rows.map (List.map (visible d))) (rows'.map (List.map (visible d))) = true := by
  induction rows generalizing rows' with
  | nil => cases rows' <;> simp [rowsEqual] at heq ⊢
  | cons row rows ih =>
    rw [List.forall_mem_cons] at h
    cases rows' with
    | nil => simp [rowsEqual] at heq
    | cons row' rows' =>
      rw [rowsEqual, Bool.and_eq_true] at heq
      rw [List.map_cons, List.map_cons, rowsEqual, itemsEqual_visible h.1 heq.1, ih h.2 heq.2]
      rfl

theorem entriesEqual_visible {es fs : List (String × Value)}
    (h : ∀ e ∈ es, ∀ w, e.2.equals w = true → (e.2.visible d).equals (w.visible d) = true)
    (heq : entriesEqual es fs = true) :
    entriesEqual (es.map fun e => (e.1, e.2.visible d)) (fs.map fun e => (e.1, e.2.visible d)) =
      true := by
  induction es generalizing fs with
  | nil => cases fs <;> simp [entriesEqual] at heq ⊢
  | cons e es ih =>
    rw [List.forall_mem_cons] at h
    cases fs with
    | nil => simp [entriesEqual] at heq
    | cons f fs =>
      obtain ⟨m, v⟩ := e
      obtain ⟨n, w⟩ := f
      rw [entriesEqual, Bool.and_eq_true, Bool.and_eq_true] at heq
      rw [List.map_cons, List.map_cons, entriesEqual, heq.1.1, h.1 w heq.1.2, ih h.2 heq.2]
      rfl

/-- **Values that are equal as stored** are equal as they are seen. -/
theorem equals_visible {v w : Value} (h : v.equals w = true) :
    (v.visible d).equals (w.visible d) = true := by
  induction v generalizing w with
  | binary a =>
    cases w with
    | binary b =>
      rw [equals, beq_iff_eq] at h
      rw [h, visible_binary, equals, beq_self_eq_true]
    | _ => cases kind_eq_of_equals h
  | directory es ih =>
    cases w with
    | directory fs =>
      rw [equals] at h
      rw [visible_directory, visible_directory, equals]
      exact entriesEqual_visible (fun e he w => ih e he) h
    | _ => cases kind_eq_of_equals h
  | labeled k v ih =>
    cases w with
    | labeled l w =>
      rw [equals, Bool.and_eq_true] at h
      rw [visible_labeled, visible_labeled, equals, h.1, ih h.2]
      rfl
    | _ => cases kind_eq_of_equals h
  | list vs ih =>
    cases w with
    | list ws =>
      rw [equals] at h
      rw [visible_list, visible_list, equals]
      exact itemsEqual_visible (fun v hv w => ih v hv) h
    | _ => cases kind_eq_of_equals h
  | matrix rows ih =>
    cases w with
    | matrix rows' =>
      rw [equals] at h
      rw [visible_matrix, visible_matrix, equals]
      exact rowsEqual_visible (fun row hrow v hv w => ih row hrow v hv) h
    | _ => cases kind_eq_of_equals h
  | vector vs ih =>
    cases w with
    | vector ws =>
      rw [equals] at h
      rw [visible_vector, visible_vector, equals]
      exact itemsEqual_visible (fun v hv w => ih v hv) h
    | _ => cases kind_eq_of_equals h
  | _ => cases w <;> first | exact h | cases kind_eq_of_equals h

/-! ## Values that look alike -/

/-- Both fail in the same way, or both have results that look alike. -/
def OutcomesAlike (d : Display) : Except Fault Value → Except Fault Value → Prop
  | .ok v, .ok w => v.Alike d w
  | .error f, .error g => f = g
  | _, _ => False

theorem outcomesAlike_iff {r s : Except Fault Value} :
    OutcomesAlike d r s ↔ r.map (visible d) = s.map (visible d) := by
  cases r <;> cases s <;> simp [OutcomesAlike, alike_iff, Except.map]

/-- **Hidden bits are not observed.**  Values that look alike have the same text, and every
conversion and every operation ends alike on them, with equal faults or with results that look
alike.

The exception are equalities of operands that meet as containers.  They compare what is
stored, but containers that they find equal are equal as they are seen. -/
theorem hidden_bits_unobserved (d : Display) {u u' v v' : Value} (hu : u.Alike d u')
    (hv : v.Alike d v') :
    (∀ op : UnaryOperator, OutcomesAlike d (op.apply d u) (op.apply d u')) ∧
    (∀ op : BinaryOperator,
      (op.isEquality = true → ∀ k, u.kind.join? v.kind = some k → k.holdsValues = false) →
      OutcomesAlike d (op.apply d u v) (op.apply d u' v')) ∧
    (∀ op : BinaryOperator, op.isEquality = true →
      ∀ k, u.kind.join? v.kind = some k → k.holdsValues = true →
      op.apply d u v = .ok (.truth (if op = .ne then !u.equals v else u.equals v)) ∧
        (u.equals v = true → (u.visible d).equals (v.visible d) = true)) ∧
    (∀ target, OutcomesAlike d (u.convert d target) (u'.convert d target)) ∧
    u.render d = u'.render d := by
  rw [alike_iff] at hu hv
  have hkindu : u.kind = u'.kind := by rw [← kind_visible u, hu, kind_visible]
  have hkindv : v.kind = v'.kind := by rw [← kind_visible v, hv, kind_visible]
  refine ⟨fun op => ?_, fun op hop => ?_, fun op hop k hk hold => ?_, fun target => ?_, ?_⟩
  · rw [← op.apply_visible u, ← op.apply_visible u', hu, outcomesAlike_iff]
  · rw [outcomesAlike_iff, ← BinaryOperator.apply_visible hop, hu, hv]
    rw [hkindu, hkindv] at hop
    exact BinaryOperator.apply_visible hop
  · exact ⟨BinaryOperator.apply_equality hop hk hold, equals_visible⟩
  · rw [outcomesAlike_iff, ← convert_visible, ← convert_visible, hu]
  · rw [← render_visible u, hu, render_visible]

/-- Settings under which words have eight bits. -/
def eightBits : Display := { wordSize := 8 }

/-- The ninth bit of a word is not seen then. -/
theorem alike_narrowed : (binary 0x1FF).Alike eightBits (binary 0xFF) := by
  rw [Alike]
  decide

theorem alike_vector {d : Display} {v w : Value} (h : v.Alike d w) :
    (vector [v]).Alike d (vector [w]) := by
  rw [Alike, ItemsAlike, ItemsAlike]
  exact ⟨h, trivial⟩

/-- A word of nine bits and one of eight that looks like it: as items of vectors they are added
to sums that look alike, and on their own they are equal. -/
theorem hidden_bits_unobserved_narrowed :
    ((binary 0x1FF).Alike eightBits (binary 0xFF) ∧
      (vector [binary 0x1FF]).Alike eightBits (vector [binary 0xFF])) ∧
    OutcomesAlike eightBits
      (BinaryOperator.add.apply eightBits (vector [binary 0x1FF]) (vector [binary 0x1FF]))
      (BinaryOperator.add.apply eightBits (vector [binary 0xFF]) (vector [binary 0xFF])) ∧
    OutcomesAlike eightBits (BinaryOperator.eq.apply eightBits (binary 0x1FF) (binary 0xFF))
      (BinaryOperator.eq.apply eightBits (binary 0xFF) (binary 0x1FF)) := by
  have hword : (binary 0xFF).Alike eightBits (binary 0x1FF) :=
    alike_iff.mpr (alike_iff.mp alike_narrowed).symm
  have hvector := alike_vector alike_narrowed
  refine ⟨⟨alike_narrowed, hvector⟩, ?_, ?_⟩
  · exact (hidden_bits_unobserved _ hvector hvector).2.1 .add fun heq => absurd heq (by decide)
  · refine (hidden_bits_unobserved _ alike_narrowed hword).2.1 .eq fun _ k hk => ?_
    cases hk
    rfl

/-- The same two words are told apart as items of vectors: one vector is equal to itself, and
the other, which looks like it, is not equal to it. -/
theorem hidden_bits_observed :
    ((vector [binary 0x1FF]).WellFormed ∧ (vector [binary 0xFF]).WellFormed ∧
      (vector [binary 0x1FF]).Alike eightBits (vector [binary 0xFF])) ∧
    ¬OutcomesAlike eightBits
      (BinaryOperator.eq.apply eightBits (vector [binary 0x1FF]) (vector [binary 0xFF]))
      (BinaryOperator.eq.apply eightBits (vector [binary 0xFF]) (vector [binary 0xFF])) := by
  refine ⟨⟨?_, ?_, alike_vector alike_narrowed⟩, ?_⟩
  · simp [WellFormed, ItemsWellFormed]
  · simp [WellFormed, ItemsWellFormed]
  · rw [BinaryOperator.apply_equality rfl rfl rfl, BinaryOperator.apply_equality rfl rfl rfl]
    simp [OutcomesAlike, equals, itemsEqual, truth, Alike]

end Value

end RpnCalculator
