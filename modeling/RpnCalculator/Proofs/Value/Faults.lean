import RpnCalculator.Proofs.Value.Blindness

/-!
# The faults of operations

An operation can fail for one of three reasons.  It is not defined for the kind in which its
operands meet; it has no result for the operands it has; or there is no kind in which they meet.
The first two are called *plain* here.  A fault of the third sort names the two kinds, and this
file says which values those are the kinds of.

They need not be the operands.  Vectors and matrices are combined item by item, and each pair of
items has to meet in a kind of its own; of a product, the sum carried along has to meet the next
product as well.  `Clash` is the relation of an operation on two operands to the pairs of values
that it brings together and that do not meet, one constructor for each way that leads from a
sequence into its items.  That every fault that is not plain is licensed by a clash is
`BinaryOperator.blames_apply`, by induction on the left operand as in `Proofs.Value.Operation`.

Operands that do meet are converted without a fault (`Value.exists_convert_of_join?`): among the
numbers an operand only goes up the chain of kinds, and the conversions that can fail lead down.
-/

namespace RpnCalculator

variable {d : Display}

/-! ## Plain faults -/

/-- The operation is not defined for a kind, or has no result for its operands. -/
def Fault.Plain (f : Fault) : Prop := f.category = .kindUnsupported ∨ f.category = .domain

namespace Fault

@[simp] theorem plain_unsupported (op : Operation) (k : Kind) : Plain (.unsupported op k) :=
  .inl rfl

@[simp] theorem plain_noConversion (k l : Kind) : Plain (.noConversion k l) := .inl rfl

@[simp] theorem plain_domain (cause : DomainFault) : Plain (.domain cause) := .inr rfl

/-- The fault is plain, or it names the kinds of two values that are in the relation. -/
def Blames (R : Value → Value → Prop) (f : Fault) : Prop :=
  Plain f ∨ ∃ v w, R v w ∧ f = .noCommonKind v.kind w.kind

@[simp] theorem blames_domain (R : Value → Value → Prop) (cause : DomainFault) :
    Blames R (.domain cause) := .inl (plain_domain cause)

end Fault

open Fault (Plain Blames)

/-- All that is said of the computation is what its faults are. -/
def FaultsOnly {α : Type} (Q : Fault → Prop) (r : Except Fault α) : Prop :=
  Ends (fun _ => True) Q r

namespace FaultsOnly

variable {α β : Type} {Q Q' : Fault → Prop} {r : Except Fault α}

@[simp] theorem ok (a : α) : FaultsOnly Q (.ok a) := trivial

@[simp] theorem error_iff {f : Fault} : FaultsOnly Q (.error f : Except Fault α) ↔ Q f := Iff.rfl

@[simp] theorem map_iff {g : α → β} : FaultsOnly Q (r.map g) ↔ FaultsOnly Q r := Ends.map_iff

@[simp] theorem ite_iff {c : Prop} [Decidable c] {s : Except Fault α} :
    FaultsOnly Q (if c then r else s) ↔ (c → FaultsOnly Q r) ∧ (¬c → FaultsOnly Q s) :=
  Ends.ite_iff

theorem bind {g : α → Except Fault β} (h : FaultsOnly Q r)
    (hg : ∀ a, r = .ok a → FaultsOnly Q (g a)) : FaultsOnly Q (r >>= g) := by
  cases r with
  | ok a => exact hg a rfl
  | error f => exact h

theorem imp (h : FaultsOnly Q r) (hQ : ∀ f, Q f → Q' f) : FaultsOnly Q' r := by
  cases r with
  | ok a => trivial
  | error f => exact hQ f h

theorem blames (h : FaultsOnly Plain r) (R : Value → Value → Prop) : FaultsOnly (Blames R) r :=
  h.imp fun _ => .inl

/-- The values to blame may be found among more. -/
theorem blames_imp {R R' : Value → Value → Prop} (h : FaultsOnly (Blames R) r)
    (hR : ∀ v w, R v w → R' v w) : FaultsOnly (Blames R') r := by
  refine h.imp fun f hf => ?_
  rcases hf with hf | ⟨v, w, hvw, hf⟩
  · exact .inl hf
  · exact .inr ⟨v, w, hR v w hvw, hf⟩

end FaultsOnly

/-! ### Operations on one value -/

namespace UnaryOperator

theorem plain_onWord (op : UnaryOperator) (b : Nat) : FaultsOnly Plain (op.onWord d b) := by
  cases op <;> simp [onWord, unsupported]

theorem plain_onComplex (op : UnaryOperator) (z : Complex) :
    FaultsOnly Plain (op.onComplex z) := by
  cases op <;> simp [onComplex, outside, unsupported]

theorem plain_orComplex (op : UnaryOperator) (x : Double) (f : Double → Double) :
    FaultsOnly Plain (op.orComplex x f) := by
  simp [orComplex, plain_onComplex]

theorem plain_onFloat (op : UnaryOperator) (x : Double) : FaultsOnly Plain (op.onFloat d x) := by
  cases op <;> simp [onFloat, onUnitInterval, outside, unsupported, plain_orComplex]

theorem plain_onInteger (op : UnaryOperator) (n : Int) :
    FaultsOnly Plain (op.onInteger d n) := by
  cases op <;> simp [onInteger, outside, unsupported, plain_onFloat]

theorem plain_onRational (op : UnaryOperator) (q : Rat) :
    FaultsOnly Plain (op.onRational d q) := by
  cases op <;> simp [onRational, outside, unsupported, plain_onFloat]

theorem plain_floatOf (v : Value) : FaultsOnly Plain (floatOf d v) := by
  unfold floatOf
  split
  · simp
  · simp
  · rename_i f hf
    cases v <;> simp [Value.convert, Value.kind, Value.toFloat] at hf <;> simp [← hf]

theorem plain_negateItems {vs : List Value}
    (h : ∀ v ∈ vs, ∀ op : UnaryOperator, FaultsOnly Plain (op.apply d v)) :
    FaultsOnly Plain (negateItems d vs) := by
  induction vs with
  | nil => simp [negateItems]
  | cons v vs ih =>
    rw [List.forall_mem_cons] at h
    rw [negateItems_cons]
    refine (h.1 .neg).bind fun w _ => ?_
    rw [FaultsOnly.map_iff]
    exact ih h.2

theorem plain_negateRows {rows : List (List Value)}
    (h : ∀ row ∈ rows, ∀ v ∈ row, ∀ op : UnaryOperator, FaultsOnly Plain (op.apply d v)) :
    FaultsOnly Plain (negateRows d rows) := by
  induction rows with
  | nil => simp [negateRows]
  | cons row rows ih =>
    rw [List.forall_mem_cons] at h
    rw [negateRows_cons]
    refine (plain_negateItems h.1).bind fun out _ => ?_
    rw [FaultsOnly.map_iff]
    exact ih h.2

theorem plain_sumOfSquares {vs : List Value} (sum : Double)
    (h : ∀ v ∈ vs, ∀ op : UnaryOperator, FaultsOnly Plain (op.apply d v)) :
    FaultsOnly Plain (sumOfSquares d sum vs) := by
  induction vs generalizing sum with
  | nil => simp [sumOfSquares]
  | cons v vs ih =>
    rw [List.forall_mem_cons] at h
    rw [sumOfSquares_cons]
    refine (h.1 .abs).bind fun w _ => ?_
    exact (plain_floatOf w).bind fun m _ => ih _ h.2

/-- **An operation on one value has plain faults only.** -/
theorem plain_apply (op : UnaryOperator) (v : Value) : FaultsOnly Plain (op.apply d v) := by
  induction v generalizing op with
  | binary bits => exact plain_onWord op _
  | complex z => exact plain_onComplex op z
  | float x => exact plain_onFloat op x
  | integer n => exact plain_onInteger op n
  | rational q => exact plain_onRational op _
  | vector items ih =>
    have hitems : ∀ v ∈ items, ∀ op : UnaryOperator, FaultsOnly Plain (op.apply d v) :=
      fun v hv op => ih v hv op
    unfold apply
    cases op with
    | neg =>
      rw [FaultsOnly.map_iff]
      exact plain_negateItems hitems
    | abs =>
      rw [FaultsOnly.map_iff]
      exact plain_sumOfSquares .zero hitems
    | _ => simp [unsupported]
  | matrix rows ih =>
    have hrows : ∀ row ∈ rows, ∀ v ∈ row, ∀ op : UnaryOperator, FaultsOnly Plain (op.apply d v) :=
      fun row hrow v hv op => ih row hrow v hv op
    unfold apply
    cases op with
    | neg =>
      rw [FaultsOnly.map_iff]
      exact plain_negateRows hrows
    | _ => simp [unsupported]
  | _ => simp [apply, unsupported]

end UnaryOperator

/-! ### Operations on two values of one kind -/

namespace BinaryOperator

variable {op : BinaryOperator}

theorem plain_onWords (op : BinaryOperator) (a b : Nat) :
    FaultsOnly Plain (op.onWords d a b) := by
  cases op <;> simp [onWords, outside, unsupported]

theorem plain_onComplex (op : BinaryOperator) (z w : Complex) :
    FaultsOnly Plain (op.onComplex z w) := by
  cases op <;> simp [onComplex, outside, unsupported]

theorem plain_onFloats (op : BinaryOperator) (x y : Double) :
    FaultsOnly Plain (op.onFloats x y) := by
  cases op <;> simp [onFloats, outside, unsupported]

theorem plain_onIntegers (op : BinaryOperator) (m n : Int) :
    FaultsOnly Plain (op.onIntegers m n) := by
  cases op <;> simp [onIntegers, integerPow, outside, unsupported]

theorem plain_onRationals (op : BinaryOperator) (p q : Rat) :
    FaultsOnly Plain (op.onRationals p q) := by
  cases op <;> simp [onRationals, rationalPow, outside, unsupported, plain_onFloats]

theorem plain_combine (op : BinaryOperator) (l r : Value) :
    FaultsOnly Plain (op.combine d l r) := by
  unfold combine
  simp only [FaultsOnly.ite_iff]
  refine ⟨fun _ => FaultsOnly.ok _, fun _ => ⟨fun _ => ?_, fun _ => ?_⟩⟩
  · split <;> simp [unsupported]
  · split
    · exact plain_onWords op _ _
    · exact plain_onComplex op _ _
    · exact plain_onFloats op _ _
    · exact plain_onIntegers op _ _
    · exact plain_onRationals op _ _
    · simp [unsupported]
    · simp [unsupported]
    · simp [unsupported]

end BinaryOperator

/-! ## Meeting -/

/-- **A value is converted to the kind in which it meets another.** -/
theorem Value.exists_convert_of_join? {v : Value} {k l : Kind} (h : v.kind.join? l = some k) :
    ∃ w, v.convert d k = .ok w ∧ w.kind = k := by
  cases v <;> cases l <;> cases h <;> exact ⟨_, rfl, rfl⟩

namespace BinaryOperator

variable {op : BinaryOperator} {l r : Value}

/-- So it comes there, if it is not of that kind already. -/
theorem exists_coerce_of_join? {v : Value} {k l : Kind} (h : v.kind.join? l = some k) :
    ∃ w, coerce d k v = .ok w := by
  unfold coerce
  split
  · exact ⟨v, rfl⟩
  · obtain ⟨w, hw, -⟩ := v.exists_convert_of_join? (d := d) h
    exact ⟨w, hw⟩

/-- Values that meet are combined after they have come to one kind. -/
theorem exists_combine_of_join? (op : BinaryOperator) {k : Kind}
    (h : l.kind.join? r.kind = some k) :
    ∃ l' r', op.combineMet d l r = op.combine d l' r' := by
  have h' : r.kind.join? l.kind = some k := by rw [Kind.join?_comm, h]
  obtain ⟨l', hl⟩ := exists_coerce_of_join? (d := d) h
  obtain ⟨r', hr⟩ := exists_coerce_of_join? (d := d) h'
  refine ⟨l', r', ?_⟩
  rw [combineMet_of_join? h, hl, hr]
  rfl

/-- Values that do not meet are not combined. -/
theorem combineMet_of_join?_eq_none (h : l.kind.join? r.kind = none) :
    op.combineMet d l r = .error (.noCommonKind l.kind r.kind) := by
  simp [combineMet, h]

/-- **Operands that meet in no kind** are refused, whatever the operation. -/
theorem apply_of_join?_eq_none (h : l.kind.join? r.kind = none) :
    op.apply d l r = .error (.noCommonKind l.kind r.kind) := by
  have hmeets : ∀ k, l.kind.join? r.kind = some k → k.holdsValues = false := by simp [h]
  rw [apply_eq_combineMet d op (not_sequence_of_meets hmeets), combineMet_of_join?_eq_none h]

/-- **An equality of operands that meet** has an answer. -/
theorem exists_truth_of_isEquality (hop : op.isEquality = true) {k : Kind}
    (h : l.kind.join? r.kind = some k) : ∃ t, op.apply d l r = .ok (.truth t) := by
  by_cases hold : k.holdsValues = true
  · exact ⟨_, apply_equality hop h hold⟩
  · have hmeets : ∀ m, l.kind.join? r.kind = some m → m.holdsValues = false := by
      simpa [h] using hold
    obtain ⟨l', r', hcombine⟩ := exists_combine_of_join? (d := d) op h
    have hequality : op.combine d l' r' = .ok (op.equality d l' r') := if_pos hop
    rw [apply_eq_combineMet d op (not_sequence_of_meets hmeets), hcombine, hequality]
    exact ⟨_, rfl⟩

/-! ## Clashes -/

/-- When products of items are added up, the sum `s` has been formed, starting from `sum`, and
the next product is `p`. -/
def PartialSum (d : Display) (sum : Value) (xs ys : List Value) (s p : Value) : Prop :=
  ∃ (i : Nat) (x y : Value), xs[i]? = some x ∧ ys[i]? = some y ∧
    dot d (xs.take i) sum (ys.take i) = .ok s ∧ BinaryOperator.mul.apply d x y = .ok p

/-- Two values that meet in no kind, and that an operation on two operands brings together. -/
inductive Clash (d : Display) : BinaryOperator → Value → Value → Value → Value → Prop
  | operands {op : BinaryOperator} {l r : Value} :
    l.kind.join? r.kind = none → Clash d op l r l r
  | items {op : BinaryOperator} {xs ys : List Value} {x y v w : Value} :
    op ∈ [.add, .sub, .mul] → (x, y) ∈ xs.zip ys → Clash d op x y v w →
    Clash d op (.vector xs) (.vector ys) v w
  | sums {xs ys : List Value} {s p : Value} :
    PartialSum d (.integer 0) xs ys s p → s.kind.join? p.kind = none →
    Clash d .mul (.vector xs) (.vector ys) s p
  | rows {op : BinaryOperator} {a b : List (List Value)} {row row' : List Value} {v w : Value} :
    op ∈ [.add, .sub] → (row, row') ∈ a.zip b → Clash d op (.vector row) (.vector row') v w →
    Clash d op (.matrix a) (.matrix b) v w
  | product {a b : List (List Value)} {row col : List Value} {v w : Value} :
    row ∈ a → some col ∈ columns b → Clash d .mul (.vector row) (.vector col) v w →
    Clash d .mul (.matrix a) (.matrix b) v w

/-- Values that clash do not meet. -/
theorem Clash.join?_eq_none {v w : Value} (h : Clash d op l r v w) :
    v.kind.join? w.kind = none := by
  induction h with
  | operands h => exact h
  | items _ _ _ ih => exact ih
  | sums _ h => exact h
  | rows _ _ _ ih => exact ih
  | product _ _ _ ih => exact ih

/-- Of operands that meet only vectors and matrices lead to a clash. -/
theorem Clash.sequences_of_join? {v w : Value} {k : Kind} (h : Clash d op l r v w)
    (hk : l.kind.join? r.kind = some k) :
    (l.kind = .vector ∧ r.kind = .vector) ∨ (l.kind = .matrix ∧ r.kind = .matrix) := by
  cases h with
  | operands h =>
    rw [h] at hk
    cases hk
  | items | sums => exact .inl ⟨rfl, rfl⟩
  | rows | product => exact .inr ⟨rfl, rfl⟩

theorem blames_combineMet (op : BinaryOperator) (l r : Value) :
    FaultsOnly (Blames fun v w => v = l ∧ w = r ∧ l.kind.join? r.kind = none)
      (op.combineMet d l r) := by
  cases hk : l.kind.join? r.kind with
  | none =>
    rw [combineMet_of_join?_eq_none hk]
    exact .inr ⟨l, r, ⟨rfl, rfl, rfl⟩, rfl⟩
  | some k =>
    obtain ⟨l', r', hcombine⟩ := exists_combine_of_join? (d := d) op hk
    rw [hcombine]
    exact (plain_combine op l' r').blames _

/-! ### In sequences -/

/-- Whatever the value is combined with, the faults are plain or name a clash. -/
def Blaming (d : Display) (v : Value) : Prop :=
  ∀ (op : BinaryOperator) (w : Value), FaultsOnly (Blames (Clash d op v w)) (op.apply d v w)

theorem blames_itemwise (op : BinaryOperator) {xs : List Value} (ys : List Value)
    (hx : ∀ x ∈ xs, Blaming d x) :
    FaultsOnly (Blames fun v w => ∃ p ∈ xs.zip ys, Clash d op p.1 p.2 v w)
      (itemwise d op xs ys) := by
  induction xs generalizing ys with
  | nil => cases ys <;> simp [itemwise]
  | cons x xs ih =>
    cases ys with
    | nil => simp [itemwise]
    | cons y ys =>
      rw [List.forall_mem_cons] at hx
      rw [itemwise_cons, List.zip_cons_cons]
      refine FaultsOnly.bind ?_ fun v _ => ?_
      · refine (hx.1 op y).blames_imp fun v w h => ?_
        exact ⟨(x, y), List.mem_cons_self, h⟩
      · rw [FaultsOnly.map_iff]
        refine (ih ys hx.2).blames_imp fun v w h => ?_
        obtain ⟨p, hp, h⟩ := h
        exact ⟨p, List.mem_cons_of_mem _ hp, h⟩

/-- So a sum of vectors blames its operands. -/
theorem blames_itemwise_vector {xs : List Value} (ys : List Value) (hop : op ∈ [.add, .sub])
    (hx : ∀ x ∈ xs, Blaming d x) :
    FaultsOnly (Blames (Clash d op (.vector xs) (.vector ys))) (itemwise d op xs ys) := by
  have hop' : op ∈ [.add, .sub, .mul] := List.mem_append_left [BinaryOperator.mul] hop
  refine (blames_itemwise op ys hx).blames_imp fun v w h => ?_
  obtain ⟨p, hp, h⟩ := h
  exact .items hop' hp h

theorem blames_rowwise {a : List (List Value)} (b : List (List Value)) (hop : op ∈ [.add, .sub])
    (ha : ∀ row ∈ a, ∀ x ∈ row, Blaming d x) :
    FaultsOnly (Blames fun v w => ∃ p ∈ a.zip b, Clash d op (.vector p.1) (.vector p.2) v w)
      (rowwise d op a b) := by
  induction a generalizing b with
  | nil => cases b <;> simp [rowwise]
  | cons row a ih =>
    cases b with
    | nil => simp [rowwise]
    | cons row' b =>
      rw [List.forall_mem_cons] at ha
      by_cases hlen : row.length = row'.length
      · rw [rowwise_cons _ _ _ _ hlen, List.zip_cons_cons]
        refine FaultsOnly.bind ?_ fun out _ => ?_
        · refine (blames_itemwise_vector row' hop ha.1).blames_imp fun v w h => ?_
          exact ⟨(row, row'), List.mem_cons_self, h⟩
        · rw [FaultsOnly.map_iff]
          refine (ih b ha.2).blames_imp fun v w h => ?_
          obtain ⟨p, hp, h⟩ := h
          exact ⟨p, List.mem_cons_of_mem _ hp, h⟩
      · rw [rowwise, if_neg hlen]
        simp

theorem PartialSum.head {sum x y p : Value} (xs ys : List Value)
    (hp : BinaryOperator.mul.apply d x y = .ok p) :
    PartialSum d sum (x :: xs) (y :: ys) sum p :=
  ⟨0, x, y, rfl, rfl, rfl, hp⟩

theorem PartialSum.tail {sum sum' x y q s p : Value} {xs ys : List Value}
    (hq : BinaryOperator.mul.apply d x y = .ok q)
    (hsum : BinaryOperator.add.combineMet d sum q = .ok sum')
    (h : PartialSum d sum' xs ys s p) : PartialSum d sum (x :: xs) (y :: ys) s p := by
  obtain ⟨i, x', y', hx, hy, hs, hp⟩ := h
  refine ⟨i + 1, x', y', hx, hy, ?_, hp⟩
  rw [List.take_succ_cons, List.take_succ_cons, dot_cons, hq]
  show BinaryOperator.add.combineMet d sum q >>= _ = _
  rw [hsum]
  exact hs

/-- The sum that is carried along can clash with the next product. -/
theorem blames_dot {xs : List Value} (sum : Value) (ys : List Value)
    (hx : ∀ x ∈ xs, Blaming d x) :
    FaultsOnly
      (Blames fun v w => (∃ p ∈ xs.zip ys, Clash d .mul p.1 p.2 v w) ∨
        (PartialSum d sum xs ys v w ∧ v.kind.join? w.kind = none))
      (dot d xs sum ys) := by
  induction xs generalizing sum ys with
  | nil => simp [dot]
  | cons x xs ih =>
    cases ys with
    | nil => simp [dot]
    | cons y ys =>
      rw [List.forall_mem_cons] at hx
      rw [dot_cons, List.zip_cons_cons]
      refine FaultsOnly.bind ?_ fun p hp => FaultsOnly.bind ?_ fun s hs => ?_
      · refine (hx.1 .mul y).blames_imp fun v w h => ?_
        exact .inl ⟨(x, y), List.mem_cons_self, h⟩
      · refine (blames_combineMet .add sum p).blames_imp fun v w h => ?_
        obtain ⟨rfl, rfl, hk⟩ := h
        exact .inr ⟨.head xs ys hp, hk⟩
      · refine (ih s ys hx.2).blames_imp fun v w h => ?_
        rcases h with ⟨q, hq, h⟩ | ⟨h, hk⟩
        · exact .inl ⟨q, List.mem_cons_of_mem _ hq, h⟩
        · exact .inr ⟨.tail hp hs h, hk⟩

/-- So a scalar product blames its factors. -/
theorem blames_dot_zero {xs : List Value} (ys : List Value) (hx : ∀ x ∈ xs, Blaming d x) :
    FaultsOnly (Blames (Clash d .mul (.vector xs) (.vector ys))) (dot d xs (.integer 0) ys) := by
  refine (blames_dot (.integer 0) ys hx).blames_imp fun v w h => ?_
  rcases h with ⟨p, hp, h⟩ | ⟨h, hk⟩
  · exact .items (by decide) hp h
  · exact .sums h hk

theorem blames_collect {α β : Type} {Q : Fault → Prop} {f : α → Except Fault β} {as : List α}
    (h : ∀ a ∈ as, FaultsOnly Q (f a)) : FaultsOnly Q (collect f as) := by
  induction as with
  | nil => simp [collect]
  | cons a as ih =>
    rw [List.forall_mem_cons] at h
    rw [collect_cons]
    refine h.1.bind fun b _ => ?_
    rw [FaultsOnly.map_iff]
    exact ih h.2

theorem blames_products {a : List (List Value)} (cols : List (Option (List Value)))
    (ha : ∀ row ∈ a, ∀ x ∈ row, Blaming d x) :
    FaultsOnly
      (Blames fun v w => ∃ row ∈ a, ∃ col, some col ∈ cols ∧
        Clash d .mul (.vector row) (.vector col) v w)
      (products d a cols) := by
  induction a with
  | nil => simp [products]
  | cons row a ih =>
    rw [List.forall_mem_cons] at ha
    rw [products_cons]
    refine FaultsOnly.bind (blames_collect fun col? hcol => ?_) fun out _ => ?_
    · cases col? with
      | none => simp
      | some col =>
        rw [FaultsOnly.ite_iff]
        refine ⟨fun _ => ?_, fun _ => by simp⟩
        refine (blames_dot_zero col ha.1).blames_imp fun v w h => ?_
        exact ⟨row, List.mem_cons_self, col, hcol, h⟩
    · rw [FaultsOnly.map_iff]
      refine (ih ha.2).blames_imp fun v w h => ?_
      obtain ⟨row', hrow, h⟩ := h
      exact ⟨row', List.mem_cons_of_mem _ hrow, h⟩

/-- Operands that are not combined item by item have to meet themselves. -/
theorem blames_apply_of_met (op : BinaryOperator) {l r : Value}
    (h : l.kind = r.kind → l.kind ≠ .vector ∧ l.kind ≠ .matrix) :
    FaultsOnly (Blames (Clash d op l r)) (op.apply d l r) := by
  rw [apply_eq_combineMet d op h]
  refine (blames_combineMet op l r).blames_imp fun v w hvw => ?_
  obtain ⟨rfl, rfl, hk⟩ := hvw
  exact .operands hk

/-- **The faults of an operation on two values** are plain, or name the kinds of two values
that the operation brings together and that do not meet. -/
theorem blames_apply (l : Value) : Blaming d l := by
  induction l with
  | vector xs ih =>
    intro op r
    cases r with
    | vector ys =>
      unfold apply
      cases op with
      | add | sub =>
        rw [FaultsOnly.ite_iff, FaultsOnly.map_iff]
        exact ⟨fun _ => blames_itemwise_vector ys (by decide) ih, fun _ => by simp⟩
      | mul =>
        rw [FaultsOnly.ite_iff]
        exact ⟨fun _ => blames_dot_zero ys ih, fun _ => by simp⟩
      | _ => exact (plain_combine _ _ _).blames _
    | _ => exact blames_apply_of_met op (by simp [Value.kind])
  | matrix a ih =>
    intro op r
    cases r with
    | matrix b =>
      have hrows (hop : op ∈ [.add, .sub]) : FaultsOnly
          (Blames (Clash d op (.matrix a) (.matrix b))) (rowwise d op a b) := by
        refine (blames_rowwise b hop ih).blames_imp fun v w h => ?_
        obtain ⟨p, hp, h⟩ := h
        exact .rows hop hp h
      unfold apply
      cases op with
      | add | sub =>
        rw [FaultsOnly.ite_iff, FaultsOnly.map_iff]
        exact ⟨fun _ => hrows (by decide), fun _ => by simp⟩
      | mul =>
        rw [FaultsOnly.ite_iff, FaultsOnly.map_iff]
        refine ⟨fun _ => ?_, fun _ => by simp⟩
        refine (blames_products (columns b) ih).blames_imp fun v w h => ?_
        obtain ⟨row, hrow, col, hcol, hclash⟩ := h
        exact .product hrow hcol hclash
      | _ => exact (plain_combine _ _ _).blames _
    | _ => exact blames_apply_of_met op (by simp [Value.kind])
  | _ => exact fun op r => blames_apply_of_met op (by simp [Value.kind])

end BinaryOperator

namespace Value

open BinaryOperator (Clash)

/-- **The faults of operations are classified.**  Operands that meet in no kind are refused, and
the fault names their kinds.  Operands that meet are converted to the kind in which they meet,
and tested for equality, without a fault.  Any other operation on them has plain faults, or it
goes down into vectors or matrices, and the fault names the kinds of two values found there
that do not meet.  So there are three sorts of fault, of which an operation on one value has
two. -/
theorem faults_classified (d : Display) (a b : Value) :
    (∀ op : BinaryOperator, a.kind.join? b.kind = none →
      op.apply d a b = .error (.noCommonKind a.kind b.kind) ∧
      (Fault.noCommonKind a.kind b.kind).category = .conversionUnavailable) ∧
    (∀ k, a.kind.join? b.kind = some k →
      (∃ a' b', a.convert d k = .ok a' ∧ a'.kind = k ∧ b.convert d k = .ok b' ∧ b'.kind = k) ∧
      (∀ op : BinaryOperator, op.isEquality = true → ∃ t, op.apply d a b = .ok (.truth t)) ∧
      (∀ (op : BinaryOperator) (f : Fault), op.apply d a b = .error f →
        f.category = .kindUnsupported ∨ f.category = .domain ∨
        (f.category = .conversionUnavailable ∧
          ((a.kind = .vector ∧ b.kind = .vector) ∨ (a.kind = .matrix ∧ b.kind = .matrix)) ∧
          ∃ v w, Clash d op a b v w ∧ v.kind.join? w.kind = none ∧
            f = .noCommonKind v.kind w.kind))) ∧
    (∀ (op : BinaryOperator) (f : Fault), op.apply d a b = .error f →
      f.category ∈ [.kindUnsupported, .domain, .conversionUnavailable]) ∧
    (∀ (op : UnaryOperator) (f : Fault), op.apply d a = .error f →
      f.category ∈ [.kindUnsupported, .domain]) := by
  have hblames (op : BinaryOperator) {f : Fault} (hf : op.apply d a b = .error f) :
      Blames (Clash d op a b) f :=
    Ends.of_error (BinaryOperator.blames_apply a op b) hf
  refine ⟨fun op hk => ⟨BinaryOperator.apply_of_join?_eq_none hk, rfl⟩, ?_, ?_, ?_⟩
  · intro k hk
    have hk' : b.kind.join? a.kind = some k := by rw [Kind.join?_comm, hk]
    refine ⟨?_, fun op hop => BinaryOperator.exists_truth_of_isEquality hop hk, ?_⟩
    · obtain ⟨a', ha, hka⟩ := a.exists_convert_of_join? (d := d) hk
      obtain ⟨b', hb, hkb⟩ := b.exists_convert_of_join? (d := d) hk'
      exact ⟨a', b', ha, hka, hb, hkb⟩
    · intro op f hf
      rcases hblames op hf with (hkind | hdomain) | ⟨v, w, hclash, rfl⟩
      · exact .inl hkind
      · exact .inr (.inl hdomain)
      · refine .inr (.inr ⟨rfl, hclash.sequences_of_join? hk, ?_⟩)
        exact ⟨v, w, hclash, hclash.join?_eq_none, rfl⟩
  · intro op f hf
    rcases hblames op hf with (hkind | hdomain) | ⟨v, w, -, rfl⟩
    · simp [hkind]
    · simp [hdomain]
    · simp [Fault.category]
  · intro op f hf
    rcases Ends.of_error (op.plain_apply a) hf with hkind | hdomain
    · simp [hkind]
    · simp [hdomain]

/-- A text and an integer meet in no kind.  Vectors of matrices do meet, and the matrices have a
product, but the sum that starts at the integer zero does not meet it. -/
theorem faults_classified_sum :
    BinaryOperator.add.apply default (.string "a") (.integer 1) =
      .error (.noCommonKind .string .integer) ∧
    BinaryOperator.mul.apply default (.vector [.matrix [[.integer 1]]])
        (.vector [.matrix [[.integer 1]]]) = .error (.noCommonKind .integer .matrix) ∧
    ∃ v w, Clash default .mul (.vector [.matrix [[.integer 1]]]) (.vector [.matrix [[.integer 1]]])
        v w ∧ v.kind = .integer ∧ w.kind = .matrix := by
  have hfault : BinaryOperator.mul.apply default (.vector [.matrix [[.integer 1]]])
      (.vector [.matrix [[.integer 1]]]) = .error (.noCommonKind .integer .matrix) := rfl
  obtain ⟨habsent, -⟩ := faults_classified default (.string "a") (.integer 1)
  obtain ⟨-, hpresent, -⟩ := faults_classified default (.vector [.matrix [[.integer 1]]])
    (.vector [.matrix [[.integer 1]]])
  refine ⟨(habsent .add rfl).1, hfault, ?_⟩
  rcases (hpresent .vector rfl).2.2 .mul _ hfault with h | h | ⟨-, -, v, w, hclash, -, hf⟩
  · cases h
  · cases h
  · injection hf with hv hw
    exact ⟨v, w, hclash, hv.symm, hw.symm⟩

end Value

end RpnCalculator
