import Mathlib.Algebra.BigOperators.Group.Finset.Sigma
import Mathlib.Algebra.BigOperators.Ring.Finset
import Mathlib.Data.List.Forall2
import Mathlib.Data.List.GetD
import RpnCalculator.Proofs.Value.Heredity
import RpnCalculator.Proofs.Value.Tower

/-!
# Products of matrices

The product of two matrices is made of the sums of the products of rows with columns.  Items are
multiplied and added by the operators on values, so their kinds enter: a sum starts as the integer
zero, stays an integer as long as integers are added, and is a rational from the first rational on.
For integers and rationals this file says what comes out (`IsProduct`): the exact sum, as a
rational if any item of the row or of the column is one.

## Shapes

The rule for shapes reads the first row of the left matrix only, and a matrix without rows has
forgotten how many columns it had.  A matrix without rows counts as one without columns, so it
can be multiplied only with another one without rows.  This is why the number of columns of a
product is that of the right factor even if the product has no rows (`IsProduct.width_eq`), and so
the two ways to multiply three matrices are defined for the same shapes.

## Three factors

That the two ways have the same result is the exchange of two sums, and that is not enough,
because the kinds of the items have to agree as well.  An item is a rational in either way if
there is a rational among the items of the row, of the column, or of the matrix between them.
This would fail for an empty sum, which is an integer whatever it is multiplied with.  But where a
sum is empty, a matrix has no columns, and the product has no items.
-/

namespace RpnCalculator

namespace Value

/-! ## Integers and rationals -/

/-- An integer, or a rational in lowest terms. -/
def IsExact (v : Value) : Prop := (v.kind = .integer ∨ v.kind = .rational) ∧ v.WellFormed

/-- The number that an integer or a rational stands for. -/
def amount : Value → Rat
  | .integer n => n
  | .rational q => q.toRat
  | _ => 0

theorem isExact_integer (n : Int) : (integer n).IsExact := by
  simp [IsExact, kind, WellFormed]

theorem isExact_ofRat (r : Rat) : (ofRat r).IsExact := ⟨.inr rfl, Fraction.reduced_ofRat r⟩

theorem isExact_ofExact (r : Rat) : (ofExact r).IsExact := by
  unfold ofExact
  split
  · exact isExact_integer _
  · exact isExact_ofRat r

theorem IsExact.number?_eq {d : Display} {v : Value} (h : v.IsExact) :
    v.number? d = some v.amount := by
  cases v with
  | integer n => rfl
  | rational q => rfl
  | _ => simp [IsExact, kind] at h

/-- A value of the numbers is known from its kind and its number, for there are no two fractions
in lowest terms for one number. -/
theorem IsExact.ext {v w : Value} (hv : v.IsExact) (hw : w.IsExact)
    (hkind : v.kind = .rational ↔ w.kind = .rational) (hamount : v.amount = w.amount) : v = w := by
  cases v with
  | integer m =>
    cases w with
    | integer n => rw [Int.cast_inj.mp hamount]
    | rational q => cases hkind.mpr rfl
    | _ => simp [IsExact, kind] at hw
  | rational p =>
    cases w with
    | integer n => cases hkind.mp rfl
    | rational q =>
      rw [← Fraction.ofRat_toRat hv.2, ← Fraction.ofRat_toRat hw.2]
      exact congrArg ofRat hamount
    | _ => simp [IsExact, kind] at hw
  | _ => simp [IsExact, kind] at hv

/-- The value stands for a number, and it is a rational under the given condition. -/
structure Stands (v : Value) (rational : Prop) (r : Rat) : Prop where
  exact : v.IsExact
  kind_iff : v.kind = .rational ↔ rational
  amount_eq : v.amount = r

theorem IsExact.stands {v : Value} (h : v.IsExact) : v.Stands (v.kind = .rational) v.amount :=
  ⟨h, Iff.rfl, rfl⟩

/-- The integer zero, with which every sum starts. -/
theorem stands_zero : (integer 0).Stands False 0 :=
  ⟨isExact_integer 0, by simp [kind], Int.cast_zero⟩

theorem Stands.congr {v : Value} {s t : Prop} {p q : Rat} (h : v.Stands s p) (hst : s ↔ t)
    (hpq : p = q) : v.Stands t q :=
  ⟨h.exact, h.kind_iff.trans hst, h.amount_eq.trans hpq⟩

theorem Stands.unique {v w : Value} {s : Prop} {r : Rat} (hv : v.Stands s r)
    (hw : w.Stands s r) : v = w :=
  hv.exact.ext hw.exact (hv.kind_iff.trans hw.kind_iff.symm) (hv.amount_eq.trans hw.amount_eq.symm)

end Value

namespace BinaryOperator

open Value (IsExact Stands)

variable {d : Display}

/-! ## Sums and products of items -/

/-- A computation that ends without a fault, and with a result that has a property. -/
abbrev Gives {α : Type} (P : α → Prop) (r : Except Fault α) : Prop := Ends P (fun _ => False) r

theorem Gives.exists_eq_ok {α : Type} {P : α → Prop} {r : Except Fault α} (h : Gives P r) :
    ∃ a, r = .ok a ∧ P a := by
  cases r with
  | ok a => exact ⟨a, rfl, h⟩
  | error f => exact h.elim

/-- A sum or a product is an integer if both operands are integers, and a rational if not. -/
theorem gives_apply {op : BinaryOperator} {a b : Value} {s t : Prop} {p q r : Rat}
    (hop : op = .add ∨ op = .mul) (ha : a.Stands s p) (hb : b.Stands t q)
    (hr : op.exactly? p q = some r) : Gives (Stands · (s ∨ t) r) (op.apply d a b) := by
  have hp : a.number? d = some p := ha.amount_eq ▸ ha.exact.number?_eq
  have hq : b.number? d = some q := hb.amount_eq ▸ hb.exact.number?_eq
  have hwords : ¬(a.kind = .binary ∧ b.kind = .binary) := by
    rintro ⟨hbinary, -⟩
    rcases ha.exact.1 with h | h <;> cases hbinary.symm.trans h
  have hcompare : op.isComparison = false := by rcases hop with rfl | rfl <;> rfl
  have hexact : (op.makes a b r).IsExact := by
    unfold makes
    split
    · exact Value.isExact_ofRat r
    · exact Value.isExact_ofExact r
  rw [apply_exact (isExact_of_exactly? hr) hp hq hwords, hr]
  refine ⟨hexact, ?_, ?_⟩
  · rw [← ha.kind_iff, ← hb.kind_iff]
    constructor
    · intro hkind
      by_contra hneither
      rw [not_or] at hneither
      have hinteger := kind_makes_integer hp hq hneither.1 hneither.2 hr
        fun hdiv => by rcases hop with h | h <;> cases hdiv.symm.trans h
      cases hkind.symm.trans hinteger
    · exact fun hrat => kind_makes_rational hrat hcompare r
  · have hnumber : (op.makes a b r).number? d = some r := number?_makes r
    rw [hexact.number?_eq] at hnumber
    exact Option.some.inj hnumber

/-- What is added to a sum of numbers meets it as it would as an operand. -/
theorem gives_combineMet {a b : Value} {s t : Prop} {p q : Rat} (ha : a.Stands s p)
    (hb : b.Stands t q) :
    Gives (Stands · (s ∨ t) (p + q)) (BinaryOperator.add.combineMet d a b) := by
  rw [← apply_eq_combineMet d .add fun _ => by rcases ha.exact.1 with h | h <;> simp [h]]
  exact gives_apply (.inl rfl) ha hb rfl

/-- **The sum of the products of the items** of two sequences of one length. -/
theorem gives_dot {xs ys : List Value} {sum : Value} {t : Prop} {r : Rat}
    (hx : ∀ x ∈ xs, x.IsExact) (hy : ∀ y ∈ ys, y.IsExact) (hlen : xs.length = ys.length)
    (hsum : sum.Stands t r) :
    Gives
      (Stands ·
        (t ∨ ∃ j < xs.length, (xs.getD j (.integer 0)).kind = .rational ∨
          (ys.getD j (.integer 0)).kind = .rational)
        (r + ∑ j ∈ Finset.range xs.length,
          (xs.getD j (.integer 0)).amount * (ys.getD j (.integer 0)).amount))
      (dot d xs sum ys) := by
  induction xs generalizing sum ys t r with
  | nil =>
    have hstop : dot d [] sum ys = .ok sum := by simp [dot]
    rw [hstop]
    exact hsum.congr (by simp) (by simp)
  | cons x xs ih =>
    cases ys with
    | nil => simp at hlen
    | cons y ys =>
      rw [List.forall_mem_cons] at hx hy
      rw [dot_cons]
      refine (gives_apply (.inr rfl) hx.1.stands hy.1.stands rfl).bind fun p hp => ?_
      refine (gives_combineMet hsum hp).bind fun s hs => ?_
      refine (ih hx.2 hy.2 (Nat.succ.inj hlen) hs).imp fun v hv => hv.congr ?_ ?_
      · simp only [List.length_cons, Nat.exists_lt_succ_left, List.getD_cons_zero,
          List.getD_cons_succ, or_assoc]
      · rw [List.length_cons, Finset.sum_range_succ', List.getD_cons_zero, List.getD_cons_zero]
        simp only [List.getD_cons_succ]
        ring

end BinaryOperator

/-! ## Matrices of numbers -/

namespace Value

/-- The number of columns: the length of the first row, and none if there is no row. -/
def width (rows : List (List Value)) : Nat := (rows.headD []).length

/-- The item in a row and a column. -/
def item (rows : List (List Value)) (i j : Nat) : Value := (rows.getD i []).getD j (.integer 0)

/-- The items that the rows have in one place. -/
def column (rows : List (List Value)) (k : Nat) : List Value :=
  rows.map fun row => row.getD k (.integer 0)

theorem getD_column (rows : List (List Value)) (k j : Nat) :
    (column rows k).getD j (.integer 0) = item rows j k := by
  simp only [column, item, List.getD_eq_getElem?_getD, List.getElem?_map]
  cases rows[j]? <;> simp

/-- A matrix of integers and rationals, with rows of one length. -/
structure IsExactMatrix (rows : List (List Value)) : Prop where
  rectangular : ∀ r ∈ rows, ∀ s ∈ rows, r.length = s.length
  exact : ∀ row ∈ rows, ∀ v ∈ row, v.IsExact

variable {a b c p q : List (List Value)}

theorem IsExactMatrix.length_eq (h : IsExactMatrix a) {row : List Value} (hrow : row ∈ a) :
    row.length = width a := by
  cases a with
  | nil => simp at hrow
  | cons r rows => exact h.rectangular row hrow r List.mem_cons_self

theorem IsExactMatrix.exact_column (h : IsExactMatrix a) {k : Nat} (hk : k < width a) :
    ∀ v ∈ column a k, v.IsExact := by
  intro v hv
  obtain ⟨row, hrow, rfl⟩ := List.mem_map.mp hv
  have hlt : k < row.length := by rwa [h.length_eq hrow]
  rw [List.getD_eq_getElem _ _ hlt]
  exact h.exact row hrow _ (List.getElem_mem hlt)

/-- The columns of a matrix with rows of one length are there in full. -/
theorem IsExactMatrix.columns_eq (h : IsExactMatrix a) :
    BinaryOperator.columns a = (List.range (width a)).map fun k => some (column a k) := by
  refine List.map_congr_left fun k hk => ?_
  have hrows : ∀ row ∈ a, row[k]? = some (row.getD k (.integer 0)) := by
    intro row hrow
    have hlt : k < row.length := by
      rw [h.length_eq hrow]
      exact List.mem_range.mp hk
    rw [List.getD_eq_getElem _ _ hlt, List.getElem?_eq_getElem hlt]
  clear h hk
  induction a with
  | nil => rfl
  | cons row rows ih =>
    rw [List.forall_mem_cons] at hrows
    rw [List.mapM_cons, hrows.1, ih hrows.2]
    rfl

/-- Two matrices of one shape with the same items are the same. -/
theorem ext_item {n : Nat} (hlen : p.length = q.length) (hp : ∀ row ∈ p, row.length = n)
    (hq : ∀ row ∈ q, row.length = n)
    (hitem : ∀ i < p.length, ∀ k < n, item p i k = item q i k) : p = q := by
  refine List.ext_getElem hlen fun i hi hi' => ?_
  have hrow := hp _ (List.getElem_mem hi)
  have hrow' := hq _ (List.getElem_mem hi')
  refine List.ext_getElem (hrow.trans hrow'.symm) fun k hk hk' => ?_
  have h := hitem i hi k (hrow ▸ hk)
  rwa [item, item, List.getD_eq_getElem _ _ hi, List.getD_eq_getElem _ _ hi',
    List.getD_eq_getElem _ _ hk, List.getD_eq_getElem _ _ hk'] at h

/-! ## Products -/

/-- **What the product of two matrices is**: a matrix with the rows of the left and the columns of
the right one.  Its items are the exact sums of products, and are rationals if there is one among
the items that are multiplied. -/
structure IsProduct (a b p : List (List Value)) : Prop where
  exact : IsExactMatrix p
  length_eq : p.length = a.length
  row_length_eq : ∀ row ∈ p, row.length = width b
  stands : ∀ i < a.length, ∀ k < width b,
    (item p i k).Stands
      (∃ j < b.length, (item a i j).kind = .rational ∨ (item b j k).kind = .rational)
      (∑ j ∈ Finset.range b.length, (item a i j).amount * (item b j k).amount)

/-- A product has the columns of the right factor, also if it has no rows. -/
theorem IsProduct.width_eq (h : IsProduct a b p) (hab : width a = b.length) :
    width p = width b := by
  cases p with
  | nil =>
    have ha : a = [] := List.length_eq_zero_iff.mp h.length_eq.symm
    subst ha
    have hb : b = [] := List.length_eq_zero_iff.mp hab.symm
    rw [hb]
  | cons row rows => exact h.row_length_eq row List.mem_cons_self

/-- What is in the row and the column of a product: the sum of the products of the items. -/
def IsEntry (b : List (List Value)) (row : List Value) (k : Nat) (v : Value) : Prop :=
  v.Stands
    (∃ j < b.length, (row.getD j (.integer 0)).kind = .rational ∨ (item b j k).kind = .rational)
    (∑ j ∈ Finset.range b.length, (row.getD j (.integer 0)).amount * (item b j k).amount)

/-- Two lists in a relation are in it place by place. -/
theorem forall₂_getD {α β : Type} {R : α → β → Prop} {as : List α} {bs : List β}
    (h : List.Forall₂ R as bs) {i : Nat} (hi : i < as.length) (x : α) (y : β) :
    R (as.getD i x) (bs.getD i y) := by
  have hi' : i < bs.length := h.length_eq ▸ hi
  rw [List.getD_eq_getElem _ _ hi, List.getD_eq_getElem _ _ hi']
  exact h.get hi hi'

/-- Rows of entries are a product. -/
theorem isProduct_of_entries
    (h : List.Forall₂ (fun row => List.Forall₂ (IsEntry b row) (List.range (width b))) a p) :
    IsProduct a b p := by
  have hlen : p.length = a.length := h.length_eq.symm
  have hrow : ∀ i < a.length, (p.getD i []).length = width b := by
    intro i hi
    rw [← (forall₂_getD h hi [] []).length_eq, List.length_range]
  have hentry : ∀ i < a.length, ∀ k < width b, IsEntry b (a.getD i []) k (item p i k) := by
    intro i hi k hk
    have hk' : k < (List.range (width b)).length := by rwa [List.length_range]
    have hentry := forall₂_getD (forall₂_getD h hi [] []) hk' 0 (.integer 0)
    rwa [List.getD_eq_getElem _ _ hk', List.getElem_range] at hentry
  have hrows : ∀ row ∈ p, row.length = width b := by
    intro row hmem
    obtain ⟨i, hi, rfl⟩ := List.getElem_of_mem hmem
    rw [← List.getD_eq_getElem _ [] hi]
    exact hrow i (hlen ▸ hi)
  refine ⟨⟨fun r hr s hs => (hrows r hr).trans (hrows s hs).symm, ?_⟩, hlen, hrows, hentry⟩
  intro row hmem v hv
  obtain ⟨i, hi, rfl⟩ := List.getElem_of_mem hmem
  obtain ⟨k, hk, rfl⟩ := List.getElem_of_mem hv
  have hexact := (hentry i (hlen ▸ hi) k (hrows _ hmem ▸ hk)).exact
  rwa [item, List.getD_eq_getElem _ _ hi, List.getD_eq_getElem _ _ hk] at hexact

end Value

namespace BinaryOperator

open Value

variable {d : Display} {a b c p q : List (List Value)}

/-- A result for each item, the first in front of the others. -/
theorem gives_cons {α β : Type} {R : α → β → Prop} {a : α} {as : List α} {r : Except Fault β}
    {rs : Except Fault (List β)} (h : Gives (R a) r) (hs : Gives (List.Forall₂ R as) rs) :
    Gives (List.Forall₂ R (a :: as)) (r >>= fun b => rs.map (b :: ·)) :=
  h.cons hs fun _ _ hb hbs => .cons hb hbs

theorem gives_collect {ι α β : Type} {R : ι → β → Prop} {f : α → Except Fault β} {g : ι → α}
    {is : List ι} (h : ∀ i ∈ is, Gives (R i) (f (g i))) :
    Gives (List.Forall₂ R is) (collect f (is.map g)) := by
  induction is with
  | nil => exact .nil
  | cons i is ih =>
    rw [List.forall_mem_cons] at h
    rw [List.map_cons, collect_cons]
    exact gives_cons h.1 (ih h.2)

/-- Every row gives a result with each of the columns. -/
theorem gives_products {ι : Type} {R : List Value → ι → Value → Prop} {col : ι → List Value}
    {is : List ι} (hlen : ∀ row ∈ a, ∀ i ∈ is, row.length = (col i).length)
    (h : ∀ row ∈ a, ∀ i ∈ is, Gives (R row i) (dot d row (.integer 0) (col i))) :
    Gives (List.Forall₂ (fun row out => List.Forall₂ (R row) is out) a)
      (products d a (is.map fun i => some (col i))) := by
  induction a with
  | nil =>
    rw [products]
    exact .nil
  | cons row rows ih =>
    rw [List.forall_mem_cons] at hlen h
    rw [products_cons]
    refine gives_cons (gives_collect fun i hi => ?_) (ih hlen.2 h.2)
    dsimp only
    rw [if_pos (hlen.1 i hi)]
    exact h.1 i hi

theorem apply_mul_matrix : BinaryOperator.mul.apply d (.matrix a) (.matrix b) =
    if width a = b.length then (products d a (columns b)).map .matrix
    else .error (.domain .dimensionMismatch) := rfl

/-- **Matrices are multiplied** if the left one has as many columns as the right one has rows. -/
theorem exists_isProduct (ha : IsExactMatrix a) (hb : IsExactMatrix b)
    (hab : width a = b.length) :
    ∃ p, BinaryOperator.mul.apply d (.matrix a) (.matrix b) = .ok (.matrix p) ∧
      IsProduct a b p := by
  have hlen : ∀ row ∈ a, row.length = b.length := fun row hrow => (ha.length_eq hrow).trans hab
  have hentries : Gives
      (List.Forall₂ (fun row => List.Forall₂ (IsEntry b row) (List.range (width b))) a)
      (products d a (columns b)) := by
    rw [hb.columns_eq]
    refine gives_products (fun row hrow k _ => ?_) fun row hrow k hk => ?_
    · rw [column, List.length_map, hlen row hrow]
    · have hcolumn := hb.exact_column (List.mem_range.mp hk)
      have hdot := gives_dot (d := d) (ha.exact row hrow) hcolumn
        (by rw [column, List.length_map, hlen row hrow]) stands_zero
      refine hdot.imp fun v hv => hv.congr ?_ ?_
      · simp only [false_or, getD_column, hlen row hrow]
      · simp only [zero_add, getD_column, hlen row hrow]
  obtain ⟨p, hp, hproduct⟩ := hentries.exists_eq_ok
  refine ⟨p, ?_, isProduct_of_entries hproduct⟩
  rw [apply_mul_matrix, if_pos hab, hp]
  rfl

/-! ## Three matrices -/

theorem length_pos_of_width {n : Nat} (h : n < width a) : 0 < a.length := by
  cases a with
  | nil => exact absurd h (Nat.not_lt_zero n)
  | cons row rows => exact Nat.succ_pos _

/-- An item of a product of three is a rational in either way, unless one of the sums is empty. -/
theorem exists_rational_comm {m n : Nat} (hm : 0 < m) (hn : 0 < n) {A C : Nat → Prop}
    {B : Nat → Nat → Prop} :
    (∃ k < n, (∃ j < m, A j ∨ B j k) ∨ C k) ↔ ∃ j < m, A j ∨ ∃ k < n, B j k ∨ C k := by
  constructor
  · rintro ⟨k, hk, ⟨j, hj, hA | hB⟩ | hC⟩
    · exact ⟨j, hj, .inl hA⟩
    · exact ⟨j, hj, .inr ⟨k, hk, .inl hB⟩⟩
    · exact ⟨0, hm, .inr ⟨k, hk, .inr hC⟩⟩
  · rintro ⟨j, hj, hA | ⟨k, hk, hB | hC⟩⟩
    · exact ⟨0, hn, .inl ⟨j, hj, .inl hA⟩⟩
    · exact ⟨k, hk, .inl ⟨j, hj, .inr hB⟩⟩
    · exact ⟨k, hk, .inr hC⟩

/-- **Both ways to multiply three matrices give the same product.** -/
theorem eq_of_isProduct {l r : List (List Value)} (hbc : width b = c.length)
    (hp : IsProduct a b p) (hl : IsProduct p c l) (hq : IsProduct b c q) (hr : IsProduct a q r) :
    l = r := by
  have hrows : l.length = a.length := hl.length_eq.trans hp.length_eq
  have hwidth : width q = width c := hq.width_eq hbc
  refine ext_item (hrows.trans hr.length_eq.symm) hl.row_length_eq
    (fun row hrow => (hr.row_length_eq row hrow).trans hwidth) fun i hi k hk => ?_
  have hc : 0 < c.length := length_pos_of_width hk
  have hb : 0 < b.length := length_pos_of_width (hbc ▸ hc)
  have hi : i < a.length := hrows ▸ hi
  have hleft := hl.stands i (hp.length_eq ▸ hi) k hk
  have hright := hr.stands i hi k (hwidth ▸ hk)
  rw [hq.length_eq] at hright
  have hinner : ∀ j ∈ Finset.range c.length, j < width b := fun j hj =>
    hbc ▸ Finset.mem_range.mp hj
  refine hleft.unique (hright.congr ?_ ?_)
  · calc (∃ j < b.length, (item a i j).kind = .rational ∨ (item q j k).kind = .rational)
      _ ↔ ∃ j < b.length, (item a i j).kind = .rational ∨
          ∃ m < c.length, (item b j m).kind = .rational ∨ (item c m k).kind = .rational :=
        exists_congr fun j => and_congr_right fun hj =>
          or_congr_right (hq.stands j hj k hk).kind_iff
      _ ↔ ∃ m < c.length, (∃ j < b.length, (item a i j).kind = .rational ∨
          (item b j m).kind = .rational) ∨ (item c m k).kind = .rational :=
        (exists_rational_comm hb hc).symm
      _ ↔ ∃ m < c.length, (item p i m).kind = .rational ∨ (item c m k).kind = .rational :=
        exists_congr fun m => and_congr_right fun hm =>
          or_congr_left (hp.stands i hi m (hbc ▸ hm)).kind_iff.symm
  · calc ∑ j ∈ Finset.range b.length, (item a i j).amount * (item q j k).amount
      _ = ∑ j ∈ Finset.range b.length, ∑ m ∈ Finset.range c.length,
          (item a i j).amount * (item b j m).amount * (item c m k).amount := by
        refine Finset.sum_congr rfl fun j hj => ?_
        rw [(hq.stands j (Finset.mem_range.mp hj) k hk).amount_eq, Finset.mul_sum]
        simp only [mul_assoc]
      _ = ∑ m ∈ Finset.range c.length, ∑ j ∈ Finset.range b.length,
          (item a i j).amount * (item b j m).amount * (item c m k).amount := Finset.sum_comm
      _ = ∑ m ∈ Finset.range c.length, (item p i m).amount * (item c m k).amount := by
        refine Finset.sum_congr rfl fun m hm => ?_
        rw [(hp.stands i hi m (hinner m hm)).amount_eq, Finset.sum_mul]

theorem apply_mul_matrix_of_ne (h : width a ≠ b.length) :
    BinaryOperator.mul.apply d (.matrix a) (.matrix b) = .error (.domain .dimensionMismatch) :=
  if_neg h

/-- **Matrices of integers and rationals are multiplied exactly, and in any order.**  Two of them
have a product if the left one has as many columns as the right one has rows, and else the fault
is one of domain.  The product is the matrix of the exact sums of products.  Of three matrices
both ways to multiply them end with one matrix, in which the kinds of the items agree as well, or
both with one fault. -/
theorem matrix_products (d : Display) {a b c : List (List Value)} (ha : IsExactMatrix a)
    (hb : IsExactMatrix b) (hc : IsExactMatrix c) :
    (if width a = b.length then
        ∃ p, BinaryOperator.mul.apply d (.matrix a) (.matrix b) = .ok (.matrix p) ∧
          IsProduct a b p
      else
        ∃ f, BinaryOperator.mul.apply d (.matrix a) (.matrix b) = .error f ∧
          f.category = .domain) ∧
    ((∃ v,
        (BinaryOperator.mul.apply d (.matrix a) (.matrix b) >>= fun ab =>
          BinaryOperator.mul.apply d ab (.matrix c)) = .ok v ∧
        (BinaryOperator.mul.apply d (.matrix b) (.matrix c) >>= fun bc =>
          BinaryOperator.mul.apply d (.matrix a) bc) = .ok v) ∨
      ∃ f,
        (BinaryOperator.mul.apply d (.matrix a) (.matrix b) >>= fun ab =>
          BinaryOperator.mul.apply d ab (.matrix c)) = .error f ∧
        (BinaryOperator.mul.apply d (.matrix b) (.matrix c) >>= fun bc =>
          BinaryOperator.mul.apply d (.matrix a) bc) = .error f ∧
        f.category = .domain) := by
  by_cases hab : width a = b.length
  · obtain ⟨p, hp, hproduct⟩ := exists_isProduct (d := d) ha hb hab
    have hwidth : width p = width b := hproduct.width_eq hab
    rw [if_pos hab, hp]
    refine ⟨⟨p, rfl, hproduct⟩, ?_⟩
    by_cases hbc : width b = c.length
    · obtain ⟨l, hl, hleft⟩ :=
        exists_isProduct (d := d) hproduct.exact hc (hwidth.trans hbc)
      obtain ⟨q, hq, hinner⟩ := exists_isProduct (d := d) hb hc hbc
      obtain ⟨r, hr, hright⟩ :=
        exists_isProduct (d := d) ha hinner.exact (hab.trans hinner.length_eq.symm)
      have hsame : l = r := eq_of_isProduct hbc hproduct hleft hinner hright
      rw [hq]
      exact .inl ⟨.matrix l, hl, hsame ▸ hr⟩
    · rw [apply_mul_matrix_of_ne hbc]
      exact .inr ⟨_, apply_mul_matrix_of_ne (hwidth ▸ hbc), rfl, rfl⟩
  · rw [if_neg hab, apply_mul_matrix_of_ne hab]
    refine ⟨⟨_, rfl, rfl⟩, .inr ⟨_, rfl, ?_, rfl⟩⟩
    by_cases hbc : width b = c.length
    · obtain ⟨q, hq, hinner⟩ := exists_isProduct (d := d) hb hc hbc
      rw [hq]
      exact apply_mul_matrix_of_ne (hinner.length_eq ▸ hab)
    · rw [apply_mul_matrix_of_ne hbc]
      rfl

/-- A row of one and a half, with a column of two and four: the product is four, and a rational
because of the half.  With another row it gives a matrix of one row, in either way. -/
theorem matrix_products_mixed :
    (IsExactMatrix [[.integer 1, .rational ⟨1, 2⟩]] ∧ IsExactMatrix [[.integer 2], [.integer 4]] ∧
      IsExactMatrix [[.integer 3, .integer (-1)]]) ∧
    (∃ p, BinaryOperator.mul.apply default (.matrix [[.integer 1, .rational ⟨1, 2⟩]])
        (.matrix [[.integer 2], [.integer 4]]) = .ok (.matrix p) ∧
      (item p 0 0).kind = .rational ∧ (item p 0 0).amount = 4) ∧
    ∃ v,
      (BinaryOperator.mul.apply default (.matrix [[.integer 1, .rational ⟨1, 2⟩]])
          (.matrix [[.integer 2], [.integer 4]]) >>= fun ab =>
        BinaryOperator.mul.apply default ab (.matrix [[.integer 3, .integer (-1)]])) = .ok v ∧
      (BinaryOperator.mul.apply default (.matrix [[.integer 2], [.integer 4]])
          (.matrix [[.integer 3, .integer (-1)]]) >>= fun bc =>
        BinaryOperator.mul.apply default (.matrix [[.integer 1, .rational ⟨1, 2⟩]]) bc) =
          .ok v := by
  have hhalf : (⟨1, 2⟩ : Fraction).Reduced := by decide
  have ha : IsExactMatrix [[.integer 1, .rational ⟨1, 2⟩]] := by
    constructor <;> simp [IsExact, Value.kind, Value.WellFormed, hhalf]
  have hb : IsExactMatrix [[.integer 2], [.integer 4]] := by
    constructor <;> simp [isExact_integer]
  have hc : IsExactMatrix [[.integer 3, .integer (-1)]] := by
    constructor <;> simp [isExact_integer]
  have hwidth : width [[.integer 1, .rational ⟨1, 2⟩]] =
      [[Value.integer 2], [.integer 4]].length := rfl
  obtain ⟨htwo, hthree⟩ := matrix_products default ha hb hc
  rw [if_pos hwidth] at htwo
  obtain ⟨p, hp, hproduct⟩ := htwo
  refine ⟨⟨ha, hb, hc⟩, ⟨p, hp, ?_, ?_⟩, ?_⟩
  · exact (hproduct.stands 0 (by decide) 0 (by decide)).kind_iff.mpr ⟨1, by decide, .inl rfl⟩
  · rw [(hproduct.stands 0 (by decide) 0 (by decide)).amount_eq]
    have hvalue : (⟨1, 2⟩ : Fraction).toRat = 1 / 2 := by
      rw [Fraction.toRat, Rat.divInt_eq_div]
      norm_num
    norm_num [Finset.sum_range_succ, item, amount, hvalue]
  · rcases hthree with hsame | ⟨f, hf, -⟩
    · exact hsame
    · obtain ⟨l, hl, -⟩ := exists_isProduct (d := default) hproduct.exact hc (hproduct.width_eq rfl)
      rw [hp] at hf
      cases hl.symm.trans hf

end BinaryOperator

end RpnCalculator
