import RpnCalculator.Proofs.Value.Conversion
import RpnCalculator.Value.Arithmetic
import RpnCalculator.Value.Functions

/-!
# Operations hand on properties

Whatever is hereditary holds of the result of an operation if it holds of the operands
(`BinaryOperator.ends_apply`, `UnaryOperator.ends_apply`).

An operation on numbers makes a number.  On vectors and matrices it goes down to the items,
and those can be vectors and matrices again.  The induction is on the left operand: each of
the functions on sequences is treated under the assumption that the items of the left
sequence, combined with anything, end well.
-/

namespace RpnCalculator

open Fault (NotLiteral)

/-! ## Numbers -/

section Numbers

variable {P : Value → Prop} (hP : Hereditary P) {d : Display}

include hP

namespace BinaryOperator

theorem ends_onWords (op : BinaryOperator) (a b : Nat) :
    Ends P NotLiteral (op.onWords d a b) := by
  have hword (n : Nat) : P (.ofWord d n) := hP.binary _
  cases op <;> simp [onWords, outside, unsupported, hword]

theorem ends_onComplex (op : BinaryOperator) (z w : Complex) :
    Ends P NotLiteral (op.onComplex z w) := by
  cases op <;> simp [onComplex, outside, unsupported, hP.complex]

/-- A power of floats is a float or a complex number. -/
theorem prop_floatPow (x y : Double) : P (floatPow x y) := by
  unfold floatPow
  split
  · exact hP.complex _
  · exact hP.float _

theorem ends_onFloats (op : BinaryOperator) (x y : Double) :
    Ends P NotLiteral (op.onFloats x y) := by
  cases op <;> simp [onFloats, outside, unsupported, hP.float, prop_floatPow hP]

/-- A negative exponent makes a rational of an integer. -/
theorem ends_integerPow (b e : Int) : Ends P NotLiteral (integerPow b e) := by
  simp [integerPow, outside, hP.integer, prop_ofRat hP]

theorem ends_onIntegers (op : BinaryOperator) (m n : Int) :
    Ends P NotLiteral (op.onIntegers m n) := by
  cases op <;>
    simp [onIntegers, outside, unsupported, hP.integer, prop_ofRat hP, ends_integerPow hP]

theorem ends_rationalPow (p : Rat) (e : Int) : Ends P NotLiteral (rationalPow p e) := by
  simp [rationalPow, outside, prop_ofRat hP]

theorem ends_onRationals (op : BinaryOperator) (p q : Rat) :
    Ends P NotLiteral (op.onRationals p q) := by
  cases op <;>
    simp [onRationals, outside, unsupported, prop_ofRat hP, ends_rationalPow hP,
      ends_onFloats hP]

end BinaryOperator

namespace UnaryOperator

theorem ends_onWord (op : UnaryOperator) (b : Nat) : Ends P NotLiteral (op.onWord d b) := by
  have hword (n : Nat) : P (.ofWord d n) := hP.binary _
  cases op <;> simp [onWord, unsupported, hword]

theorem ends_onComplex (op : UnaryOperator) (z : Complex) :
    Ends P NotLiteral (op.onComplex z) := by
  cases op <;> simp [onComplex, outside, unsupported, hP.complex, hP.float]

/-- Below zero a function of floats goes on to complex numbers. -/
theorem ends_orComplex (op : UnaryOperator) (x : Double) (f : Double → Double) :
    Ends P NotLiteral (op.orComplex x f) := by
  simp [orComplex, hP.float, ends_onComplex hP]

theorem ends_onUnitInterval (x : Double) (f : Double → Double) :
    Ends P NotLiteral (onUnitInterval d x f) := by
  simp [onUnitInterval, outside, hP.float]

theorem ends_onFloat (op : UnaryOperator) (x : Double) : Ends P NotLiteral (op.onFloat d x) := by
  cases op <;>
    simp [onFloat, outside, unsupported, hP.float, ends_orComplex hP, ends_onUnitInterval hP]

theorem ends_onInteger (op : UnaryOperator) (n : Int) :
    Ends P NotLiteral (op.onInteger d n) := by
  cases op <;>
    simp [onInteger, outside, unsupported, hP.integer, prop_ofRat hP, ends_onFloat hP]

theorem ends_onRational (op : UnaryOperator) (q : Rat) :
    Ends P NotLiteral (op.onRational d q) := by
  cases op <;>
    simp [onRational, outside, unsupported, hP.integer, prop_ofRat hP, ends_onFloat hP]

end UnaryOperator

end Numbers

/-! ## Two values -/

namespace BinaryOperator

section

variable {P : Value → Prop} (hP : Hereditary P) {d : Display} {op : BinaryOperator}

include hP

/-- Of values of one kind only lists hand anything on. -/
theorem ends_combine {l r : Value} (hl : P l) (hr : P r) :
    Ends P NotLiteral (op.combine d l r) := by
  have htruth (b : Bool) : P (.truth b) := hP.integer _
  unfold combine
  simp only [Ends.ite_iff]
  refine ⟨fun _ => htruth _, fun _ => ⟨?_, ?_⟩⟩
  · intro _
    split
    · exact htruth _
    · exact htruth _
    · simp [unsupported]
  · intro _
    split
    · exact ends_onWords hP op _ _
    · exact ends_onComplex hP op _ _
    · exact ends_onFloats hP op _ _
    · exact ends_onIntegers hP op _ _
    · exact ends_onRationals hP op _ _
    · simp [unsupported, hP.string]
    · rename_i a b
      have hab : P (.list (a ++ b)) := by
        rw [hP.list, List.forall_mem_append]
        exact ⟨hP.list.mp hl, hP.list.mp hr⟩
      simp [unsupported, hab]
    · simp [unsupported]

theorem ends_coerce {v : Value} (hv : P v) (k : Kind) : Ends P NotLiteral (coerce d k v) := by
  rw [coerce, Ends.ite_iff]
  exact ⟨fun _ => hv, fun _ => ends_convert hP hv k⟩

/-- Values that meet are converted first. -/
theorem ends_combineMet {l r : Value} (hl : P l) (hr : P r) :
    Ends P NotLiteral (op.combineMet d l r) := by
  cases hk : l.kind.join? r.kind with
  | none => simp [combineMet, hk]
  | some k =>
    rw [combineMet_of_join? hk]
    refine (ends_coerce hP hl k).bind ?_
    intro l' hl'
    exact (ends_coerce hP hr k).bind fun r' hr' => ends_combine hP hl' hr'

end

/-! ## Sequences -/

/-- What is done to each item of a list is done to the list, and its length is kept. -/
theorem ends_collect {α β : Type} {R : β → Prop} {f : α → Except Fault β} {as : List α}
    (h : ∀ a ∈ as, Ends R NotLiteral (f a)) :
    Ends (fun bs => bs.length = as.length ∧ ∀ b ∈ bs, R b) NotLiteral (collect f as) := by
  induction as with
  | nil => simp [collect]
  | cons a as ih =>
    rw [List.forall_mem_cons] at h
    have htail := ih h.2
    rw [collect_cons]
    refine h.1.cons htail ?_
    intro b bs hb hbs
    rw [List.length_cons, List.length_cons, hbs.1, List.forall_mem_cons]
    exact ⟨rfl, hb, hbs.2⟩

/-- What is in a column is in a row. -/
theorem mem_of_mapM_getElem? {rows : List (List Value)} {j : Nat} {col : List Value}
    (h : (rows.mapM fun row => row[j]?) = some col) {v : Value} (hv : v ∈ col) :
    ∃ row ∈ rows, v ∈ row := by
  induction rows generalizing col with
  | nil =>
    simp only [List.mapM_nil, Option.pure_def, Option.some.injEq] at h
    subst h
    simp at hv
  | cons row rows ih =>
    simp only [List.mapM_cons, Option.pure_def, Option.bind_eq_bind, Option.bind_eq_some_iff,
      Option.some.injEq] at h
    obtain ⟨w, hw, rest, hrest, rfl⟩ := h
    rcases List.mem_cons.mp hv with rfl | hv
    · exact ⟨row, List.mem_cons_self, List.mem_of_getElem? hw⟩
    · obtain ⟨r, hr, hvr⟩ := ih hrest hv
      exact ⟨r, List.mem_cons_of_mem _ hr, hvr⟩

/-- So is what is in one of all columns. -/
theorem exists_row_of_mem_columns {rows : List (List Value)} {col : List Value}
    (h : some col ∈ columns rows) {v : Value} (hv : v ∈ col) : ∃ row ∈ rows, v ∈ row := by
  obtain ⟨j, -, hj⟩ := List.mem_map.mp h
  exact mem_of_mapM_getElem? hj hv

section

variable {P : Value → Prop} {d : Display} {op : BinaryOperator}

/-- The value ends well with whatever it is combined with. -/
def Combines (P : Value → Prop) (d : Display) (v : Value) : Prop :=
  ∀ op : BinaryOperator, ∀ w, P v → P w → Ends P NotLiteral (op.apply d v w)

variable (op) in
/-- Sequences of one length are combined to a sequence of that length. -/
theorem ends_itemwise {xs ys : List Value} (hc : ∀ x ∈ xs, Combines P d x)
    (hx : ∀ x ∈ xs, P x) (hy : ∀ y ∈ ys, P y) :
    Ends (fun vs => (xs.length = ys.length → vs.length = xs.length) ∧ ∀ v ∈ vs, P v)
      NotLiteral (itemwise d op xs ys) := by
  induction xs generalizing ys with
  | nil => cases ys <;> simp [itemwise]
  | cons x xs ih =>
    cases ys with
    | nil => simp [itemwise]
    | cons y ys =>
      rw [List.forall_mem_cons] at hc hx hy
      have hhead := hc.1 op y hx.1 hy.1
      have htail := ih hc.2 hx.2 hy.2
      rw [itemwise_cons]
      refine hhead.cons htail ?_
      intro v vs hv hvs
      simp only [List.length_cons, Nat.add_right_cancel_iff, List.forall_mem_cons]
      exact ⟨hvs.1, hv, hvs.2⟩

/-- As many rows are combined to rows of the lengths of the left ones. -/
theorem ends_rowwise {a b : List (List Value)} (hc : ∀ row ∈ a, ∀ x ∈ row, Combines P d x)
    (ha : ∀ row ∈ a, ∀ x ∈ row, P x) (hb : ∀ row ∈ b, ∀ y ∈ row, P y) :
    Ends (fun rows => (a.length = b.length → rows.map List.length = a.map List.length) ∧
        ∀ row ∈ rows, ∀ v ∈ row, P v)
      NotLiteral (rowwise d op a b) := by
  induction a generalizing b with
  | nil => cases b <;> simp [rowwise]
  | cons x a ih =>
    cases b with
    | nil => simp [rowwise]
    | cons y b =>
      rw [List.forall_mem_cons] at hc ha hb
      have hhead := ends_itemwise op hc.1 ha.1 hb.1
      have htail := ih hc.2 ha.2 hb.2
      by_cases hlen : x.length = y.length
      · rw [rowwise_cons _ _ _ _ hlen]
        refine hhead.cons htail ?_
        intro row rows hrow hrows
        simp only [List.length_cons, Nat.add_right_cancel_iff, List.map_cons,
          List.forall_mem_cons]
        refine ⟨?_, hrow.2, hrows.2⟩
        intro hlen'
        rw [hrow.1 hlen, hrows.1 hlen']
      · rw [rowwise, if_neg hlen]
        simp

/-- The sum that is carried along has the property as well. -/
theorem ends_dot (hP : Hereditary P) {xs ys : List Value} {sum : Value}
    (hc : ∀ x ∈ xs, Combines P d x) (hx : ∀ x ∈ xs, P x) (hsum : P sum)
    (hy : ∀ y ∈ ys, P y) : Ends P NotLiteral (dot d xs sum ys) := by
  induction xs generalizing sum ys with
  | nil => simpa [dot] using hsum
  | cons x xs ih =>
    cases ys with
    | nil => simpa [dot] using hsum
    | cons y ys =>
      rw [List.forall_mem_cons] at hc hx hy
      have hproduct := hc.1 .mul y hx.1 hy.1
      rw [dot_cons]
      refine hproduct.bind ?_
      intro p hp
      have hadd : Ends P NotLiteral (combineMet d .add sum p) := ends_combineMet hP hsum hp
      exact hadd.bind fun s hs => ih hc.2 hx.2 hs hy.2

/-- A row of a product has as many items as there are columns. -/
theorem ends_products (hP : Hereditary P) {a : List (List Value)}
    {cols : List (Option (List Value))} (hc : ∀ row ∈ a, ∀ x ∈ row, Combines P d x)
    (ha : ∀ row ∈ a, ∀ x ∈ row, P x) (hcols : ∀ col, some col ∈ cols → ∀ y ∈ col, P y) :
    Ends (fun rows => ∀ row ∈ rows, row.length = cols.length ∧ ∀ v ∈ row, P v)
      NotLiteral (products d a cols) := by
  induction a with
  | nil => simp [products]
  | cons row a ih =>
    rw [List.forall_mem_cons] at hc ha
    have htail := ih hc.2 ha.2
    rw [products_cons]
    refine (ends_collect (R := P) ?_).cons htail ?_
    · intro col hcol
      cases col with
      | none => simp
      | some col =>
        rw [Ends.ite_iff]
        exact ⟨fun _ => ends_dot hP hc.1 ha.1 (hP.integer 0) (hcols col hcol), fun _ => by simp⟩
    · intro out rows hout hrows
      rw [List.forall_mem_cons]
      exact ⟨hout, hrows⟩

/-- **An operator on two values hands on what is hereditary.** -/
theorem ends_apply (hP : Hereditary P) (l : Value) : Combines P d l := by
  induction l with
  | vector xs ih =>
    intro op r hl hr
    cases r with
    | vector ys =>
      have hx := hP.vector.mp hl
      have hy := hP.vector.mp hr
      unfold apply
      cases op with
      | add | sub =>
        rw [Ends.ite_iff]
        refine ⟨fun _ => ?_, fun _ => by simp⟩
        rw [Ends.map_iff]
        exact (ends_itemwise _ ih hx hy).imp fun vs hvs => hP.vector.mpr hvs.2
      | mul =>
        rw [Ends.ite_iff]
        exact ⟨fun _ => ends_dot hP ih hx (hP.integer 0) hy, fun _ => by simp⟩
      | _ => exact ends_combine hP hl hr
    | _ =>
      rw [apply_eq_combineMet d op (by simp [Value.kind])]
      exact ends_combineMet hP hl hr
  | matrix a ih =>
    intro op r hl hr
    cases r with
    | matrix b =>
      have ha := hP.items hl
      have hb := hP.items hr
      unfold apply
      cases op with
      | add | sub =>
        rw [Ends.ite_iff]
        refine ⟨fun hlen => ?_, fun _ => by simp⟩
        rw [Ends.map_iff]
        exact (ends_rowwise ih ha hb).imp fun rows hrows =>
          hP.reshaped hl (hrows.1 hlen) hrows.2
      | mul =>
        rw [Ends.ite_iff]
        refine ⟨fun _ => ?_, fun _ => by simp⟩
        rw [Ends.map_iff]
        have hcols (col : List Value) (hcol : some col ∈ columns b) : ∀ y ∈ col, P y := by
          intro y hy
          obtain ⟨row, hrow, hyrow⟩ := exists_row_of_mem_columns hcol hy
          exact hb row hrow y hyrow
        refine (ends_products hP ih ha hcols).imp fun rows hrows => hP.matrix ?_ ?_
        · intro r hr s hs
          rw [(hrows r hr).1, (hrows s hs).1]
        · exact fun row hrow => (hrows row hrow).2
      | _ => exact ends_combine hP hl hr
    | _ =>
      rw [apply_eq_combineMet d op (by simp [Value.kind])]
      exact ends_combineMet hP hl hr
  | _ =>
    intro op r hl hr
    rw [apply_eq_combineMet d op (by simp [Value.kind])]
    exact ends_combineMet hP hl hr

end

end BinaryOperator

/-! ## One value -/

namespace UnaryOperator

variable {P : Value → Prop} {d : Display}

/-- The value ends well under every operator. -/
def Transforms (P : Value → Prop) (d : Display) (v : Value) : Prop :=
  ∀ op : UnaryOperator, P v → Ends P NotLiteral (op.apply d v)

/-- Negation keeps the length of a sequence. -/
theorem ends_negateItems {vs : List Value} (ht : ∀ v ∈ vs, Transforms P d v)
    (h : ∀ v ∈ vs, P v) :
    Ends (fun ws => ws.length = vs.length ∧ ∀ w ∈ ws, P w) NotLiteral (negateItems d vs) := by
  induction vs with
  | nil => simp [negateItems]
  | cons v vs ih =>
    rw [List.forall_mem_cons] at ht h
    have hhead := ht.1 .neg h.1
    have htail := ih ht.2 h.2
    rw [negateItems_cons]
    refine hhead.cons htail ?_
    intro w ws hw hws
    rw [List.length_cons, List.length_cons, hws.1, List.forall_mem_cons]
    exact ⟨rfl, hw, hws.2⟩

/-- And so it keeps the lengths of rows. -/
theorem ends_negateRows {rows : List (List Value)}
    (ht : ∀ row ∈ rows, ∀ v ∈ row, Transforms P d v) (h : ∀ row ∈ rows, ∀ v ∈ row, P v) :
    Ends (fun out => out.map List.length = rows.map List.length ∧ ∀ row ∈ out, ∀ v ∈ row, P v)
      NotLiteral (negateRows d rows) := by
  induction rows with
  | nil => simp [negateRows]
  | cons row rows ih =>
    rw [List.forall_mem_cons] at ht h
    have hhead := ends_negateItems ht.1 h.1
    have htail := ih ht.2 h.2
    rw [negateRows_cons]
    refine hhead.cons htail ?_
    intro out outs hout houts
    rw [List.map_cons, List.map_cons, hout.1, houts.1, List.forall_mem_cons]
    exact ⟨rfl, hout.2, houts.2⟩

theorem ends_floatOf (hP : Hereditary P) {v : Value} (hv : P v) :
    Ends (fun _ => True) NotLiteral (floatOf d v) := by
  have hconvert := ends_convert hP (d := d) hv .float
  unfold floatOf
  split
  · trivial
  · simp
  · rename_i f hf
    exact hconvert.of_error hf

theorem ends_sumOfSquares (hP : Hereditary P) {vs : List Value} {sum : Double}
    (ht : ∀ v ∈ vs, Transforms P d v) (h : ∀ v ∈ vs, P v) :
    Ends (fun _ => True) NotLiteral (sumOfSquares d sum vs) := by
  induction vs generalizing sum with
  | nil => simp [sumOfSquares]
  | cons v vs ih =>
    rw [List.forall_mem_cons] at ht h
    have hmagnitude := ht.1 .abs h.1
    rw [sumOfSquares_cons]
    refine hmagnitude.bind ?_
    intro w hw
    have hfloat : Ends (fun _ => True) NotLiteral (floatOf d w) := ends_floatOf hP hw
    exact hfloat.bind fun m _ => ih ht.2 h.2

/-- **An operator on one value hands on what is hereditary.** -/
theorem ends_apply (hP : Hereditary P) (v : Value) : Transforms P d v := by
  induction v with
  | binary bits => exact fun op _ => ends_onWord hP op _
  | complex z => exact fun op _ => ends_onComplex hP op z
  | float x => exact fun op _ => ends_onFloat hP op x
  | integer n => exact fun op _ => ends_onInteger hP op n
  | rational q => exact fun op _ => ends_onRational hP op q.toRat
  | vector items ih =>
    intro op hv
    have hitems := hP.vector.mp hv
    unfold apply
    cases op with
    | neg =>
      rw [Ends.map_iff]
      exact (ends_negateItems ih hitems).imp fun ws hws => hP.vector.mpr hws.2
    | abs =>
      rw [Ends.map_iff]
      exact (ends_sumOfSquares hP ih hitems).imp fun s _ => hP.float s.sqrt
    | _ => simp [unsupported]
  | matrix rows ih =>
    intro op hv
    have hrows := hP.items hv
    unfold apply
    cases op with
    | neg =>
      rw [Ends.map_iff]
      exact (ends_negateRows ih hrows).imp fun out hout => hP.reshaped hv hout.1 hout.2
    | _ => simp [unsupported]
  | _ =>
    intro op _
    simp [apply, unsupported]

end UnaryOperator

end RpnCalculator
