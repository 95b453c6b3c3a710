import RpnCalculator.Proofs.Guard.Number
import RpnCalculator.Proofs.Value.Operation

/-!
# Operators on well-formed values break no rule

Operators look into sequences, so what they demand they demand of everything that a value
holds.  An equality compares the fractions in two lists; a product of matrices adds, in a sum
that is carried along, products of items that have nothing else in common with it.

The demands are met by values that are well-formed, at every depth.  What is carried along is
made by the operator itself, and that it is well-formed again is what `ends_apply` and
`ends_combineMet` say for the property of being well-formed.

The evaluators are those of `Value.Equality`, `Value.Arithmetic` and `Value.Functions`, with
the guarded operations in the place of the others.
-/

namespace RpnCalculator

namespace Guarded

/-! ## Comparison -/

mutual

/-- Whether two values are equal. -/
def equals : Value → Value → Guarded Bool
  | .directory d, .directory e => entriesEqual d e
  | .labeled k v, .labeled l w => both (pure (k == l)) (equals v w)
  | .list a, .list b => itemsEqual a b
  | .matrix a, .matrix b => rowsEqual a b
  | .rational p, .rational q => do
    let x ← number p
    let y ← number q
    pure (x == y)
  | .vector a, .vector b => itemsEqual a b
  | v, w => pure (v.equals w)
termination_by structural v => v

def itemsEqual : List Value → List Value → Guarded Bool
  | v :: vs, w :: ws => both (equals v w) (itemsEqual vs ws)
  | vs, ws => pure (vs.isEmpty && ws.isEmpty)
termination_by structural vs => vs

def rowsEqual : List (List Value) → List (List Value) → Guarded Bool
  | r :: rs, s :: ss => both (itemsEqual r s) (rowsEqual rs ss)
  | rs, ss => pure (rs.isEmpty && ss.isEmpty)
termination_by structural rs => rs

def entriesEqual : List (String × Value) → List (String × Value) → Guarded Bool
  | (m, v) :: rest, (n, w) :: rest' =>
    both (both (pure (m == n)) (equals v w)) (entriesEqual rest rest')
  | es, es' => pure (es.isEmpty && es'.isEmpty)
termination_by structural es => es

end

/-- The value can be compared with every other that is well-formed. -/
def Compares (v : Value) : Prop :=
  ∀ w, v.WellFormed → w.WellFormed → equals v w = .ok (v.equals w)

theorem itemsEqual_eq {vs ws : List Value} (hc : ∀ v ∈ vs, Compares v)
    (hv : ∀ v ∈ vs, v.WellFormed) (hw : ∀ w ∈ ws, w.WellFormed) :
    itemsEqual vs ws = .ok (Value.itemsEqual vs ws) := by
  induction vs generalizing ws with
  | nil => cases ws <;> simp [itemsEqual, Value.itemsEqual]
  | cons v vs ih =>
    cases ws with
    | nil => simp [itemsEqual, Value.itemsEqual]
    | cons w ws =>
      rw [List.forall_mem_cons] at hc hv hw
      rw [itemsEqual, Value.itemsEqual]
      exact both_eq (hc.1 w hv.1 hw.1) (ih hc.2 hv.2 hw.2)

theorem rowsEqual_eq {rs ss : List (List Value)} (hc : ∀ row ∈ rs, ∀ v ∈ row, Compares v)
    (hr : ∀ row ∈ rs, ∀ v ∈ row, v.WellFormed) (hs : ∀ row ∈ ss, ∀ v ∈ row, v.WellFormed) :
    rowsEqual rs ss = .ok (Value.rowsEqual rs ss) := by
  induction rs generalizing ss with
  | nil => cases ss <;> simp [rowsEqual, Value.rowsEqual]
  | cons r rs ih =>
    cases ss with
    | nil => simp [rowsEqual, Value.rowsEqual]
    | cons s ss =>
      rw [List.forall_mem_cons] at hc hr hs
      rw [rowsEqual, Value.rowsEqual]
      exact both_eq (itemsEqual_eq hc.1 hr.1 hs.1) (ih hc.2 hr.2 hs.2)

theorem entriesEqual_eq {es es' : List (String × Value)} (hc : ∀ e ∈ es, Compares e.2)
    (hv : ∀ e ∈ es, e.2.WellFormed) (hw : ∀ e ∈ es', e.2.WellFormed) :
    entriesEqual es es' = .ok (Value.entriesEqual es es') := by
  induction es generalizing es' with
  | nil => cases es' <;> simp [entriesEqual, Value.entriesEqual]
  | cons e es ih =>
    cases es' with
    | nil => simp [entriesEqual, Value.entriesEqual]
    | cons e' es' =>
      rw [List.forall_mem_cons] at hc hv hw
      rw [entriesEqual, Value.entriesEqual]
      exact both_eq (both_eq rfl (hc.1 e'.2 hv.1 hw.1)) (ih hc.2 hv.2 hw.2)

/-- **Well-formed values can be compared**, however deep their fractions lie. -/
theorem equals_eq (v : Value) : Compares v := by
  have hP := hereditary_wellFormed
  induction v with
  | directory es ih =>
    intro w hv hw
    cases w with
    | directory es' =>
      rw [equals, Value.equals]
      exact entriesEqual_eq ih (hP.entries hv) (hP.entries hw)
    | _ => rfl
  | labeled label v ih =>
    intro w hv hw
    cases w with
    | labeled label' w =>
      rw [equals, Value.equals]
      exact both_eq rfl (ih w (hP.labeled.mp hv) (hP.labeled.mp hw))
    | _ => rfl
  | list items ih =>
    intro w hv hw
    cases w with
    | list items' =>
      rw [equals, Value.equals]
      exact itemsEqual_eq ih (hP.list.mp hv) (hP.list.mp hw)
    | _ => rfl
  | matrix rows ih =>
    intro w hv hw
    cases w with
    | matrix rows' =>
      rw [equals, Value.equals]
      exact rowsEqual_eq ih (hP.items hv) (hP.items hw)
    | _ => rfl
  | rational p =>
    intro w hv hw
    cases w with
    | rational q =>
      rw [equals, number_eq hv, ok_bind, number_eq hw, Value.equals]
      rfl
    | _ => rfl
  | vector items ih =>
    intro w hv hw
    cases w with
    | vector items' =>
      rw [equals, Value.equals]
      exact itemsEqual_eq ih (hP.vector.mp hv) (hP.vector.mp hw)
    | _ => rfl
  | _ =>
    intro w _ _
    cases w <;> rfl

/-- Whether two values are equal as far as they are visible. -/
def alike (d : Display) : Value → Value → Guarded Bool
  | .binary a, .binary b => do
    let x ← word d a
    let y ← word d b
    pure (x == y)
  | l, r => equals l r

/-- One and zero for an equality that holds or fails. -/
def equality (d : Display) (op : BinaryOperator) (l r : Value) : Guarded Value := do
  let same ← alike d l r
  pure (.truth (if op = .ne then !same else same))

/-- The order of two values of one kind. -/
def order? (d : Display) : Value → Value → Guarded (Option (Option Ordering))
  | .binary a, .binary b => do
    let x ← word d a
    let y ← word d b
    pure (some (some (BinaryOperator.orderOf x y)))
  | .rational p, .rational q => do
    let x ← number p
    let y ← number q
    pure (some (some (BinaryOperator.orderOf x y)))
  | l, r => pure (BinaryOperator.order? d l r)

section

variable {d : Display} {l r : Value} (hl : l.WellFormed) (hr : r.WellFormed)

include hl hr

theorem equality_eq (op : BinaryOperator) : equality d op l r = .ok (op.equality d l r) := by
  have hequals := equals_eq l r hl hr
  cases l with
  | binary a =>
    cases r with
    | binary b =>
      rw [equality, alike, word_eq, ok_bind, word_eq]
      rfl
    | _ =>
      simp only [equality, alike, hequals]
      rfl
  | _ =>
    simp only [equality, alike, hequals]
    rfl

theorem order?_eq : order? d l r = .ok (BinaryOperator.order? d l r) := by
  unfold order?
  split
  · rw [word_eq, ok_bind, word_eq]
    rfl
  · rw [number_eq hl, ok_bind, number_eq hr]
    rfl
  · rfl

end

/-! ## Two values -/

/-- Combine two values of one kind without looking into sequences. -/
def combine (d : Display) (op : BinaryOperator) (l r : Value) : Guarded (Except Fault Value) :=
  if op.isEquality then do
    let v ← equality d op l r
    pure (.ok v)
  else if op.isOrdering then do
    match ← order? d l r with
    | some (some o) => pure (.ok (.truth (op.holds o)))
    | some none => pure (.ok (.truth false))
    | none => pure (op.unsupported l.kind)
  else
    match l, r with
    | .binary a, .binary b => do
      let x ← word d a
      let y ← word d b
      onWords d op x y
    | .integer m, .integer n => onIntegers op m n
    | .rational p, .rational q => onRationals op p q
    | l, r => pure (op.combine d l r)

theorem combine_eq {d : Display} {l r : Value} (op : BinaryOperator) (hl : l.WellFormed)
    (hr : r.WellFormed) : combine d op l r = .ok (op.combine d l r) := by
  unfold combine
  split
  · rename_i hequality
    unfold BinaryOperator.combine
    rw [equality_eq hl hr, if_pos hequality]
    rfl
  rename_i hequality
  split
  · rename_i hordering
    unfold BinaryOperator.combine
    rw [order?_eq hl hr, ok_bind, if_neg hequality, if_pos hordering]
    rcases BinaryOperator.order? d l r with _ | _ | o <;> rfl
  rename_i hordering
  split
  · rw [word_eq, ok_bind, word_eq, ok_bind, onWords_eq, BinaryOperator.combine,
      if_neg hequality, if_neg hordering]
  · rw [onIntegers_eq, BinaryOperator.combine, if_neg hequality, if_neg hordering]
  · rw [onRationals_eq op hl hr, BinaryOperator.combine, if_neg hequality, if_neg hordering]
  · rfl

/-- An operand brought to the kind of the operation. -/
def coerce (d : Display) (k : Kind) (v : Value) : Guarded (Except Fault Value) :=
  if v.kind = k then pure (.ok v) else convert d k v

theorem coerce_eq {d : Display} {v : Value} (hv : v.WellFormed) (k : Kind) :
    coerce d k v = .ok (BinaryOperator.coerce d k v) := by
  unfold coerce BinaryOperator.coerce
  split
  · rfl
  · exact convert_eq hv k

/-- The kinds in which operands meet: a row for each kind of the left one, and in it a column
for each kind of the right one. -/
def meetings : List (List (Option Kind)) := Kind.all.map fun l => Kind.all.map l.join?

/-- The kind in which two operands meet. -/
def join? (l r : Kind) : Guarded (Option Kind) := do
  let row ← item meetings l.index
  item row r.index

/-- Every kind has its place in the table. -/
theorem join?_eq (l r : Kind) : join? l r = .ok (l.join? r) := by
  cases l <;> cases r <;> rfl

/-- Bring two values to the kind in which they meet and combine them there, without looking
into sequences. -/
def combineMet (d : Display) (op : BinaryOperator) (l r : Value) :
    Guarded (Except Fault Value) := do
  match ← join? l.kind r.kind with
  | none => pure (.error (.noCommonKind l.kind r.kind))
  | some k => andThen (coerce d k l) fun l' => andThen (coerce d k r) fun r' => combine d op l' r'

theorem combineMet_eq {d : Display} {l r : Value} (op : BinaryOperator) (hl : l.WellFormed)
    (hr : r.WellFormed) : combineMet d op l r = .ok (op.combineMet d l r) := by
  rw [combineMet, join?_eq, ok_bind]
  cases hk : l.kind.join? r.kind with
  | none =>
    rw [BinaryOperator.combineMet, hk]
    rfl
  | some k =>
    rw [BinaryOperator.combineMet_of_join? hk]
    refine andThen_eq (coerce_eq hl k) fun l' hl' => andThen_eq (coerce_eq hr k) fun r' hr' => ?_
    have hwf {v v' : Value} (hv : v.WellFormed) (h : BinaryOperator.coerce d k v = .ok v') :
        v'.WellFormed := (BinaryOperator.ends_coerce hereditary_wellFormed hv k).of_ok h
    exact combine_eq op (hwf hl hl') (hwf hr hr')

/-! ## Sequences of pairs -/

/-- The results of a function that can fail, up to the first fault. -/
def collect {α β : Type} (f : α → Guarded (Except Fault β)) :
    List α → Guarded (Except Fault (List β))
  | [] => pure (.ok [])
  | a :: as => andThen (f a) fun b => mapped (b :: ·) (collect f as)

theorem collect_eq {α β : Type} {f : α → Guarded (Except Fault β)} {f₀ : α → Except Fault β}
    {as : List α} (h : ∀ a ∈ as, f a = .ok (f₀ a)) :
    collect f as = .ok (BinaryOperator.collect f₀ as) := by
  induction as with
  | nil => rfl
  | cons a as ih =>
    rw [List.forall_mem_cons] at h
    rw [BinaryOperator.collect_cons]
    exact andThen_eq h.1 fun b _ => mapped_eq _ (ih h.2)

mutual

/-- Apply an operator to two values. -/
def applyBinary (d : Display) (op : BinaryOperator) : Value → Value → Guarded (Except Fault Value)
  | .vector xs, .vector ys =>
    match op with
    | .add | .sub =>
      if xs.length = ys.length then mapped .vector (itemwise d op xs ys)
      else pure (.error (.domain .dimensionMismatch))
    | .mul =>
      if xs.length = ys.length then dot d xs (.integer 0) ys
      else pure (.error (.domain .dimensionMismatch))
    | op => combine d op (.vector xs) (.vector ys)
  | .matrix a, .matrix b =>
    match op with
    | .add | .sub =>
      if a.length = b.length then mapped .matrix (rowwise d op a b)
      else pure (.error (.domain .dimensionMismatch))
    | .mul =>
      if (a.headD []).length = b.length then
        mapped .matrix (products d a (BinaryOperator.columns b))
      else pure (.error (.domain .dimensionMismatch))
    | op => combine d op (.matrix a) (.matrix b)
  | l, r => combineMet d op l r
termination_by structural l => l

def itemwise (d : Display) (op : BinaryOperator) :
    List Value → List Value → Guarded (Except Fault (List Value))
  | x :: xs, y :: ys =>
    andThen (applyBinary d op x y) fun v => mapped (v :: ·) (itemwise d op xs ys)
  | _, _ => pure (.ok [])
termination_by structural xs => xs

def rowwise (d : Display) (op : BinaryOperator) :
    List (List Value) → List (List Value) → Guarded (Except Fault (List (List Value)))
  | x :: xs, y :: ys =>
    if x.length = y.length then
      andThen (itemwise d op x y) fun row => mapped (row :: ·) (rowwise d op xs ys)
    else pure (.error (.domain .dimensionMismatch))
  | _, _ => pure (.ok [])
termination_by structural rows => rows

def dot (d : Display) : List Value → Value → List Value → Guarded (Except Fault Value)
  | x :: xs, sum, y :: ys =>
    andThen (applyBinary d .mul x y) fun p =>
      andThen (combineMet d .add sum p) fun s => dot d xs s ys
  | _, sum, _ => pure (.ok sum)
termination_by structural xs => xs

def products (d : Display) :
    List (List Value) → List (Option (List Value)) → Guarded (Except Fault (List (List Value)))
  | [], _ => pure (.ok [])
  | row :: rows, cols =>
    andThen (collect (fun
      | some col =>
        if row.length = col.length then dot d row (.integer 0) col
        else pure (.error (.domain .dimensionMismatch))
      | none => pure (.error (.domain .dimensionMismatch))) cols)
      fun out => mapped (out :: ·) (products d rows cols)
termination_by structural rows => rows

end

/-- The value can be combined with every other that is well-formed. -/
def Combines (d : Display) (v : Value) : Prop :=
  ∀ op : BinaryOperator, ∀ w, v.WellFormed → w.WellFormed →
    applyBinary d op v w = .ok (op.apply d v w)

section

variable {d : Display}

theorem itemwise_eq (op : BinaryOperator) {xs ys : List Value} (hc : ∀ x ∈ xs, Combines d x)
    (hx : ∀ x ∈ xs, x.WellFormed) (hy : ∀ y ∈ ys, y.WellFormed) :
    itemwise d op xs ys = .ok (BinaryOperator.itemwise d op xs ys) := by
  induction xs generalizing ys with
  | nil => cases ys <;> rfl
  | cons x xs ih =>
    cases ys with
    | nil => rfl
    | cons y ys =>
      rw [List.forall_mem_cons] at hc hx hy
      rw [itemwise, BinaryOperator.itemwise_cons]
      exact andThen_eq (hc.1 op y hx.1 hy.1) fun v _ => mapped_eq _ (ih hc.2 hx.2 hy.2)

theorem rowwise_eq (op : BinaryOperator) {a b : List (List Value)}
    (hc : ∀ row ∈ a, ∀ x ∈ row, Combines d x) (ha : ∀ row ∈ a, ∀ x ∈ row, x.WellFormed)
    (hb : ∀ row ∈ b, ∀ y ∈ row, y.WellFormed) :
    rowwise d op a b = .ok (BinaryOperator.rowwise d op a b) := by
  induction a generalizing b with
  | nil => cases b <;> rfl
  | cons x a ih =>
    cases b with
    | nil => rfl
    | cons y b =>
      rw [List.forall_mem_cons] at hc ha hb
      by_cases hlen : x.length = y.length
      · rw [rowwise, if_pos hlen, BinaryOperator.rowwise_cons _ _ _ _ hlen]
        exact andThen_eq (itemwise_eq op hc.1 ha.1 hb.1) fun row _ =>
          mapped_eq _ (ih hc.2 ha.2 hb.2)
      · rw [rowwise, if_neg hlen, BinaryOperator.rowwise, if_neg hlen]
        rfl

/-- The sum that is carried along is well-formed. -/
theorem dot_eq {xs ys : List Value} {sum : Value} (hc : ∀ x ∈ xs, Combines d x)
    (hx : ∀ x ∈ xs, x.WellFormed) (hsum : sum.WellFormed) (hy : ∀ y ∈ ys, y.WellFormed) :
    dot d xs sum ys = .ok (BinaryOperator.dot d xs sum ys) := by
  have hP := hereditary_wellFormed
  induction xs generalizing sum ys with
  | nil => rfl
  | cons x xs ih =>
    cases ys with
    | nil => rfl
    | cons y ys =>
      rw [List.forall_mem_cons] at hc hx hy
      rw [dot, BinaryOperator.dot_cons]
      refine andThen_eq (hc.1 .mul y hx.1 hy.1) fun p hp => ?_
      have hpwf : p.WellFormed :=
        (BinaryOperator.ends_apply hP x .mul y hx.1 hy.1).of_ok hp
      refine andThen_eq (combineMet_eq .add hsum hpwf) fun s hs => ?_
      have hadd : Ends Value.WellFormed Fault.NotLiteral (BinaryOperator.combineMet d .add sum p) :=
        BinaryOperator.ends_combineMet hP hsum hpwf
      exact ih hc.2 hx.2 (hadd.of_ok hs) hy.2

theorem products_eq {a : List (List Value)} {cols : List (Option (List Value))}
    (hc : ∀ row ∈ a, ∀ x ∈ row, Combines d x) (ha : ∀ row ∈ a, ∀ x ∈ row, x.WellFormed)
    (hcols : ∀ col, some col ∈ cols → ∀ y ∈ col, y.WellFormed) :
    products d a cols = .ok (BinaryOperator.products d a cols) := by
  induction a with
  | nil => rfl
  | cons row a ih =>
    rw [List.forall_mem_cons] at hc ha
    rw [products, BinaryOperator.products_cons]
    refine andThen_eq (collect_eq fun col hcol => ?_) fun out _ => mapped_eq _ (ih hc.2 ha.2)
    cases col with
    | none => rfl
    | some col =>
      dsimp only
      split
      · exact dot_eq hc.1 ha.1 (hereditary_wellFormed.integer 0) (hcols col hcol)
      · rfl

/-- **An operator can be applied to any two well-formed values.** -/
theorem applyBinary_eq (l : Value) : Combines d l := by
  have hP := hereditary_wellFormed
  induction l with
  | vector xs ih =>
    intro op r hl hr
    cases r with
    | vector ys =>
      have hx := hP.vector.mp hl
      have hy := hP.vector.mp hr
      unfold applyBinary BinaryOperator.apply
      cases op with
      | add | sub =>
        dsimp only
        split
        · exact mapped_eq _ (itemwise_eq _ ih hx hy)
        · rfl
      | mul =>
        dsimp only
        split
        · exact dot_eq ih hx (hP.integer 0) hy
        · rfl
      | _ => exact combine_eq _ hl hr
    | _ => exact combineMet_eq op hl hr
  | matrix a ih =>
    intro op r hl hr
    cases r with
    | matrix b =>
      have ha := hP.items hl
      have hb := hP.items hr
      unfold applyBinary BinaryOperator.apply
      cases op with
      | add | sub =>
        dsimp only
        split
        · exact mapped_eq _ (rowwise_eq _ ih ha hb)
        · rfl
      | mul =>
        dsimp only
        split
        · refine mapped_eq _ (products_eq ih ha fun col hcol y hy => ?_)
          obtain ⟨row, hrow, hyrow⟩ := BinaryOperator.exists_row_of_mem_columns hcol hy
          exact hb row hrow y hyrow
        · rfl
      | _ => exact combine_eq _ hl hr
    | _ => exact combineMet_eq op hl hr
  | _ =>
    intro op r hl hr
    exact combineMet_eq op hl hr

end

/-! ## One value -/

/-- The float in the result of an operation. -/
def floatOf (d : Display) (v : Value) : Guarded (Except Fault Double) := do
  match ← convert d .float v with
  | .ok (.float x) => pure (.ok x)
  | .ok w => pure (.error (.noConversion w.kind .float))
  | .error f => pure (.error f)

theorem floatOf_eq {d : Display} {v : Value} (hv : v.WellFormed) :
    floatOf d v = .ok (UnaryOperator.floatOf d v) := by
  unfold UnaryOperator.floatOf
  rw [floatOf, convert_eq hv, ok_bind]
  rcases v.convert d .float with f | w
  · rfl
  · cases w <;> rfl

mutual

/-- Apply an operator to a value. -/
def applyUnary (d : Display) (op : UnaryOperator) : Value → Guarded (Except Fault Value)
  | .binary bits => do
    let b ← word d bits
    onWord d op b
  | .integer n => onInteger d op n
  | .rational q => onRational d op q
  | .vector items =>
    match op with
    | .neg => mapped .vector (negateItems d items)
    | .abs => mapped (fun s => .float s.sqrt) (sumOfSquares d .zero items)
    | op => pure (op.unsupported .vector)
  | .matrix rows =>
    match op with
    | .neg => mapped .matrix (negateRows d rows)
    | op => pure (op.unsupported .matrix)
  | v => pure (op.apply d v)
termination_by structural v => v

def negateItems (d : Display) : List Value → Guarded (Except Fault (List Value))
  | [] => pure (.ok [])
  | v :: vs => andThen (applyUnary d .neg v) fun w => mapped (w :: ·) (negateItems d vs)
termination_by structural vs => vs

def negateRows (d : Display) : List (List Value) → Guarded (Except Fault (List (List Value)))
  | [] => pure (.ok [])
  | row :: rows => andThen (negateItems d row) fun out => mapped (out :: ·) (negateRows d rows)
termination_by structural rows => rows

def sumOfSquares (d : Display) (sum : Double) : List Value → Guarded (Except Fault Double)
  | [] => pure (.ok sum)
  | v :: vs =>
    andThen (applyUnary d .abs v) fun w =>
      andThen (floatOf d w) fun m => sumOfSquares d (sum + m * m) vs
termination_by structural vs => vs

end

/-- Every operator can be applied to the value. -/
def Transforms (d : Display) (v : Value) : Prop :=
  ∀ op : UnaryOperator, v.WellFormed → applyUnary d op v = .ok (op.apply d v)

section

variable {d : Display}

theorem negateItems_eq {vs : List Value} (ht : ∀ v ∈ vs, Transforms d v)
    (hv : ∀ v ∈ vs, v.WellFormed) :
    negateItems d vs = .ok (UnaryOperator.negateItems d vs) := by
  induction vs with
  | nil => rfl
  | cons v vs ih =>
    rw [List.forall_mem_cons] at ht hv
    rw [negateItems, UnaryOperator.negateItems_cons]
    exact andThen_eq (ht.1 .neg hv.1) fun w _ => mapped_eq _ (ih ht.2 hv.2)

theorem negateRows_eq {rows : List (List Value)} (ht : ∀ row ∈ rows, ∀ v ∈ row, Transforms d v)
    (hv : ∀ row ∈ rows, ∀ v ∈ row, v.WellFormed) :
    negateRows d rows = .ok (UnaryOperator.negateRows d rows) := by
  induction rows with
  | nil => rfl
  | cons row rows ih =>
    rw [List.forall_mem_cons] at ht hv
    rw [negateRows, UnaryOperator.negateRows_cons]
    exact andThen_eq (negateItems_eq ht.1 hv.1) fun out _ => mapped_eq _ (ih ht.2 hv.2)

/-- A magnitude is well-formed, so it can be made a float. -/
theorem sumOfSquares_eq {vs : List Value} {sum : Double} (ht : ∀ v ∈ vs, Transforms d v)
    (hv : ∀ v ∈ vs, v.WellFormed) :
    sumOfSquares d sum vs = .ok (UnaryOperator.sumOfSquares d sum vs) := by
  induction vs generalizing sum with
  | nil => rfl
  | cons v vs ih =>
    rw [List.forall_mem_cons] at ht hv
    rw [sumOfSquares, UnaryOperator.sumOfSquares_cons]
    refine andThen_eq (ht.1 .abs hv.1) fun w hw => ?_
    have hwf : w.WellFormed :=
      (UnaryOperator.ends_apply hereditary_wellFormed v .abs hv.1).of_ok hw
    exact andThen_eq (floatOf_eq hwf) fun m _ => ih ht.2 hv.2

/-- **An operator can be applied to any well-formed value.** -/
theorem applyUnary_eq (v : Value) : Transforms d v := by
  have hP := hereditary_wellFormed
  induction v with
  | binary bits =>
    intro op _
    rw [applyUnary, word_eq, ok_bind, onWord_eq op (d.word_lt bits), UnaryOperator.apply]
  | integer n => exact fun op _ => onInteger_eq d op n
  | rational q => exact fun op hv => onRational_eq d op hv
  | vector items ih =>
    intro op hv
    have hitems := hP.vector.mp hv
    unfold applyUnary UnaryOperator.apply
    cases op with
    | neg => exact mapped_eq _ (negateItems_eq ih hitems)
    | abs => exact mapped_eq _ (sumOfSquares_eq ih hitems)
    | _ => rfl
  | matrix rows ih =>
    intro op hv
    unfold applyUnary UnaryOperator.apply
    cases op with
    | neg => exact mapped_eq _ (negateRows_eq ih (hP.items hv))
    | _ => rfl
  | _ => exact fun op _ => rfl

end

end Guarded

end RpnCalculator
