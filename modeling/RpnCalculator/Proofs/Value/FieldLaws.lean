import RpnCalculator.Proofs.Number.Truncation
import RpnCalculator.Proofs.Value.Product
import RpnCalculator.Proofs.Value.SquareRoot

/-!
# Laws of exact numbers

The functions of one number are written apart from the operators on two, once for integers and
once for rationals, and their results change kinds: the inverse of an integer is a rational, and
the sign of a rational an integer.  This file shows that the functions and the operators obey the
laws of the field of rational numbers together (`field_laws`).

## Numbers behind values

As for the operators, there is one arithmetic behind the functions (`UnaryOperator.exactly?`,
`UnaryOperator.apply_exact`).  So what is computed of integers and rationals stands for the number
that the rational numbers give (`Yields.unary`, `Yields.binary`), and two results are equal if they
stand for one number (`equal_of_yields`).  Each law is then one of rational numbers.

## Nested numbers

The negative of a vector or a matrix is made of the negatives of its items, whatever these are.
Negated twice, a value made of numbers (`MadeOfNumbers`) is what it was.  For a rational this needs
lowest terms, which the result has and the operand would not need to have.
-/

namespace RpnCalculator

open BinaryOperator (Gives resultOf)

variable {d : Display}

/-! ## The arithmetic of the functions -/

namespace UnaryOperator

open Value (ofExact ofRat)

/-- What an operator comes to on a rational number, if it comes to anything. -/
def exactly? (op : UnaryOperator) (r : Rat) : Option Rat :=
  match op with
  | .abs => some |r|
  | .conj | .re => some r
  | .im => some 0
  | .frac => some (r - (r.num.tdiv r.den : Int))
  | .intPart => some (r.num.tdiv r.den : Int)
  | .inv => if r = 0 then none else some r⁻¹
  | .neg => some (-r)
  | .sign => some r.num.sign
  | .sq => some (r * r)
  | _ => none

/-- Whether the operator is one of those of which exact numbers have an exact result, square
roots apart. -/
def isExact : UnaryOperator → Bool
  | .abs | .conj | .re | .im | .frac | .intPart | .inv | .neg | .sign | .sq => true
  | _ => false

theorem isExact_of_exactly? {op : UnaryOperator} {r s : Rat} (h : op.exactly? r = some s) :
    op.isExact = true := by
  cases op <;> first | rfl | simp [exactly?] at h

theorem exactly?_eq_none_iff {op : UnaryOperator} (h : op.isExact = true) {r : Rat} :
    op.exactly? r = none ↔ op = .inv ∧ r = 0 := by
  cases op <;> simp [exactly?, isExact] at h ⊢

/-- **Of an integer the functions compute the number**, as an integer but for the inverse. -/
theorem onInteger_exact {op : UnaryOperator} (h : op.isExact = true) (n : Int) :
    op.onInteger d n = resultOf (if op = .inv then ofRat else ofExact) (op.exactly? n) := by
  have hint (k : Int) : ofExact (k : Rat) = .integer k := Value.ofExact_intCast k
  cases op with
  | abs =>
    have habs : |(n : Rat)| = ((n.natAbs : Int) : Rat) := by
      rw [Int.natCast_natAbs, Int.cast_abs]
    simp only [onInteger, exactly?, resultOf, habs, hint, reduceCtorEq, if_false]
  | conj | re => simp only [onInteger, exactly?, resultOf, hint, reduceCtorEq, if_false]
  | im => exact congrArg Except.ok (hint 0).symm
  | frac =>
    have hrest : (n : Rat) - ((n : Rat).num.tdiv (n : Rat).den : Int) = (0 : Int) := by
      simp
    simp only [onInteger, exactly?, resultOf, hrest, hint, reduceCtorEq, if_false]
  | intPart =>
    have hwhole : (n : Rat).num.tdiv (n : Rat).den = n := by simp
    simp only [onInteger, exactly?, resultOf, hwhole, hint, reduceCtorEq, if_false]
  | inv =>
    by_cases hn : n = 0
    · rw [onInteger, if_pos hn, exactly?, if_pos (Int.cast_eq_zero.mpr hn)]
      rfl
    · have hinv : Rat.divInt 1 n = (n : Rat)⁻¹ := by
        rw [Rat.divInt_eq_div, Int.cast_one, one_div]
      simp [onInteger, exactly?, resultOf, hn, hinv]
  | neg =>
    have hneg : -(n : Rat) = (-n : Int) := (Int.cast_neg n).symm
    simp only [onInteger, exactly?, resultOf, hneg, hint, reduceCtorEq, if_false]
  | sign => simp only [onInteger, exactly?, resultOf, Rat.num_intCast, hint, reduceCtorEq, if_false]
  | sq =>
    have hsquare : (n : Rat) * n = (n * n : Int) := (Int.cast_mul n n).symm
    simp only [onInteger, exactly?, resultOf, hsquare, hint, reduceCtorEq, if_false]
  | _ => simp [isExact] at h

/-- **Of a rational too**, as a rational but for the sign. -/
theorem onRational_exact {op : UnaryOperator} (h : op.isExact = true) (q : Rat) :
    op.onRational d q = resultOf (if op = .sign then ofExact else ofRat) (op.exactly? q) := by
  cases op with
  | abs =>
    rw [onRational_abs]
    rfl
  | conj | re | im | frac | intPart | neg | sq => rfl
  | inv =>
    simp only [onRational, exactly?]
    split <;> rfl
  | sign => exact congrArg Except.ok (Value.ofExact_intCast _).symm
  | _ => simp [isExact] at h

/-- How the result is made of a number: as a rational if the operand is one, the sign apart, and
as an integer if not, the inverse apart. -/
def makes (op : UnaryOperator) (v : Value) : Rat → Value :=
  if v.kind = .rational then if op = .sign then ofExact else ofRat
  else if op = .inv then ofRat else ofExact

theorem makes_eq (op : UnaryOperator) (v : Value) :
    op.makes v = ofRat ∨ op.makes v = ofExact := by
  unfold makes
  split <;> split <;> simp

end UnaryOperator

/-! ## What a computation yields -/

/-- The computation ends with an integer or a rational, and that stands for the number. -/
def Yields (r : Rat) (c : Except Fault Value) : Prop := Gives (fun v => v.IsExact ∧ v.amount = r) c

theorem yields_ok {v : Value} (h : v.IsExact) : Yields v.amount (.ok v) := ⟨h, rfl⟩

theorem Yields.congr {p q : Rat} {c : Except Fault Value} (h : Yields p c) (hpq : p = q) :
    Yields q c := hpq ▸ h

/-- However a value is made of a number, it stands for the number. -/
theorem yields_resultOf {make : Rat → Value} (h : make = Value.ofRat ∨ make = Value.ofExact)
    (r : Rat) : Yields r (resultOf make (some r)) := by
  have hmade : (make r).IsExact ∧ (make r).number? default = some r := by
    rcases h with rfl | rfl
    · exact ⟨Value.isExact_ofRat r, Value.number?_ofRat default r⟩
    · exact ⟨Value.isExact_ofExact r, Value.number?_ofExact default r⟩
  refine ⟨hmade.1, ?_⟩
  have hnumber := hmade.2
  rw [hmade.1.number?_eq] at hnumber
  exact Option.some.inj hnumber

/-- What was made of a number is an integer or a rational in lowest terms. -/
theorem isExact_of_resultOf {make : Rat → Value} (h : make = Value.ofRat ∨ make = Value.ofExact)
    {o : Option Rat} {w : Value} (hw : resultOf make o = .ok w) : w.IsExact := by
  cases o with
  | none => cases hw
  | some r =>
    obtain rfl := Except.ok.inj hw
    exact (yields_resultOf h r).1

/-- **A function of a number is the arithmetic.**  The kind of the number decides only in which
kind the result is given. -/
theorem UnaryOperator.apply_amount {op : UnaryOperator} {v : Value} (hop : op.isExact = true)
    (hv : v.IsExact) : op.apply d v = resultOf (op.makes v) (op.exactly? v.amount) := by
  cases v with
  | integer n =>
    show op.onInteger d n = _
    rw [onInteger_exact hop]
    simp [makes, Value.kind, Value.amount]
  | rational q =>
    show op.onRational d q.toRat = _
    rw [onRational_exact hop]
    simp [makes, Value.kind, Value.amount]
  | _ => simp [Value.IsExact, Value.kind] at hv

/-- So it yields what it comes to. -/
theorem Yields.unary (op : UnaryOperator) {p r : Rat} {c : Except Fault Value} (hc : Yields p c)
    (hr : op.exactly? p = some r) : Yields r (do op.apply d (← c)) := by
  refine Ends.bind hc fun v ⟨hv, hp⟩ => ?_
  subst hp
  rw [UnaryOperator.apply_amount (UnaryOperator.isExact_of_exactly? hr) hv, hr]
  exact yields_resultOf (op.makes_eq v) r

/-- An operator on two numbers is the arithmetic. -/
theorem BinaryOperator.apply_amount {op : BinaryOperator} {v w : Value} (hop : op.isExact = true)
    (hv : v.IsExact) (hw : w.IsExact) :
    op.apply d v w = resultOf (op.makes v w) (op.exactly? v.amount w.amount) := by
  refine apply_exact hop hv.number?_eq hw.number?_eq ?_
  rintro ⟨hbinary, -⟩
  rcases hv.1 with h | h <;> cases hbinary.symm.trans h

/-- **So does an operator on two.** -/
theorem Yields.binary (op : BinaryOperator) {p q r : Rat} {c e : Except Fault Value}
    (hc : Yields p c) (he : Yields q e) (hr : op.exactly? p q = some r) :
    Yields r (do op.apply d (← c) (← e)) := by
  refine Ends.bind hc fun v ⟨hv, hp⟩ => Ends.bind he fun w ⟨hw, hq⟩ => ?_
  subst hp hq
  rw [BinaryOperator.apply_amount (BinaryOperator.isExact_of_exactly? hr) hv hw, hr]
  exact yields_resultOf (ite_eq_or_eq _ _ _) r

/-- The calculator finds that a comparison of two results holds. -/
def Holds (d : Display) (op : BinaryOperator) (c e : Except Fault Value) : Prop :=
  (do op.apply d (← c) (← e)) = .ok (.integer 1)

/-- **A comparison of two results holds when it holds of the numbers.** -/
theorem holds_of_yields {op : BinaryOperator} {p q : Rat} {c e : Except Fault Value}
    (hop : op.isComparison = true) (hc : Yields p c) (he : Yields q e)
    (h : op.exactly? p q = some 1) : Holds d op c e := by
  obtain ⟨v, rfl, hv, rfl⟩ := hc.exists_eq_ok
  obtain ⟨w, rfl, hw, rfl⟩ := he.exists_eq_ok
  show op.apply d v w = _
  rw [BinaryOperator.apply_amount (BinaryOperator.isExact_of_exactly? h) hv hw, h,
    BinaryOperator.makes_of_isComparison hop]
  exact congrArg Except.ok (Value.ofExact_intCast 1)

theorem holds_eq_of_yields {r : Rat} {c e : Except Fault Value} (hc : Yields r c)
    (he : Yields r e) : Holds d .eq c e :=
  holds_of_yields rfl hc he (by simp [BinaryOperator.exactly?])

/-! ## The laws of one number or two -/

section Laws

variable {x y : Value}

theorem Value.IsExact.unary (op : UnaryOperator) {r : Rat} (hx : x.IsExact)
    (hr : op.exactly? x.amount = some r) : Yields r (op.apply d x) :=
  (yields_ok hx).unary op hr

theorem Value.IsExact.binary (op : BinaryOperator) {r : Rat} (hx : x.IsExact) (hy : y.IsExact)
    (hr : op.exactly? x.amount y.amount = some r) : Yields r (op.apply d x y) :=
  (yields_ok hx).binary op (yields_ok hy) hr

/-- A number is its whole part and the rest. -/
theorem intPart_add_frac (hx : x.IsExact) :
    Holds d .eq
      (do
        BinaryOperator.add.apply d (← UnaryOperator.intPart.apply d x)
          (← UnaryOperator.frac.apply d x))
      (.ok x) := by
  have hsum := Yields.binary (d := d) .add (hx.unary (d := d) .intPart rfl)
    (hx.unary (d := d) .frac rfl) rfl
  exact holds_eq_of_yields (hsum.congr (by ring)) (yields_ok hx)

/-- The rest is smaller than one, and has the sign of the number. -/
theorem frac_rest (hx : x.IsExact) :
    ∃ f, UnaryOperator.frac.apply d x = .ok f ∧ |f.amount| < 1 ∧
      (f.amount = 0 ∨ 0 < f.amount ∧ 0 < x.amount ∨ f.amount < 0 ∧ x.amount < 0) := by
  obtain ⟨f, hf, -, hamount⟩ := (hx.unary (d := d) .frac rfl).exists_eq_ok
  refine ⟨f, hf, ?_⟩
  rw [hamount]
  exact (truncates_tdiv x.amount).rest

/-- A number is its magnitude with its sign. -/
theorem sign_mul_abs (hx : x.IsExact) :
    Holds d .eq
      (do
        BinaryOperator.mul.apply d (← UnaryOperator.sign.apply d x)
          (← UnaryOperator.abs.apply d x))
      (.ok x) := by
  have hproduct := Yields.binary (d := d) .mul (hx.unary (d := d) .sign rfl)
    (hx.unary (d := d) .abs rfl) rfl
  refine holds_eq_of_yields (hproduct.congr ?_) (yields_ok hx)
  rcases lt_trichotomy x.amount 0 with h | h | h
  · rw [Int.sign_eq_neg_one_of_neg (Rat.num_neg.mpr h), abs_of_neg h]
    push_cast
    ring
  · rw [h, abs_zero, mul_zero]
  · rw [Int.sign_eq_one_of_pos (Rat.num_pos.mpr h), abs_of_pos h]
    push_cast
    ring

theorem abs_ge_zero (hx : x.IsExact) :
    Holds d .ge (UnaryOperator.abs.apply d x) (.ok (.integer 0)) := by
  refine holds_of_yields rfl (hx.unary .abs rfl) (yields_ok (Value.isExact_integer 0)) ?_
  exact congrArg some (if_pos (by simp [Value.amount]))

theorem sq_eq_mul_self (hx : x.IsExact) :
    Holds d .eq (UnaryOperator.sq.apply d x) (BinaryOperator.mul.apply d x x) :=
  holds_eq_of_yields (hx.unary .sq rfl) (hx.binary .mul hx rfl)

theorem add_neg_self (hx : x.IsExact) :
    Holds d .eq (do BinaryOperator.add.apply d x (← UnaryOperator.neg.apply d x))
      (.ok (.integer 0)) := by
  have hsum := (yields_ok hx).binary (d := d) .add
    (hx.unary (d := d) .neg rfl) rfl
  exact holds_eq_of_yields (hsum.congr (by simp [Value.amount]))
    (yields_ok (Value.isExact_integer 0))

theorem sub_eq_add_neg_apply (hx : x.IsExact) (hy : y.IsExact) :
    Holds d .eq (BinaryOperator.sub.apply d x y)
      (do BinaryOperator.add.apply d x (← UnaryOperator.neg.apply d y)) := by
  have hsum := (yields_ok hx).binary (d := d) .add
    (hy.unary (d := d) .neg rfl) rfl
  exact holds_eq_of_yields (hx.binary .sub hy rfl) (hsum.congr (sub_eq_add_neg _ _).symm)

/-- **Only zero has no inverse.** -/
theorem inv_eq_error_iff (hx : x.IsExact) {f : Fault} :
    UnaryOperator.inv.apply d x = .error f ↔ x.amount = 0 ∧ f = .domain .divisionByZero := by
  have hinv : UnaryOperator.inv.isExact = true := rfl
  have hnone := UnaryOperator.exactly?_eq_none_iff hinv (r := x.amount)
  rw [UnaryOperator.apply_amount rfl hx, BinaryOperator.resultOf_eq_error_iff, hnone]
  simp

theorem mul_inv_self (hx : x.IsExact) (h : x.amount ≠ 0) :
    Holds d .eq (do BinaryOperator.mul.apply d x (← UnaryOperator.inv.apply d x))
      (.ok (.integer 1)) := by
  have hproduct := (yields_ok hx).binary (d := d) .mul
    (hx.unary (d := d) .inv (if_neg h)) rfl
  refine holds_eq_of_yields (hproduct.congr ?_) (yields_ok (Value.isExact_integer 1))
  rw [mul_inv_cancel₀ h]
  exact Int.cast_one.symm

theorem inv_inv_self (hx : x.IsExact) (h : x.amount ≠ 0) :
    Holds d .eq (do UnaryOperator.inv.apply d (← UnaryOperator.inv.apply d x)) (.ok x) := by
  have hinverse := (hx.unary (d := d) .inv (if_neg h)).unary (d := d) .inv
    (if_neg (inv_ne_zero h))
  exact holds_eq_of_yields (hinverse.congr (inv_inv _)) (yields_ok hx)

end Laws

/-! ## Nested numbers -/

namespace Value

/-- An integer, a rational in lowest terms, or a vector or a matrix of such values at any
depth. -/
inductive MadeOfNumbers : Value → Prop
  | integer (n : Int) : MadeOfNumbers (.integer n)
  | rational {q : Fraction} : q.Reduced → MadeOfNumbers (.rational q)
  | vector {items : List Value} : (∀ v ∈ items, MadeOfNumbers v) → MadeOfNumbers (.vector items)
  | matrix {rows : List (List Value)} :
    (∀ row ∈ rows, ∀ v ∈ row, MadeOfNumbers v) → MadeOfNumbers (.matrix rows)

/-- Two values differ only in the numbers that they are made of, and these are of the same
kinds. -/
inductive SameShape : Value → Value → Prop
  | integer (m n : Int) : SameShape (.integer m) (.integer n)
  | rational (p q : Fraction) : SameShape (.rational p) (.rational q)
  | vector {xs ys : List Value} : List.Forall₂ SameShape xs ys → SameShape (.vector xs) (.vector ys)
  | matrix {xss yss : List (List Value)} :
    List.Forall₂ (List.Forall₂ SameShape) xss yss → SameShape (.matrix xss) (.matrix yss)

end Value

namespace UnaryOperator

open Value (MadeOfNumbers SameShape)

theorem negateItems_eq_ok {vs ws : List Value}
    (h : List.Forall₂ (fun v w => UnaryOperator.neg.apply d v = .ok w) vs ws) :
    negateItems d vs = .ok ws := by
  induction h with
  | nil => rfl
  | cons hv _ ih =>
    rw [negateItems_cons, hv, ih]
    rfl

theorem negateRows_eq_ok {vss wss : List (List Value)}
    (h : List.Forall₂ (List.Forall₂ fun v w => UnaryOperator.neg.apply d v = .ok w) vss wss) :
    negateRows d vss = .ok wss := by
  induction h with
  | nil => rfl
  | cons hrow _ ih =>
    rw [negateRows_cons, negateItems_eq_ok hrow, ih]
    rfl

/-- Each of two values is the negative of the other, and they have one shape. -/
structure Opposite (d : Display) (v w : Value) : Prop where
  there : UnaryOperator.neg.apply d v = .ok w
  back : UnaryOperator.neg.apply d w = .ok v
  shape : SameShape v w

namespace Opposite

theorem vector {vs ws : List Value} (h : List.Forall₂ (Opposite d) vs ws) :
    Opposite d (.vector vs) (.vector ws) where
  there := by
    rw [apply, negateItems_eq_ok (h.imp fun _ _ ho => ho.there)]
    rfl
  back := by
    rw [apply, negateItems_eq_ok (h.imp fun _ _ ho => ho.back).flip]
    rfl
  shape := .vector (h.imp fun _ _ ho => ho.shape)

theorem matrix {vss wss : List (List Value)}
    (h : List.Forall₂ (List.Forall₂ (Opposite d)) vss wss) :
    Opposite d (.matrix vss) (.matrix wss) where
  there := by
    rw [apply, negateRows_eq_ok (h.imp fun _ _ hrow => hrow.imp fun _ _ ho => ho.there)]
    rfl
  back := by
    rw [apply, negateRows_eq_ok (h.imp fun _ _ hrow => (hrow.imp fun _ _ ho => ho.back).flip).flip]
    rfl
  shape := .matrix (h.imp fun _ _ hrow => hrow.imp fun _ _ ho => ho.shape)

end Opposite

/-- Items that all have a partner are the left side of a list of pairs. -/
theorem exists_forall₂ {α β : Type} [Nonempty β] {R : α → β → Prop} {as : List α}
    (h : ∀ a ∈ as, ∃ b, R a b) : ∃ bs, List.Forall₂ R as bs := by
  choose! f hf using h
  exact ⟨as.map f, List.forall₂_map_right_iff.mpr (List.forall₂_same.mpr hf)⟩

/-- **Every value made of numbers has an opposite.** -/
theorem exists_opposite {v : Value} (h : MadeOfNumbers v) : ∃ w, Opposite d v w := by
  induction h with
  | integer n =>
    exact ⟨.integer (-n), rfl, congrArg (Except.ok ∘ Value.integer) (neg_neg n), .integer _ _⟩
  | @rational q hq =>
    refine ⟨.ofRat (-q.toRat), rfl, ?_, .rational _ _⟩
    show Except.ok (Value.ofRat (-(Fraction.ofRat (-q.toRat)).toRat)) = _
    rw [Fraction.toRat_ofRat, neg_neg, Value.ofRat, Fraction.ofRat_toRat hq]
  | vector _ ih =>
    obtain ⟨ws, hws⟩ := exists_forall₂ ih
    exact ⟨_, .vector hws⟩
  | matrix _ ih =>
    obtain ⟨wss, hwss⟩ := exists_forall₂ fun row hrow => exists_forall₂ (ih row hrow)
    exact ⟨_, .matrix hwss⟩

end UnaryOperator

/-! ## All laws -/

/-- **The functions of one number and the operators on two obey the laws of a field.**  Of
integers and of rationals in lowest terms the calculator finds that a number is its whole part
and a rest smaller than one, that it is its magnitude with its sign, that the square is a product
and the difference a sum with the negative, and that everything but zero has an inverse.  All
results are in lowest terms again, and negating twice changes nothing at any depth. -/
theorem field_laws (d : Display) :
    (∀ x : Value, x.IsExact →
      -- the whole part and the rest
      (Holds d .eq
          (do
            BinaryOperator.add.apply d (← UnaryOperator.intPart.apply d x)
              (← UnaryOperator.frac.apply d x))
          (.ok x) ∧
        ∃ f, UnaryOperator.frac.apply d x = .ok f ∧ |f.amount| < 1 ∧
          (f.amount = 0 ∨ 0 < f.amount ∧ 0 < x.amount ∨ f.amount < 0 ∧ x.amount < 0)) ∧
      -- the sign and the magnitude
      (Holds d .eq
          (do
            BinaryOperator.mul.apply d (← UnaryOperator.sign.apply d x)
              (← UnaryOperator.abs.apply d x))
          (.ok x) ∧
        Holds d .ge (UnaryOperator.abs.apply d x) (.ok (.integer 0))) ∧
      -- the square
      Holds d .eq (UnaryOperator.sq.apply d x) (BinaryOperator.mul.apply d x x) ∧
      -- the negative
      (Holds d .eq (do BinaryOperator.add.apply d x (← UnaryOperator.neg.apply d x))
          (.ok (.integer 0)) ∧
        ∀ y : Value, y.IsExact →
          Holds d .eq (BinaryOperator.sub.apply d x y)
            (do BinaryOperator.add.apply d x (← UnaryOperator.neg.apply d y))) ∧
      -- the inverse
      (∀ f, UnaryOperator.inv.apply d x = .error f ↔
        x.amount = 0 ∧ f = .domain .divisionByZero) ∧
      (x.amount ≠ 0 →
        Holds d .eq (do BinaryOperator.mul.apply d x (← UnaryOperator.inv.apply d x))
            (.ok (.integer 1)) ∧
          Holds d .eq (do UnaryOperator.inv.apply d (← UnaryOperator.inv.apply d x)) (.ok x))) ∧
    -- the results
    (∀ (op : UnaryOperator) (x w : Value), op.isExact = true → x.IsExact →
      op.apply d x = .ok w → w.IsExact) ∧
    (∀ (op : BinaryOperator) (x y w : Value), op.isExact = true → x.IsExact → y.IsExact →
      op.apply d x y = .ok w → w.IsExact) ∧
    -- the negative of nested numbers
    ∀ v : Value, v.MadeOfNumbers → ∃ w, UnaryOperator.neg.apply d v = .ok w ∧
      v.SameShape w ∧ UnaryOperator.neg.apply d w = .ok v := by
  refine ⟨fun x hx => ⟨⟨intPart_add_frac hx, frac_rest hx⟩, ⟨sign_mul_abs hx, abs_ge_zero hx⟩,
    sq_eq_mul_self hx, ⟨add_neg_self hx, fun y hy => sub_eq_add_neg_apply hx hy⟩,
    fun f => inv_eq_error_iff hx, fun h => ⟨mul_inv_self hx h, inv_inv_self hx h⟩⟩,
    fun op x w hop hx hw => ?_, fun op x y w hop hx hy hw => ?_, fun v hv => ?_⟩
  · rw [UnaryOperator.apply_amount hop hx] at hw
    exact isExact_of_resultOf (op.makes_eq x) hw
  · rw [BinaryOperator.apply_amount hop hx hy] at hw
    exact isExact_of_resultOf (ite_eq_or_eq _ _ _) hw
  · obtain ⟨w, hw⟩ := UnaryOperator.exists_opposite (d := d) hv
    exact ⟨w, hw.there, hw.shape, hw.back⟩

/-- Minus seven halves, and a matrix that holds it beside a vector. -/
theorem field_laws_nested :
    ((Value.rational ⟨-7, 2⟩).IsExact ∧ (Value.rational ⟨-7, 2⟩).amount ≠ 0 ∧
      (Value.matrix [[.rational ⟨-7, 2⟩, .vector [.integer 3]]]).MadeOfNumbers) ∧
    (∃ f, UnaryOperator.frac.apply default (.rational ⟨-7, 2⟩) = .ok f ∧ |f.amount| < 1) ∧
    Holds default .eq
      (do
        BinaryOperator.mul.apply default (.rational ⟨-7, 2⟩)
          (← UnaryOperator.inv.apply default (.rational ⟨-7, 2⟩)))
      (.ok (.integer 1)) ∧
    UnaryOperator.inv.apply default (.integer 0) = .error (.domain .divisionByZero) ∧
    Holds default .eq (BinaryOperator.sub.apply default (.integer 3) (.rational ⟨-7, 2⟩))
      (do
        BinaryOperator.add.apply default (.integer 3)
          (← UnaryOperator.neg.apply default (.rational ⟨-7, 2⟩))) ∧
    ∃ w, UnaryOperator.neg.apply default (.matrix [[.rational ⟨-7, 2⟩, .vector [.integer 3]]]) =
        .ok w ∧
      UnaryOperator.neg.apply default w = .ok (.matrix [[.rational ⟨-7, 2⟩, .vector [.integer 3]]])
    := by
  have hreduced : (⟨-7, 2⟩ : Fraction).Reduced := by decide
  have hexact : (Value.rational ⟨-7, 2⟩).IsExact := ⟨.inr rfl, hreduced⟩
  have hne : (Value.rational ⟨-7, 2⟩).amount ≠ 0 := by
    rw [Value.amount, Fraction.toRat, Rat.divInt_eq_div]
    norm_num
  have hnested : (Value.matrix [[.rational ⟨-7, 2⟩, .vector [.integer 3]]]).MadeOfNumbers := by
    refine .matrix fun row hrow v hv => ?_
    rw [List.mem_singleton] at hrow
    subst hrow
    simp only [List.mem_cons, List.not_mem_nil, or_false] at hv
    obtain rfl | rfl := hv
    · exact .rational hreduced
    · exact .vector fun w hw => List.mem_singleton.mp hw ▸ .integer 3
  obtain ⟨hlaws, -, -, hneg⟩ := field_laws default
  obtain ⟨⟨-, f, hf, hlt, -⟩, -, -, -, -, hinv⟩ := hlaws _ hexact
  obtain ⟨-, -, -, ⟨-, hsub⟩, -⟩ := hlaws _ (Value.isExact_integer 3)
  obtain ⟨-, -, -, -, hzero, -⟩ := hlaws _ (Value.isExact_integer 0)
  obtain ⟨w, hw, -, hback⟩ := hneg _ hnested
  exact ⟨⟨hexact, hne, hnested⟩, ⟨f, hf, hlt⟩, (hinv hne).1,
    (hzero _).mpr ⟨by simp [Value.amount], rfl⟩, hsub _ hexact, w, hw, hback⟩

end RpnCalculator
