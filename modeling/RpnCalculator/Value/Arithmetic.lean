import RpnCalculator.Value.Conversion
import RpnCalculator.Value.Equality
import RpnCalculator.Number.Bits

/-!
# Operations on two values

`BinaryOperator.apply` brings its operands to the kind in which they meet
(`Kind.join?`) and combines them there.  Words are combined modulo the number of words,
integers and rationals exactly, floats and complex numbers with rounding.  Integers that
do not divide give a rational.

Vectors and matrices are combined item by item, or row by column, and their items go
through the whole rule again: each pair meets in a kind of its own.

## Where the recursion ends

The items of a sequence are parts of it, so the recursion is on the left operand.  The
one call that is not on parts adds a product to a sum already formed.  A sum starts as
the integer zero, and what meets a number is a number, so a sum never is a sequence;
`combineMet`, which does not look into sequences, is enough there
(`apply_eq_combineMet`).
-/

namespace RpnCalculator

namespace BinaryOperator

/-- The operation has no result for these operands, although it is defined for their kind. -/
def outside (f : DomainFault) : Except Fault Value := .error (.domain f)

/-- The operation is not defined for the kind. -/
def unsupported (op : BinaryOperator) (k : Kind) : Except Fault Value :=
  .error (.unsupported (.binary op) k)

/-! ## Comparison -/

/-- One and zero for an equality that holds or fails. -/
def equality (d : Display) (op : BinaryOperator) (l r : Value) : Value :=
  let same :=
    match l, r with
    | .binary a, .binary b => d.word a == d.word b
    | l, r => l.equals r
  .truth (if op = .ne then !same else same)

/-- The order of two numbers of a type with decidable order. -/
def orderOf {α : Type} [LT α] [DecidableLT α] [DecidableEq α] (a b : α) : Ordering :=
  if a < b then .lt else if a = b then .eq else .gt

/-- The order of two values of one kind: none if the kind has no order, and no answer if
a NaN is compared. -/
def order? (d : Display) : Value → Value → Option (Option Ordering)
  | .binary a, .binary b => some (some (orderOf (d.word a) (d.word b)))
  | .float x, .float y => some (x.compare? y)
  | .integer m, .integer n => some (some (orderOf m n))
  | .rational p, .rational q => some (some (orderOf p.toRat q.toRat))
  | .string s, .string t => some (some (Text.compare s t))
  | _, _ => none

/-! ## Words -/

/-- An operation on the visible parts of two words. -/
def onWords (d : Display) (op : BinaryOperator) (a b : Nat) : Except Fault Value :=
  match op with
  | .add => .ok (.ofWord d (a + b))
  | .sub => .ok (.ofWord d (Bits.subMod d.modulus a b))
  | .mul => .ok (.ofWord d (a * b))
  | .div => if b = 0 then outside .divisionByZero else .ok (.ofWord d (a / b))
  | .mod => if b = 0 then outside .divisionByZero else .ok (.ofWord d (a % b))
  | .pow => .ok (.ofWord d (Bits.powMod d.modulus a b))
  | .and => .ok (.ofWord d (a &&& b))
  | .or => .ok (.ofWord d (a ||| b))
  | .xor => .ok (.ofWord d (a ^^^ b))
  | op => op.unsupported .binary

/-! ## Floats and complex numbers -/

def onComplex (op : BinaryOperator) (z w : Complex) : Except Fault Value :=
  match op with
  | .add => .ok (.complex (z + w))
  | .sub => .ok (.complex (z - w))
  | .mul => .ok (.complex (z * w))
  | .div => if w.isZero then outside .divisionByZero else .ok (.complex (z / w))
  | .pow => .ok (.complex (z.pow w))
  | op => op.unsupported .complex

/-- A negative number to a power that is not an integer is complex. -/
def floatPow (x y : Double) : Value :=
  if x.less .zero && !y.fract.equals .zero then
    .complex (Complex.pow (.ofReal x) (.ofReal y))
  else .float (x.pow y)

def onFloats (op : BinaryOperator) (x y : Double) : Except Fault Value :=
  match op with
  | .add => .ok (.float (x + y))
  | .sub => .ok (.float (x - y))
  | .mul => .ok (.float (x * y))
  | .div => if y.isZero then outside .divisionByZero else .ok (.float (x / y))
  | .mod =>
    if y.isZero then outside .divisionByZero else .ok (.float (x - y * (x / y).floor))
  | .pow => .ok (floatPow x y)
  | op => op.unsupported .float

/-! ## Exact numbers -/

/-- The most bits that a power is allowed to have. -/
def maxPowerBits : Nat := 1048576

/-- Whether a power would have more bits than allowed, judged by the size of its base.
The powers of a base of a single bit stay as small as the base. -/
def powerTooLarge (baseBits exponent : Nat) : Bool :=
  decide (1 < baseBits) && decide (maxPowerBits < baseBits * exponent)

/-- An integer to an integer power.  A negative exponent gives a rational. -/
def integerPow (b e : Int) : Except Fault Value :=
  if 4294967296 ≤ e.natAbs then outside .exponentTooLarge
  else if powerTooLarge (Bits.size b) e.natAbs then outside .exponentTooLarge
  else if 0 ≤ e then .ok (.integer (Int.pow b e.natAbs))
  else if b = 0 then outside .divisionByZero
  else .ok (.ofRat (Rat.divInt 1 (Int.pow b e.natAbs)))

def onIntegers (op : BinaryOperator) (m n : Int) : Except Fault Value :=
  match op with
  | .add => .ok (.integer (m + n))
  | .sub => .ok (.integer (m - n))
  | .mul => .ok (.integer (m * n))
  | .div =>
    if n = 0 then outside .divisionByZero
    else if m % n = 0 then .ok (.integer (m / n))
    else .ok (.ofRat (Rat.divInt m n))
  | .mod => if n = 0 then outside .divisionByZero else .ok (.integer (m.fmod n))
  | .pow => integerPow m n
  | .and => .ok (.integer (Bits.and m n))
  | .or => .ok (.integer (Bits.or m n))
  | .xor => .ok (.integer (Bits.xor m n))
  | op => op.unsupported .integer

/-- A rational number to an integer power. -/
def rationalPow (p : Rat) (e : Int) : Except Fault Value :=
  if 2147483648 ≤ e ∨ e < -2147483648 then outside .exponentTooLarge
  else if powerTooLarge (max (Bits.size p.num) (Bits.size p.den)) e.natAbs then
    outside .exponentTooLarge
  else if 0 ≤ e then .ok (.ofRat (Rat.pow p e.natAbs))
  else if p = 0 then outside .divisionByZero
  else .ok (.ofRat (Rat.pow p e.natAbs).inv)

def onRationals (op : BinaryOperator) (p q : Rat) : Except Fault Value :=
  match op with
  | .add => .ok (.ofRat (p + q))
  | .sub => .ok (.ofRat (p - q))
  | .mul => .ok (.ofRat (p * q))
  | .div => if q = 0 then outside .divisionByZero else .ok (.ofRat (p / q))
  | .mod =>
    if q = 0 then outside .divisionByZero
    else .ok (.ofRat (p - q * ((p / q).floor : Rat)))
  | .pow =>
    if q.den = 1 then rationalPow p q.num
    else onFloats .pow (.ofRat p) (.ofRat q)
  | op => op.unsupported .rational

/-! ## Two values of one kind -/

/-- Combine two values of one kind without looking into sequences. -/
def combine (d : Display) (op : BinaryOperator) (l r : Value) : Except Fault Value :=
  if op.isEquality then .ok (op.equality d l r)
  else if op.isOrdering then
    match order? d l r with
    | some (some o) => .ok (.truth (op.holds o))
    | some none => .ok (.truth false)
    | none => op.unsupported l.kind
  else
    match l, r with
    | .binary a, .binary b => op.onWords d (d.word a) (d.word b)
    | .complex z, .complex w => op.onComplex z w
    | .float x, .float y => op.onFloats x y
    | .integer m, .integer n => op.onIntegers m n
    | .rational p, .rational q => op.onRationals p.toRat q.toRat
    | .string s, .string t =>
      if op = .add then .ok (.string (s ++ t)) else op.unsupported .string
    | .list a, .list b =>
      if op = .add then .ok (.list (a ++ b)) else op.unsupported .list
    | l, _ => op.unsupported l.kind

/-- An operand brought to the kind of the operation.  One that is of that kind already is
not touched. -/
def coerce (d : Display) (k : Kind) (v : Value) : Except Fault Value :=
  if v.kind = k then .ok v else v.convert d k

/-- Bring two values to the kind in which they meet and combine them there, without
looking into sequences. -/
def combineMet (d : Display) (op : BinaryOperator) (l r : Value) : Except Fault Value :=
  match l.kind.join? r.kind with
  | none => .error (.noCommonKind l.kind r.kind)
  | some k =>
    match coerce d k l with
    | .error f => .error f
    | .ok l' =>
      match coerce d k r with
      | .error f => .error f
      | .ok r' => op.combine d l' r'

/-- Where two values meet, they are combined when both have come there. -/
theorem combineMet_of_join? {d : Display} {op : BinaryOperator} {l r : Value} {k : Kind}
    (h : l.kind.join? r.kind = some k) :
    op.combineMet d l r =
      coerce d k l >>= fun l' => coerce d k r >>= fun r' => op.combine d l' r' := by
  simp only [combineMet, h]
  cases coerce d k l with
  | error f => rfl
  | ok l' =>
    show _ = coerce d k r >>= fun r' => op.combine d l' r'
    cases coerce d k r <;> rfl

/-! ## Sequences -/

/-- The results of a function that can fail, up to the first fault. -/
def collect {α β : Type} (f : α → Except Fault β) : List α → Except Fault (List β)
  | [] => .ok []
  | a :: as =>
    match f a with
    | .error e => .error e
    | .ok b => (collect f as).map (b :: ·)

theorem collect_cons {α β : Type} (f : α → Except Fault β) (a : α) (as : List α) :
    collect f (a :: as) = f a >>= fun b => (collect f as).map (b :: ·) := by
  rw [collect]
  cases f a <;> rfl

/-- The columns of a matrix, as many as its first row has items.  A column that some row
does not reach is missing. -/
def columns (rows : List (List Value)) : List (Option (List Value)) :=
  (List.range (rows.headD []).length).map fun j => rows.mapM fun row => row[j]?

mutual

/-- Apply an operator to two values. -/
def apply (d : Display) (op : BinaryOperator) : Value → Value → Except Fault Value
  | .vector xs, .vector ys =>
    match op with
    | .add | .sub =>
      if xs.length = ys.length then (itemwise d op xs ys).map .vector
      else .error (.domain .dimensionMismatch)
    | .mul =>
      if xs.length = ys.length then dot d xs (.integer 0) ys
      else .error (.domain .dimensionMismatch)
    | op => op.combine d (.vector xs) (.vector ys)
  | .matrix a, .matrix b =>
    match op with
    | .add | .sub =>
      if a.length = b.length then (rowwise d op a b).map .matrix
      else .error (.domain .dimensionMismatch)
    | .mul =>
      if (a.headD []).length = b.length then (products d a (columns b)).map .matrix
      else .error (.domain .dimensionMismatch)
    | op => op.combine d (.matrix a) (.matrix b)
  | l, r => op.combineMet d l r
termination_by structural l => l

/-- Apply an operator to the pairs of items of two sequences of one length. -/
def itemwise (d : Display) (op : BinaryOperator) :
    List Value → List Value → Except Fault (List Value)
  | x :: xs, y :: ys =>
    match apply d op x y with
    | .error f => .error f
    | .ok v => (itemwise d op xs ys).map (v :: ·)
  | _, _ => .ok []
termination_by structural xs => xs

/-- Apply an operator to the pairs of rows of two matrices with as many rows. -/
def rowwise (d : Display) (op : BinaryOperator) :
    List (List Value) → List (List Value) → Except Fault (List (List Value))
  | x :: xs, y :: ys =>
    if x.length = y.length then
      match itemwise d op x y with
      | .error f => .error f
      | .ok row => (rowwise d op xs ys).map (row :: ·)
    else .error (.domain .dimensionMismatch)
  | _, _ => .ok []
termination_by structural rows => rows

/-- Add the products of the pairs of items of two sequences of one length to a sum. -/
def dot (d : Display) : List Value → Value → List Value → Except Fault Value
  | x :: xs, sum, y :: ys =>
    match apply d .mul x y with
    | .error f => .error f
    | .ok p =>
      match combineMet d .add sum p with
      | .error f => .error f
      | .ok s => dot d xs s ys
  | _, sum, _ => .ok sum
termination_by structural xs => xs

/-- The products of rows with columns. -/
def products (d : Display) :
    List (List Value) → List (Option (List Value)) → Except Fault (List (List Value))
  | [], _ => .ok []
  | row :: rows, cols =>
    match collect (fun
        | some col =>
          if row.length = col.length then dot d row (.integer 0) col
          else .error (.domain .dimensionMismatch)
        | none => .error (.domain .dimensionMismatch)) cols with
    | .error f => .error f
    | .ok out => (products d rows cols).map (out :: ·)
termination_by structural rows => rows

end

/-! ### Items and rows, one at a time -/

section

variable (d : Display) (op : BinaryOperator)

theorem itemwise_cons (x y : Value) (xs ys : List Value) :
    itemwise d op (x :: xs) (y :: ys) =
      op.apply d x y >>= fun v => (itemwise d op xs ys).map (v :: ·) := by
  rw [itemwise]
  cases op.apply d x y <;> rfl

theorem rowwise_cons {x y : List Value} (a b : List (List Value)) (h : x.length = y.length) :
    rowwise d op (x :: a) (y :: b) =
      itemwise d op x y >>= fun row => (rowwise d op a b).map (row :: ·) := by
  rw [rowwise, if_pos h]
  cases itemwise d op x y <;> rfl

theorem dot_cons (x sum y : Value) (xs ys : List Value) :
    dot d (x :: xs) sum (y :: ys) =
      BinaryOperator.mul.apply d x y >>= fun p =>
        BinaryOperator.add.combineMet d sum p >>= fun s => dot d xs s ys := by
  rw [dot]
  cases BinaryOperator.mul.apply d x y with
  | error f => rfl
  | ok p =>
    dsimp only
    show _ = BinaryOperator.add.combineMet d sum p >>= fun s => dot d xs s ys
    cases BinaryOperator.add.combineMet d sum p <;> rfl

/-- The first row of a product is the first row with each of the columns. -/
theorem products_cons (row : List Value) (rows : List (List Value))
    (cols : List (Option (List Value))) :
    products d (row :: rows) cols =
      collect (fun
        | some col =>
          if row.length = col.length then dot d row (.integer 0) col
          else .error (.domain .dimensionMismatch)
        | none => .error (.domain .dimensionMismatch)) cols >>=
      fun out => (products d rows cols).map (out :: ·) := by
  rw [products]
  generalize collect _ cols = r
  cases r <;> rfl

end

/-! ### Values that are not sequences -/

/-- Unless both operands are vectors or both are matrices, they only have to meet. -/
theorem apply_eq_combineMet (d : Display) (op : BinaryOperator) {l r : Value}
    (h : l.kind = r.kind → l.kind ≠ .vector ∧ l.kind ≠ .matrix) :
    op.apply d l r = op.combineMet d l r := by
  cases l <;> cases r <;> simp [Value.kind] at h <;> rfl

end BinaryOperator

end RpnCalculator
