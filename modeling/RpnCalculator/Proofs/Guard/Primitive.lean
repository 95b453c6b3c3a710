import RpnCalculator.Number.Fraction

/-!
# Operations that are not allowed for all operands

A machine that subtracts more from an unsigned number than it is, divides by zero, or takes a
piece out of a sequence that does not lie in it, stops at once.  That is not a fault: nothing
is reported, and nothing of the calculator is left to go on with.  It must not happen.

The definitions that compute do not show whether it does.  Their operations have a value for
all operands, and at the places in question that value is a wrong one: `0 - 1` is `0`,
`7 / 0` is `0`, and dropping ten items of three leaves none.  So each of these operations is
written here once more, as one that is a `Breach` unless its operands are allowed.  The other
modules of this directory compute with them what the calculator computes, step by step in the
order in which the steps are taken, and prove that no breach comes of it and that the result
is the same.

What is demanded lies far from the reason why it is met.  A fraction is read in an operator,
and that its denominator is not zero was made sure of when the fraction was written, which
may have been in another process.
-/

namespace RpnCalculator

/-- What an operation demands and does not get. -/
inductive Breach where
  /-- The second number is not taken off the first, which is smaller. -/
  | subtraction (a b : Nat)
  /-- A sequence of this length has no such piece. -/
  | slice (start stop length : Nat)
  /-- A sequence of this length has no such item. -/
  | item (i length : Nat)
  /-- A text is cut inside a character or behind its end. -/
  | cut
  /-- A divisor is zero. -/
  | divisor
  /-- A fraction is made over zero. -/
  | denominator
  /-- The integer has no root. -/
  | root (n : Int)
  /-- A word is shifted by all its bits or more. -/
  | shift (amount : Nat)
  /-- A level that was counted on is not there. -/
  | level (n : Nat)
  deriving DecidableEq, Repr

/-- A result, or the breach that kept it from being computed. -/
abbrev Guarded (α : Type) := Except Breach α

namespace Guarded

variable {α β : Type}

/-- A result that is there only if something holds. -/
def demand (p : Prop) [Decidable p] (b : Breach) (a : α) : Guarded α :=
  if p then .ok a else .error b

theorem demand_eq {p : Prop} [Decidable p] (h : p) (b : Breach) (a : α) :
    demand p b a = .ok a := if_pos h

@[simp] theorem ok_bind (a : α) (f : α → Guarded β) : (Except.ok a >>= f) = f a := rfl

@[simp] theorem pure_eq (a : α) : (pure a : Guarded α) = .ok a := rfl

/-- A second answer is asked for only if the first is yes. -/
def both (l r : Guarded Bool) : Guarded Bool := do
  if ← l then r else pure false

theorem both_eq {l r : Guarded Bool} {a b : Bool} (hl : l = .ok a) (hr : r = .ok b) :
    both l r = .ok (a && b) := by
  rw [both, hl, ok_bind, hr]
  cases a <;> rfl

/-! ## Results that can be faults

A fault is a result like any other: to compute it was allowed. -/

section

variable {ε : Type} {r : Guarded (Except ε α)} {r₀ : Except ε α}

/-- Go on with a result that is no fault. -/
def andThen (r : Guarded (Except ε α)) (f : α → Guarded (Except ε β)) :
    Guarded (Except ε β) := do
  match ← r with
  | .ok a => f a
  | .error x => pure (.error x)

theorem andThen_ok (a : α) (f : α → Guarded (Except ε β)) : andThen (.ok (.ok a)) f = f a := rfl

theorem andThen_eq {f : α → Guarded (Except ε β)} {f₀ : α → Except ε β} (hr : r = .ok r₀)
    (hf : ∀ a, r₀ = .ok a → f a = .ok (f₀ a)) : andThen r f = .ok (r₀ >>= f₀) := by
  rw [andThen, hr, ok_bind]
  cases h : r₀ with
  | ok a => exact hf a h
  | error x => rfl

/-- Change a result that is no fault. -/
def mapped (f : α → β) (r : Guarded (Except ε α)) : Guarded (Except ε β) := do
  let x ← r
  pure (x.map f)

theorem mapped_eq (f : α → β) (hr : r = .ok r₀) : mapped f r = .ok (r₀.map f) := by
  rw [mapped, hr]
  rfl

end

/-! ## Unsigned numbers -/

def subtract (a b : Nat) : Guarded Nat := demand (b ≤ a) (.subtraction a b) (a - b)

theorem subtract_eq {a b : Nat} (h : b ≤ a) : subtract a b = .ok (a - b) := demand_eq h ..

def quotient (a b : Nat) : Guarded Nat := demand (b ≠ 0) .divisor (a / b)

theorem quotient_eq {a b : Nat} (h : b ≠ 0) : quotient a b = .ok (a / b) := demand_eq h ..

def remainder (a b : Nat) : Guarded Nat := demand (b ≠ 0) .divisor (a % b)

theorem remainder_eq {a b : Nat} (h : b ≠ 0) : remainder a b = .ok (a % b) := demand_eq h ..

/-- The bits of a machine word. -/
def wordBits : Nat := 64

/-- Move the bits of a machine word up; those that leave it are lost. -/
def shiftLeft (a amount : Nat) : Guarded Nat :=
  demand (amount < wordBits) (.shift amount) (a <<< amount % Nat.pow 2 wordBits)

theorem shiftLeft_eq {a amount : Nat} (h : amount < wordBits)
    (hfit : a * Nat.pow 2 amount < Nat.pow 2 wordBits) :
    shiftLeft a amount = .ok (a * Nat.pow 2 amount) := by
  rw [shiftLeft, demand_eq h, Nat.shiftLeft_eq]
  exact congrArg Except.ok (Nat.mod_eq_of_lt hfit)

/-- Move the bits of a machine word down. -/
def shiftRight (a amount : Nat) : Guarded Nat :=
  demand (amount < wordBits) (.shift amount) (a >>> amount)

theorem shiftRight_eq {a amount : Nat} (h : amount < wordBits) :
    shiftRight a amount = .ok (a / Nat.pow 2 amount) := by
  rw [shiftRight, demand_eq h, Nat.shiftRight_eq_div_pow]
  rfl

/-! ## Integers -/

/-- Quotient and remainder, toward zero. -/
def divRem (m n : Int) : Guarded (Int × Int) := demand (n ≠ 0) .divisor (m.tdiv n, m.tmod n)

theorem divRem_eq {m n : Int} (h : n ≠ 0) : divRem m n = .ok (m.tdiv n, m.tmod n) :=
  demand_eq h ..

/-- The remainder with the sign of the divisor. -/
def modFloor (m n : Int) : Guarded Int := demand (n ≠ 0) .divisor (m.fmod n)

theorem modFloor_eq {m n : Int} (h : n ≠ 0) : modFloor m n = .ok (m.fmod n) := demand_eq h ..

/-- The largest integer whose square is not above the number. -/
def root (n : Int) : Guarded Int := demand (0 ≤ n) (.root n) n.toNat.sqrt

theorem root_eq {n : Int} (h : 0 ≤ n) : root n = .ok (n.toNat.sqrt : Int) := demand_eq h ..

/-! ## Fractions

The operations on fractions divide by the denominators of their operands, so a fraction is
read as a number only if its denominator is not zero.  A fraction that is made is brought to
lowest terms, and that divides as well. -/

/-- The fraction `n / d` in lowest terms. -/
def fraction (n d : Int) : Guarded Fraction :=
  demand (d ≠ 0) .denominator (.ofRat (Rat.divInt n d))

theorem fraction_eq {n d : Int} (h : d ≠ 0) : fraction n d = .ok (.ofRat (Rat.divInt n d)) :=
  demand_eq h ..

/-- The number that a fraction stands for. -/
def number (q : Fraction) : Guarded Rat := demand (q.den ≠ 0) .divisor q.toRat

/-- The integer part of a fraction, toward zero. -/
def trunc (q : Fraction) : Guarded Int := do
  let (whole, _) ← divRem q.num q.den
  pure whole

/-- The quotient of two rational numbers. -/
def divide (p q : Rat) : Guarded Rat := demand (q ≠ 0) .divisor (p / q)

theorem divide_eq {p q : Rat} (h : q ≠ 0) : divide p q = .ok (p / q) := demand_eq h ..

/-- One over a rational number. -/
def reciprocal (q : Rat) : Guarded Rat := demand (q ≠ 0) .divisor q.inv

theorem reciprocal_eq {q : Rat} (h : q ≠ 0) : reciprocal q = .ok q.inv := demand_eq h ..

/-- A fraction in lowest terms is that of a number. -/
theorem exists_eq_ofRat {q : Fraction} (h : q.Reduced) : ∃ x, q = .ofRat x :=
  ⟨q.toRat, (Fraction.ofRat_toRat h).symm⟩

theorem num_ofRat (x : Rat) : (Fraction.ofRat x).num = x.num := rfl

theorem den_ofRat (x : Rat) : (Fraction.ofRat x).den = x.den := rfl

theorem den_ofRat_ne_zero (x : Rat) : (Fraction.ofRat x).den ≠ 0 :=
  Int.natCast_ne_zero.mpr x.den_nz

theorem number_ofRat (x : Rat) : number (.ofRat x) = .ok x := by
  rw [number, demand_eq (den_ofRat_ne_zero x), Fraction.toRat_ofRat]

theorem number_eq {q : Fraction} (h : q.Reduced) : number q = .ok q.toRat := by
  obtain ⟨x, rfl⟩ := exists_eq_ofRat h
  rw [number_ofRat, Fraction.toRat_ofRat]

theorem trunc_eq {q : Fraction} (h : q.Reduced) : trunc q = .ok q.toInt := by
  obtain ⟨x, rfl⟩ := exists_eq_ofRat h
  rw [trunc, divRem_eq (den_ofRat_ne_zero x), Fraction.toInt, Fraction.toRat_ofRat]
  rfl

/-! ## Sequences -/

/-- The items from `start` on and before `stop`. -/
def slice (l : List α) (start stop : Nat) : Guarded (List α) :=
  demand (start ≤ stop ∧ stop ≤ l.length) (.slice start stop l.length)
    ((l.take stop).drop start)

theorem slice_eq {l : List α} {start stop : Nat} (h : start ≤ stop) (h' : stop ≤ l.length) :
    slice l start stop = .ok ((l.take stop).drop start) := demand_eq ⟨h, h'⟩ ..

/-- The items from `start` on. -/
def sliceFrom (l : List α) (start : Nat) : Guarded (List α) := slice l start l.length

theorem sliceFrom_eq {l : List α} {start : Nat} (h : start ≤ l.length) :
    sliceFrom l start = .ok (l.drop start) := by
  rw [sliceFrom, slice_eq h (Nat.le_refl _), List.take_length]

/-- The item at a place. -/
def item (l : List α) (i : Nat) : Guarded α :=
  match l[i]? with
  | some a => .ok a
  | none => .error (.item i l.length)

theorem item_eq {l : List α} {i : Nat} (h : i < l.length) : item l i = .ok l[i] := by
  rw [item, List.getElem?_eq_getElem h]

end Guarded

end RpnCalculator
