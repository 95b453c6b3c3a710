import RpnCalculator.Kind
import RpnCalculator.Display
import RpnCalculator.Fault
import RpnCalculator.Directory
import RpnCalculator.Number.Complex
import RpnCalculator.Number.Fraction

/-!
# Values

A value is of one of twelve kinds.  Lists, vectors, matrices, labeled values and
directories hold values, to any depth.

Values are taken as they come: a matrix can be ragged and a fraction unreduced, because
a stored object can hold such a thing and has to be looked at before it can be refused.
Which values obey the rules is said in `Value.WellFormed`.
-/

namespace RpnCalculator

/-- A value of the calculator. -/
inductive Value where
  /-- A word, as the bits that are stored; a narrower width shows fewer of them. -/
  | binary (bits : UInt32)
  | complex (z : Complex)
  /-- Named values, in ascending order of the names. -/
  | directory (entries : List (String × Value))
  | float (x : Double)
  | integer (n : Int)
  | labeled (label : String) (value : Value)
  | list (items : List Value)
  /-- Rows of values. -/
  | matrix (rows : List (List Value))
  /-- The text of a program. -/
  | program (text : String)
  | rational (q : Fraction)
  | string (text : String)
  | vector (items : List Value)
  deriving Inhabited

namespace Value

/-- Induction over values.  Of a value that holds others, the statement may be assumed for
each of them, however they are held. -/
@[elab_as_elim, induction_eliminator]
theorem induction {motive : Value → Prop}
    (binary : ∀ bits, motive (.binary bits))
    (complex : ∀ z, motive (.complex z))
    (directory : ∀ entries, (∀ e ∈ entries, motive e.2) → motive (.directory entries))
    (float : ∀ x, motive (.float x))
    (integer : ∀ n, motive (.integer n))
    (labeled : ∀ label value, motive value → motive (.labeled label value))
    (list : ∀ items, (∀ v ∈ items, motive v) → motive (.list items))
    (matrix : ∀ rows, (∀ row ∈ rows, ∀ v ∈ row, motive v) → motive (.matrix rows))
    (program : ∀ text, motive (.program text))
    (rational : ∀ q, motive (.rational q))
    (string : ∀ text, motive (.string text))
    (vector : ∀ items, (∀ v ∈ items, motive v) → motive (.vector items))
    (v : Value) : motive v := by
  have ih (w : Value) (_ : sizeOf w < sizeOf v) : motive w :=
    induction binary complex directory float integer labeled list matrix program rational
      string vector w
  match v with
  | .binary bits => exact binary bits
  | .complex z => exact complex z
  | .float x => exact float x
  | .integer n => exact integer n
  | .program text => exact program text
  | .rational q => exact rational q
  | .string text => exact string text
  | .labeled label value =>
    refine labeled label value (ih value ?_)
    simp only [Value.labeled.sizeOf_spec]
    omega
  | .directory entries =>
    refine directory entries fun e he => ih e.2 ?_
    have hsize := List.sizeOf_lt_of_mem he
    obtain ⟨name, value⟩ := e
    simp only [Prod.mk.sizeOf_spec, Value.directory.sizeOf_spec] at hsize ⊢
    omega
  | .list items =>
    refine list items fun w hw => ih w ?_
    have hsize := List.sizeOf_lt_of_mem hw
    simp only [Value.list.sizeOf_spec]
    omega
  | .matrix rows =>
    refine matrix rows fun row hrow w hw => ih w ?_
    have hsize := List.sizeOf_lt_of_mem hw
    have hsize' := List.sizeOf_lt_of_mem hrow
    simp only [Value.matrix.sizeOf_spec]
    omega
  | .vector items =>
    refine vector items fun w hw => ih w ?_
    have hsize := List.sizeOf_lt_of_mem hw
    simp only [Value.vector.sizeOf_spec]
    omega
termination_by sizeOf v

def kind : Value → Kind
  | .binary _ => .binary
  | .complex _ => .complex
  | .directory _ => .directory
  | .float _ => .float
  | .integer _ => .integer
  | .labeled _ _ => .labeled
  | .list _ => .list
  | .matrix _ => .matrix
  | .program _ => .program
  | .rational _ => .rational
  | .string _ => .string
  | .vector _ => .vector

/-- The word with the low bits of a number. -/
def ofWord (d : Display) (n : Nat) : Value := .binary (d.bitsOf n)

/-- A rational number as a value, in lowest terms. -/
def ofRat (q : Rat) : Value := .rational (.ofRat q)

/-- The rational `n / d` in lowest terms. -/
def ofRatio (n d : Int) : Except Fault Value :=
  if d = 0 then .error (.domain .zeroDenominator) else .ok (ofRat (Rat.divInt n d))

/-- Truth values are the integers one and zero. -/
def truth (b : Bool) : Value := .integer (if b then 1 else 0)

/-- Whether all rows have one length. -/
def rectangular : List (List Value) → Bool
  | [] => true
  | row :: rows => rows.all fun r => r.length == row.length

/-- The matrix with the given rows, which must have one length. -/
def ofRows (rows : List (List Value)) : Except Fault Value :=
  if rectangular rows then .ok (.matrix rows) else .error (.domain .raggedMatrix)

/-- Rows are rectangular when any two of them are equally long. -/
theorem rectangular_iff {rows : List (List Value)} :
    rectangular rows = true ↔ ∀ r ∈ rows, ∀ s ∈ rows, r.length = s.length := by
  cases rows with
  | nil => simp [rectangular]
  | cons row rows =>
    simp only [rectangular, List.all_eq_true, beq_iff_eq]
    constructor
    · intro h r hr s hs
      have key : ∀ t ∈ row :: rows, t.length = row.length := by
        intro t ht
        rcases List.mem_cons.mp ht with rfl | ht
        · rfl
        · exact h t ht
      rw [key r hr, key s hs]
    · intro h r hr
      exact h r (List.mem_cons_of_mem _ hr) row List.mem_cons_self

end Value

end RpnCalculator
