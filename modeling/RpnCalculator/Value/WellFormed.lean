import RpnCalculator.Value.Basic

/-!
# Well-formed values

Three rules hold of every value that the calculator makes itself.

* The rows of a matrix have one length.
* A rational has a positive denominator and is in lowest terms.
* The names of a directory ascend.

The first two can be broken by what a file holds, so they are checked when an object is
fetched: `Value.flaw?` looks for the first place where one of them fails, at any depth,
and `Value.WellFormed` is the statement that there is none (`flaw?_eq_none_iff`).  The
third cannot be broken from outside, since entries are put into a directory one by one;
`Value.Ordered` states it.
-/

namespace RpnCalculator

namespace Value

/-! ## Looking for a flaw -/

mutual

/-- The first broken rule, if there is one. -/
def flaw? : Value → Option DomainFault
  | .rational q => if q.Reduced then none else some .notInLowestTerms
  | .matrix rows => if rectangular rows then flawInRows? rows else some .raggedMatrix
  | .list items => flawInItems? items
  | .vector items => flawInItems? items
  | .labeled _ v => flaw? v
  | .directory entries => flawInEntries? entries
  | _ => none

def flawInItems? : List Value → Option DomainFault
  | [] => none
  | v :: vs =>
    match flaw? v with
    | some f => some f
    | none => flawInItems? vs

def flawInRows? : List (List Value) → Option DomainFault
  | [] => none
  | row :: rows =>
    match flawInItems? row with
    | some f => some f
    | none => flawInRows? rows

def flawInEntries? : List (String × Value) → Option DomainFault
  | [] => none
  | (_, v) :: rest =>
    match flaw? v with
    | some f => some f
    | none => flawInEntries? rest

end

/-- Refuse a value that breaks a rule. -/
def validate (v : Value) : Except Fault Unit :=
  match v.flaw? with
  | some f => .error (.domain f)
  | none => .ok ()

/-! ## The rules -/

mutual

/-- At every depth, matrices are rectangular and rationals in lowest terms. -/
def WellFormed : Value → Prop
  | .rational q => q.Reduced
  | .matrix rows =>
    (∀ r ∈ rows, ∀ s ∈ rows, r.length = s.length) ∧ RowsWellFormed rows
  | .list items => ItemsWellFormed items
  | .vector items => ItemsWellFormed items
  | .labeled _ v => WellFormed v
  | .directory entries => EntriesWellFormed entries
  | _ => True

def ItemsWellFormed : List Value → Prop
  | [] => True
  | v :: vs => WellFormed v ∧ ItemsWellFormed vs

def RowsWellFormed : List (List Value) → Prop
  | [] => True
  | row :: rows => ItemsWellFormed row ∧ RowsWellFormed rows

def EntriesWellFormed : List (String × Value) → Prop
  | [] => True
  | (_, v) :: rest => WellFormed v ∧ EntriesWellFormed rest

end

mutual

/-- A value is well-formed when no flaw is found in it. -/
theorem flaw?_eq_none_iff : ∀ v : Value, v.flaw? = none ↔ v.WellFormed
  | .rational q => by simp [flaw?, WellFormed]
  | .matrix rows => by
    rw [flaw?, WellFormed, ← rectangular_iff, ← flawInRows?_eq_none_iff rows]
    split
    · rename_i h
      simp [h]
    · rename_i h
      simp [h]
  | .list items => by rw [flaw?, WellFormed, flawInItems?_eq_none_iff items]
  | .vector items => by rw [flaw?, WellFormed, flawInItems?_eq_none_iff items]
  | .labeled _ v => by rw [flaw?, WellFormed, flaw?_eq_none_iff v]
  | .directory entries => by rw [flaw?, WellFormed, flawInEntries?_eq_none_iff entries]
  | .binary _ => by simp [flaw?, WellFormed]
  | .complex _ => by simp [flaw?, WellFormed]
  | .float _ => by simp [flaw?, WellFormed]
  | .integer _ => by simp [flaw?, WellFormed]
  | .program _ => by simp [flaw?, WellFormed]
  | .string _ => by simp [flaw?, WellFormed]

theorem flawInItems?_eq_none_iff :
    ∀ vs : List Value, flawInItems? vs = none ↔ ItemsWellFormed vs
  | [] => by simp [flawInItems?, ItemsWellFormed]
  | v :: vs => by
    rw [flawInItems?, ItemsWellFormed, ← flaw?_eq_none_iff v, ← flawInItems?_eq_none_iff vs]
    cases flaw? v <;> simp

theorem flawInRows?_eq_none_iff :
    ∀ rows : List (List Value), flawInRows? rows = none ↔ RowsWellFormed rows
  | [] => by simp [flawInRows?, RowsWellFormed]
  | row :: rows => by
    rw [flawInRows?, RowsWellFormed, ← flawInItems?_eq_none_iff row,
      ← flawInRows?_eq_none_iff rows]
    cases flawInItems? row <;> simp

theorem flawInEntries?_eq_none_iff :
    ∀ es : List (String × Value), flawInEntries? es = none ↔ EntriesWellFormed es
  | [] => by simp [flawInEntries?, EntriesWellFormed]
  | (_, v) :: rest => by
    rw [flawInEntries?, EntriesWellFormed, ← flaw?_eq_none_iff v,
      ← flawInEntries?_eq_none_iff rest]
    cases flaw? v <;> simp

end

theorem itemsWellFormed_iff {vs : List Value} :
    ItemsWellFormed vs ↔ ∀ v ∈ vs, v.WellFormed := by
  induction vs with
  | nil => simp [ItemsWellFormed]
  | cons v vs ih => simp [ItemsWellFormed, ih]

theorem rowsWellFormed_iff {rows : List (List Value)} :
    RowsWellFormed rows ↔ ∀ row ∈ rows, ∀ v ∈ row, v.WellFormed := by
  induction rows with
  | nil => simp [RowsWellFormed]
  | cons row rows ih => simp [RowsWellFormed, ih, itemsWellFormed_iff]

theorem entriesWellFormed_iff {es : List (String × Value)} :
    EntriesWellFormed es ↔ ∀ e ∈ es, e.2.WellFormed := by
  induction es with
  | nil => simp [EntriesWellFormed]
  | cons e es ih => simp [EntriesWellFormed, ih]

theorem validate_eq_ok_iff {v : Value} : v.validate = .ok () ↔ v.WellFormed := by
  rw [validate, ← flaw?_eq_none_iff]
  cases v.flaw? <;> simp

/-! ## Order of names -/

mutual

/-- At every depth, the names of a directory ascend. -/
def Ordered : Value → Prop
  | .directory entries => Directory.Ascending entries ∧ EntriesOrdered entries
  | .matrix rows => RowsOrdered rows
  | .list items => ItemsOrdered items
  | .vector items => ItemsOrdered items
  | .labeled _ v => Ordered v
  | _ => True

def ItemsOrdered : List Value → Prop
  | [] => True
  | v :: vs => Ordered v ∧ ItemsOrdered vs

def RowsOrdered : List (List Value) → Prop
  | [] => True
  | row :: rows => ItemsOrdered row ∧ RowsOrdered rows

def EntriesOrdered : List (String × Value) → Prop
  | [] => True
  | (_, v) :: rest => Ordered v ∧ EntriesOrdered rest

end

theorem itemsOrdered_iff {vs : List Value} : ItemsOrdered vs ↔ ∀ v ∈ vs, v.Ordered := by
  induction vs with
  | nil => simp [ItemsOrdered]
  | cons v vs ih => simp [ItemsOrdered, ih]

theorem rowsOrdered_iff {rows : List (List Value)} :
    RowsOrdered rows ↔ ∀ row ∈ rows, ∀ v ∈ row, v.Ordered := by
  induction rows with
  | nil => simp [RowsOrdered]
  | cons row rows ih => simp [RowsOrdered, ih, itemsOrdered_iff]

theorem entriesOrdered_iff {es : List (String × Value)} :
    EntriesOrdered es ↔ ∀ e ∈ es, e.2.Ordered := by
  induction es with
  | nil => simp [EntriesOrdered]
  | cons e es ih => simp [EntriesOrdered, ih]

end Value

end RpnCalculator
