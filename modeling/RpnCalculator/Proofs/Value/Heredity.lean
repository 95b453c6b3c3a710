import RpnCalculator.Value.WellFormed

/-!
# Properties that results inherit from operands

An operation on values takes its operands apart, combines the parts, and puts results
together.  A property of values that survives all of this is `Hereditary`.  The structure
lists what has to be shown of a property; that this is enough for every operation is shown
in `Proofs.Value.Conversion` and `Proofs.Value.Operation`.

Being well-formed is such a property (`hereditary_wellFormed`), and so is having the names
of all directories in order (`hereditary_ordered`).

## Why one statement for all of them

The recursion through vectors and matrices is the same whatever is carried through it, and
it is the long part.  So it is done once, for a property that is not known, and it also
carries what is known of the *faults*: none of them is that of a word that was not
recognized as a literal (`Fault.NotLiteral`).  For the property that always holds
(`hereditary_true`) that half is a statement about operands of any shape.

## What a matrix demands

The two ways in which an operation makes a matrix differ in what they know.  A product is
made column by column, so its rows have one length by construction.  A sum only copies the
shape of its left operand, and rows that were ragged stay ragged.  `Hereditary` therefore
has a demand for each.
-/

namespace RpnCalculator

/-! ## How a computation ends -/

/-- A result has one property, and a fault another. -/
def Ends {ε α : Type} (P : α → Prop) (Q : ε → Prop) : Except ε α → Prop
  | .ok a => P a
  | .error e => Q e

namespace Ends

variable {ε α β : Type} {P P' : α → Prop} {Q : ε → Prop} {r : Except ε α}

@[simp] theorem ok_iff {a : α} : Ends P Q (.ok a) ↔ P a := Iff.rfl

@[simp] theorem error_iff {e : ε} : Ends P Q (.error e : Except ε α) ↔ Q e := Iff.rfl

@[simp] theorem map_iff {R : β → Prop} {f : α → β} :
    Ends R Q (r.map f) ↔ Ends (fun a => R (f a)) Q r := by
  cases r <;> rfl

@[simp] theorem ite_iff {c : Prop} [Decidable c] {s : Except ε α} :
    Ends P Q (if c then r else s) ↔ (c → Ends P Q r) ∧ (¬c → Ends P Q s) := by
  by_cases h : c <;> simp [h]

theorem of_ok {a : α} (h : Ends P Q r) (hr : r = .ok a) : P a := by
  rwa [hr] at h

theorem of_error {e : ε} (h : Ends P Q r) (hr : r = .error e) : Q e := by
  rwa [hr] at h

theorem bind {R : β → Prop} {f : α → Except ε β} (h : Ends P Q r)
    (hf : ∀ a, P a → Ends R Q (f a)) : Ends R Q (r >>= f) := by
  cases r with
  | ok a => exact hf a h
  | error e => exact h

theorem imp (h : Ends P Q r) (hP : ∀ a, P a → P' a) : Ends P' Q r := by
  cases r with
  | ok a => exact hP a h
  | error e => exact h

/-- Nothing is asked of a result, and nothing of a fault. -/
theorem any (r : Except ε α) : Ends (fun _ => True) (fun _ => True) r := by
  cases r <;> trivial

theorem map_any {R : β → Prop} {f : α → β} (h : ∀ a, R (f a)) :
    Ends R (fun _ => True) (r.map f) :=
  Ends.map_iff.mpr ((any r).imp fun a _ => h a)

/-- A head that ends well goes in front of a tail that does. -/
theorem cons {R S : List α → Prop} {rs : Except ε (List α)} (h : Ends P Q r) (hs : Ends R Q rs)
    (hcons : ∀ a as, P a → R as → S (a :: as)) :
    Ends S Q (r >>= fun a => rs.map (a :: ·)) := by
  refine h.bind fun a ha => ?_
  rw [map_iff]
  exact hs.imp fun as has => hcons a as ha has

end Ends

/-- The fault is not that a word could not be read as a literal. -/
def Fault.NotLiteral (f : Fault) : Prop := f.category ≠ .malformedLiteral

@[simp] theorem Fault.notLiteral_iff {f : Fault} :
    f.NotLiteral ↔ ∀ word, f ≠ .unrecognized word := by
  cases f <;> simp [NotLiteral, category]

/-! ## Hereditary properties -/

/-- A property of values that operations hand on from their operands to their results. -/
structure Hereditary (P : Value → Prop) : Prop where
  binary : ∀ bits, P (.binary bits)
  complex : ∀ z, P (.complex z)
  float : ∀ x, P (.float x)
  integer : ∀ n, P (.integer n)
  program : ∀ text, P (.program text)
  string : ∀ text, P (.string text)
  /-- What is computed is in lowest terms. -/
  rational : ∀ {q : Fraction}, q.Reduced → P (.rational q)
  labeled : ∀ {label v}, P (.labeled label v) ↔ P v
  list : ∀ {items}, P (.list items) ↔ ∀ v ∈ items, P v
  vector : ∀ {items}, P (.vector items) ↔ ∀ v ∈ items, P v
  /-- What a matrix holds can be taken out of it. -/
  items : ∀ {rows}, P (.matrix rows) → ∀ row ∈ rows, ∀ v ∈ row, P v
  /-- Rows of one length are a matrix. -/
  matrix : ∀ {rows : List (List Value)}, (∀ r ∈ rows, ∀ s ∈ rows, r.length = s.length) →
    (∀ row ∈ rows, ∀ v ∈ row, P v) → P (.matrix rows)
  /-- So are rows of the lengths that the rows of a matrix have. -/
  reshaped : ∀ {rows rows' : List (List Value)}, P (.matrix rows) →
    rows'.map List.length = rows.map List.length →
    (∀ row ∈ rows', ∀ v ∈ row, P v) → P (.matrix rows')
  /-- What a directory holds can be taken out of it. -/
  entries : ∀ {es}, P (.directory es) → ∀ e ∈ es, P e.2
  /-- What is put into a directory comes to lie in order. -/
  directory : ∀ {es : List (String × Value)}, (∀ e ∈ es, P e.2) →
    P (.directory (Directory.ofList es))

theorem hereditary_true : Hereditary fun _ => True := by
  constructor <;> simp

/-- Being well-formed is handed on. -/
theorem hereditary_wellFormed : Hereditary Value.WellFormed where
  binary _ := by simp [Value.WellFormed]
  complex _ := by simp [Value.WellFormed]
  float _ := by simp [Value.WellFormed]
  integer _ := by simp [Value.WellFormed]
  program _ := by simp [Value.WellFormed]
  string _ := by simp [Value.WellFormed]
  rational h := by simpa [Value.WellFormed] using h
  labeled := by simp [Value.WellFormed]
  list := by simp [Value.WellFormed, Value.itemsWellFormed_iff]
  vector := by simp [Value.WellFormed, Value.itemsWellFormed_iff]
  items h := by
    rw [Value.WellFormed, Value.rowsWellFormed_iff] at h
    exact h.2
  matrix hlen h := by
    rw [Value.WellFormed, Value.rowsWellFormed_iff]
    exact ⟨hlen, h⟩
  reshaped {rows rows'} hrows hlen h := by
    rw [Value.WellFormed] at hrows ⊢
    refine ⟨fun r hr s hs => ?_, Value.rowsWellFormed_iff.mpr h⟩
    -- the lengths of the new rows are lengths of old rows, and those are all equal
    have old (t : List Value) (ht : t ∈ rows') : ∃ u ∈ rows, u.length = t.length := by
      have hmem : t.length ∈ rows'.map List.length := List.mem_map_of_mem ht
      rw [hlen] at hmem
      exact List.mem_map.mp hmem
    obtain ⟨u, hu, hur⟩ := old r hr
    obtain ⟨w, hw, hws⟩ := old s hs
    rw [← hur, ← hws]
    exact hrows.1 u hu w hw
  entries h := by
    rw [Value.WellFormed, Value.entriesWellFormed_iff] at h
    exact h
  directory h := by
    rw [Value.WellFormed, Value.entriesWellFormed_iff]
    exact fun e he => h e (Directory.mem_of_mem_ofList he)

/-- Having the names of directories in order is handed on. -/
theorem hereditary_ordered : Hereditary Value.Ordered where
  binary _ := by simp [Value.Ordered]
  complex _ := by simp [Value.Ordered]
  float _ := by simp [Value.Ordered]
  integer _ := by simp [Value.Ordered]
  program _ := by simp [Value.Ordered]
  string _ := by simp [Value.Ordered]
  rational _ := by simp [Value.Ordered]
  labeled := by simp [Value.Ordered]
  list := by simp [Value.Ordered, Value.itemsOrdered_iff]
  vector := by simp [Value.Ordered, Value.itemsOrdered_iff]
  items h := by
    rw [Value.Ordered, Value.rowsOrdered_iff] at h
    exact h
  matrix _ h := by
    rw [Value.Ordered, Value.rowsOrdered_iff]
    exact h
  reshaped _ _ h := by
    rw [Value.Ordered, Value.rowsOrdered_iff]
    exact h
  entries h := by
    rw [Value.Ordered, Value.entriesOrdered_iff] at h
    exact h.2
  directory {es} h := by
    rw [Value.Ordered, Value.entriesOrdered_iff]
    exact ⟨Directory.ascending_ofList es, fun e he => h e (Directory.mem_of_mem_ofList he)⟩

end RpnCalculator
