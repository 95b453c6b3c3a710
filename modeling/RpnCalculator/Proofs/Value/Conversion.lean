import RpnCalculator.Proofs.Value.Heredity
import RpnCalculator.Value.Conversion

/-!
# Conversions hand on properties

Whatever is hereditary holds of the result of a conversion if it holds of the value that is
converted (`ends_convert`).  Most conversions make a number, and then there is nothing to
hand on; the others take a sequence apart and put its items together in another way.
Whatever is made is of the kind that was asked for (`kind_of_convert`).
-/

namespace RpnCalculator

open Fault (NotLiteral)

/-! ## Sequences -/

section Conversion

variable {P : Value → Prop} (hP : Hereditary P) {d : Display}

include hP

/-- The rows of a list are lists and vectors, and what they hold was in the list. -/
theorem ends_rowsOf {items : List Value} (h : ∀ v ∈ items, P v) :
    Ends (fun rows => ∀ row ∈ rows, ∀ v ∈ row, P v) NotLiteral (Value.rowsOf items) := by
  induction items with
  | nil => simp [Value.rowsOf]
  | cons v vs ih =>
    have hv : P v := h v List.mem_cons_self
    have hvs := ih fun w hw => h w (List.mem_cons_of_mem _ hw)
    have hcons (row : List Value) (hrow : ∀ w ∈ row, P w) :
        Ends (fun rows => ∀ row ∈ rows, ∀ w ∈ row, P w) NotLiteral
          ((Value.rowsOf vs).map (row :: ·)) := by
      rw [Ends.map_iff]
      exact hvs.imp fun rows hrows => List.forall_mem_cons.mpr ⟨hrow, hrows⟩
    cases v with
    | list row => exact hcons row (hP.list.mp hv)
    | vector row => exact hcons row (hP.vector.mp hv)
    | _ => simp [Value.rowsOf]

/-- The entries of a list are its labels with what they label. -/
theorem ends_entriesOf {items : List Value} (h : ∀ v ∈ items, P v) :
    Ends (fun es => ∀ e ∈ es, P e.2) NotLiteral (Value.entriesOf items) := by
  induction items with
  | nil => simp [Value.entriesOf]
  | cons v vs ih =>
    have hv : P v := h v List.mem_cons_self
    have hvs := ih fun w hw => h w (List.mem_cons_of_mem _ hw)
    cases v with
    | labeled label w =>
      have hw : P w := hP.labeled.mp hv
      rw [Value.entriesOf, Ends.map_iff]
      refine hvs.imp fun es hes => ?_
      rw [List.forall_mem_cons]
      exact ⟨hw, hes⟩
    | _ => simp [Value.entriesOf]

/-- Rows become a matrix only if they have one length. -/
theorem ends_ofRows {rows : List (List Value)} (h : ∀ row ∈ rows, ∀ v ∈ row, P v) :
    Ends P NotLiteral (Value.ofRows rows) := by
  rw [Value.ofRows, Ends.ite_iff]
  constructor
  · intro hrect
    exact hP.matrix (Value.rectangular_iff.mp hrect) h
  · intro _
    simp

/-! ## Numbers -/

omit hP in
/-- A float that has no whole part is a fault of a domain. -/
theorem ends_wholePart (x : Double) : Ends (fun _ => True) NotLiteral (Value.wholePart x) := by
  unfold Value.wholePart
  split <;> simp

omit hP in
/-- So is one that is no number. -/
theorem ends_exactly (x : Double) : Ends (fun _ => True) NotLiteral (Value.exactly x) := by
  unfold Value.exactly
  split <;> simp

/-- What is made of a rational number is in lowest terms. -/
theorem prop_ofRat (q : Rat) : P (.ofRat q) := hP.rational (Fraction.reduced_ofRat q)

theorem ends_toBinary (v : Value) : Ends P NotLiteral (v.toBinary d) := by
  have hword (n : Int) : P (Value.ofIntegerWord d n) := hP.binary _
  cases v <;> simp [Value.toBinary, hword]
  case float x => exact ends_wholePart x

theorem ends_toComplex (v : Value) : Ends P NotLiteral (v.toComplex d) := by
  cases v <;> simp [Value.toComplex, hP.complex]

theorem ends_toFloat (v : Value) : Ends P NotLiteral (v.toFloat d) := by
  cases v <;> simp [Value.toFloat, hP.float]

theorem ends_toInteger (v : Value) : Ends P NotLiteral (v.toInteger d) := by
  cases v <;> simp [Value.toInteger, hP.integer]
  case float x => exact ends_wholePart x

theorem ends_toRational (v : Value) : Ends P NotLiteral (v.toRational d) := by
  have hint (n : Int) : P (.rational (.ofInt n)) := hP.rational (Fraction.reduced_ofInt n)
  cases v <;> simp [Value.toRational, hint]
  case float x => exact (ends_exactly x).imp fun q _ => prop_ofRat hP q

/-! ## Containers -/

theorem ends_toList {v : Value} (hv : P v) : Ends P NotLiteral v.toList := by
  cases v <;> simp [Value.toList]
  case vector items => exact hP.list.mpr (hP.vector.mp hv)
  case matrix rows =>
    refine hP.list.mpr fun w hw => ?_
    obtain ⟨row, hrow, rfl⟩ := List.mem_map.mp hw
    exact hP.list.mpr (hP.items hv row hrow)
  case directory entries =>
    refine hP.list.mpr fun w hw => ?_
    obtain ⟨e, he, rfl⟩ := List.mem_map.mp hw
    exact hP.labeled.mpr (hP.entries hv e he)

theorem ends_toMatrix {v : Value} (hv : P v) : Ends P NotLiteral v.toMatrix := by
  cases v <;> simp [Value.toMatrix]
  case vector items =>
    -- a single row is rectangular
    refine hP.matrix ?_ ?_
    · simp
    · simpa using hP.vector.mp hv
  case list items =>
    have hrows := ends_rowsOf hP (hP.list.mp hv)
    cases hr : Value.rowsOf items with
    | ok rows => exact ends_ofRows hP (hrows.of_ok hr)
    | error f => exact hrows.of_error hr

theorem ends_toDirectory {v : Value} (hv : P v) : Ends P NotLiteral v.toDirectory := by
  cases v <;> simp [Value.toDirectory]
  case list items =>
    exact (ends_entriesOf hP (hP.list.mp hv)).imp fun es hes => hP.directory hes

theorem ends_toVector {v : Value} (hv : P v) : Ends P NotLiteral v.toVector := by
  cases v <;> simp [Value.toVector]
  case list items => exact hP.vector.mpr (hP.list.mp hv)

/-! ## Texts, and every kind -/

theorem ends_toProgram (v : Value) : Ends P NotLiteral v.toProgram := by
  cases v <;> simp [Value.toProgram, hP.program]

theorem prop_toText (v : Value) : P (v.toText d) := by
  cases v <;> exact hP.string _

/-- A value of the right kind is kept, but for the bits of a word that are not seen. -/
theorem prop_settle {v : Value} (hv : P v) : P (v.settle d) := by
  cases v <;> first | exact hP.binary _ | exact hv

/-- **A conversion hands on what is hereditary.** -/
theorem ends_convert {v : Value} (hv : P v) (target : Kind) :
    Ends P NotLiteral (v.convert d target) := by
  unfold Value.convert
  rw [Ends.ite_iff]
  refine ⟨fun _ => prop_settle hP hv, fun _ => ?_⟩
  cases target with
  | binary => exact ends_toBinary hP v
  | complex => exact ends_toComplex hP v
  | directory => exact ends_toDirectory hP hv
  | float => exact ends_toFloat hP v
  | integer => exact ends_toInteger hP v
  | labeled => simp
  | list => exact ends_toList hP hv
  | matrix => exact ends_toMatrix hP hv
  | program => exact ends_toProgram hP v
  | rational => exact ends_toRational hP v
  | string => exact prop_toText hP v
  | vector => exact ends_toVector hP hv

end Conversion

/-! ## Kinds -/

namespace Value

variable {d : Display}

/-- The rows of a list are put together when they all have been found. -/
theorem toMatrix_list (items : List Value) : (list items).toMatrix = rowsOf items >>= ofRows := by
  rw [toMatrix]
  cases rowsOf items <;> rfl

theorem kind_settle (v : Value) : (v.settle d).kind = v.kind := by
  cases v <;> rfl

/-- A conversion makes a value of the kind it is asked for. -/
theorem ends_kind_convert (v : Value) (k : Kind) :
    Ends (fun w => w.kind = k) (fun _ => True) (v.convert d k) := by
  unfold convert
  rw [Ends.ite_iff]
  refine ⟨fun h => (kind_settle v).trans h, fun _ => ?_⟩
  cases k with
  | labeled => trivial
  | string => cases v <;> rfl
  | matrix =>
    cases v with
    | vector items => rfl
    | list items =>
      show Ends _ _ (list items).toMatrix
      rw [toMatrix_list]
      exact (Ends.any _).bind fun rows _ => Ends.ite_iff.mpr ⟨fun _ => rfl, fun _ => trivial⟩
    | _ => trivial
  | _ => cases v <;> first | trivial | rfl | exact Ends.map_any fun _ => rfl

theorem kind_of_convert {v w : Value} {k : Kind} (h : v.convert d k = .ok w) : w.kind = k :=
  (ends_kind_convert v k).of_ok h

/-! ## One conversion after another -/

/-- A value converted to one kind after another. -/
def along (d : Display) (way : List Kind) (v : Value) : Except Fault Value :=
  way.foldlM (fun w k => w.convert d k) v

theorem along_two (k l : Kind) (v : Value) :
    v.along d [k, l] = v.convert d k >>= fun w => w.convert d l := by
  simp [along]

/-- A way that begins with a fault ends with it. -/
theorem along_of_error {k : Kind} {way : List Kind} {v : Value} {f : Fault}
    (h : v.convert d k = .error f) : v.along d (k :: way) = .error f := by
  rw [along, List.foldlM_cons, h]
  rfl

end Value

end RpnCalculator
