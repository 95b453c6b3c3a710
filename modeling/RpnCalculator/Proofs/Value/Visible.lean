import RpnCalculator.Value.Conversion

/-!
# What is seen of a value

A word keeps all the bits it was stored with, and the width in force decides which of them are
seen.  `Value.visible` is a value without its hidden bits, at any depth.  Two values are alike
(`Value.Alike`) when they are built in the same way and their words agree modulo the number of
words, and that is when the same is seen of them (`Value.alike_iff`).

Nothing that is done to a value should depend on hidden bits.  For a function from values to
values this is said here by an equation: what is seen of the result is the result of what is
seen.  The equation says more than that alike values have alike results, which follows from it,
and unlike that it has one value on each side, so that a proof by induction on the value does
not have to take two apart.

This file has the equation for texts (`chars_visible`) and for conversions
(`convert_visible`).  A conversion clears the hidden bits of a word but not those of a word
inside a value of the target kind; they survive it, unseen.
-/

namespace RpnCalculator

namespace Value

/-! ## The visible part -/

mutual

/-- The value without the hidden bits of its words, at every depth. -/
def visible (d : Display) : Value → Value
  | .binary bits => .binary (d.bitsOf (d.word bits))
  | .directory entries => .directory (visibleEntries d entries)
  | .labeled label v => .labeled label (visible d v)
  | .list items => .list (visibleItems d items)
  | .matrix rows => .matrix (visibleRows d rows)
  | .vector items => .vector (visibleItems d items)
  | v => v

def visibleItems (d : Display) : List Value → List Value
  | [] => []
  | v :: vs => visible d v :: visibleItems d vs

def visibleRows (d : Display) : List (List Value) → List (List Value)
  | [] => []
  | row :: rows => visibleItems d row :: visibleRows d rows

def visibleEntries (d : Display) : List (String × Value) → List (String × Value)
  | [] => []
  | (name, v) :: rest => (name, visible d v) :: visibleEntries d rest

end

variable {d : Display}

theorem visibleItems_eq_map (vs : List Value) : visibleItems d vs = vs.map (visible d) := by
  induction vs with
  | nil => rfl
  | cons v vs ih => rw [visibleItems, ih, List.map_cons]

theorem visibleRows_eq_map (rows : List (List Value)) :
    visibleRows d rows = rows.map (List.map (visible d)) := by
  induction rows with
  | nil => rfl
  | cons row rows ih => rw [visibleRows, ih, visibleItems_eq_map, List.map_cons]

theorem visibleEntries_eq_map (es : List (String × Value)) :
    visibleEntries d es = es.map fun e => (e.1, e.2.visible d) := by
  induction es with
  | nil => rfl
  | cons e es ih => rw [visibleEntries, ih, List.map_cons]

@[simp] theorem visible_binary (bits : UInt32) :
    (binary bits).visible d = binary (d.bitsOf (d.word bits)) := rfl

@[simp] theorem visible_complex (z : Complex) : (complex z).visible d = complex z := rfl

@[simp] theorem visible_directory (es : List (String × Value)) :
    (directory es).visible d = directory (es.map fun e => (e.1, e.2.visible d)) := by
  rw [visible, visibleEntries_eq_map]

@[simp] theorem visible_float (x : Double) : (float x).visible d = float x := rfl

@[simp] theorem visible_integer (n : Int) : (integer n).visible d = integer n := rfl

@[simp] theorem visible_labeled (label : String) (v : Value) :
    (labeled label v).visible d = labeled label (v.visible d) := rfl

@[simp] theorem visible_list (items : List Value) :
    (list items).visible d = list (items.map (visible d)) := by
  rw [visible, visibleItems_eq_map]

@[simp] theorem visible_matrix (rows : List (List Value)) :
    (matrix rows).visible d = matrix (rows.map (List.map (visible d))) := by
  rw [visible, visibleRows_eq_map]

@[simp] theorem visible_program (text : String) : (program text).visible d = program text := rfl

@[simp] theorem visible_rational (q : Fraction) : (rational q).visible d = rational q := rfl

@[simp] theorem visible_string (text : String) : (string text).visible d = string text := rfl

@[simp] theorem visible_vector (items : List Value) :
    (vector items).visible d = vector (items.map (visible d)) := by
  rw [visible, visibleItems_eq_map]

@[simp] theorem kind_visible (v : Value) : (v.visible d).kind = v.kind := by
  cases v <;> rfl

/-- The bits of a word of the width in force are all seen. -/
@[simp] theorem visible_ofWord (n : Nat) : (ofWord d n).visible d = ofWord d n := by
  have hbits : d.bitsOf (n % d.modulus) = d.bitsOf n := by
    rw [Display.bitsOf, Display.bitsOf, Nat.mod_mod]
  rw [ofWord, visible_binary, Display.word_bitsOf, hbits]

/-! ## Values that look alike -/

mutual

/-- Two values are built in the same way, and their words agree modulo the number of words. -/
def Alike (d : Display) : Value → Value → Prop
  | .binary a, .binary b => a.toNat % d.modulus = b.toNat % d.modulus
  | .directory es, .directory fs => EntriesAlike d es fs
  | .labeled k v, .labeled l w => k = l ∧ Alike d v w
  | .list vs, .list ws => ItemsAlike d vs ws
  | .matrix rows, .matrix rows' => RowsAlike d rows rows'
  | .vector vs, .vector ws => ItemsAlike d vs ws
  | v, w => v = w
termination_by structural v => v

def ItemsAlike (d : Display) : List Value → List Value → Prop
  | [], [] => True
  | v :: vs, w :: ws => Alike d v w ∧ ItemsAlike d vs ws
  | _, _ => False
termination_by structural vs => vs

def RowsAlike (d : Display) : List (List Value) → List (List Value) → Prop
  | [], [] => True
  | r :: rs, s :: ss => ItemsAlike d r s ∧ RowsAlike d rs ss
  | _, _ => False
termination_by structural vs => vs

def EntriesAlike (d : Display) : List (String × Value) → List (String × Value) → Prop
  | [], [] => True
  | (m, v) :: rest, (n, w) :: rest' => m = n ∧ Alike d v w ∧ EntriesAlike d rest rest'
  | _, _ => False
termination_by structural vs => vs

end

theorem itemsAlike_iff {vs ws : List Value}
    (h : ∀ v ∈ vs, ∀ w, Alike d v w ↔ v.visible d = w.visible d) :
    ItemsAlike d vs ws ↔ vs.map (visible d) = ws.map (visible d) := by
  induction vs generalizing ws with
  | nil => cases ws <;> simp [ItemsAlike]
  | cons v vs ih =>
    rw [List.forall_mem_cons] at h
    cases ws with
    | nil => simp [ItemsAlike]
    | cons w ws => simp [ItemsAlike, h.1 w, ih h.2]

theorem rowsAlike_iff {rows rows' : List (List Value)}
    (h : ∀ row ∈ rows, ∀ v ∈ row, ∀ w, Alike d v w ↔ v.visible d = w.visible d) :
    RowsAlike d rows rows' ↔
      rows.map (List.map (visible d)) = rows'.map (List.map (visible d)) := by
  induction rows generalizing rows' with
  | nil => cases rows' <;> simp [RowsAlike]
  | cons row rows ih =>
    rw [List.forall_mem_cons] at h
    cases rows' with
    | nil => simp [RowsAlike]
    | cons row' rows' => simp [RowsAlike, itemsAlike_iff h.1, ih h.2]

theorem entriesAlike_iff {es fs : List (String × Value)}
    (h : ∀ e ∈ es, ∀ w, Alike d e.2 w ↔ e.2.visible d = w.visible d) :
    EntriesAlike d es fs ↔
      (es.map fun e => (e.1, e.2.visible d)) = fs.map fun e => (e.1, e.2.visible d) := by
  induction es generalizing fs with
  | nil => cases fs <;> simp [EntriesAlike]
  | cons e es ih =>
    rw [List.forall_mem_cons] at h
    cases fs with
    | nil => simp [EntriesAlike]
    | cons f fs =>
      obtain ⟨m, v⟩ := e
      obtain ⟨n, w⟩ := f
      simp [EntriesAlike, h.1 w, ih h.2, and_assoc]

/-- The visible part of what is seen of a word. -/
theorem word_bitsOf_word (bits : UInt32) : d.word (d.bitsOf (d.word bits)) = d.word bits := by
  rw [Display.word_bitsOf, Nat.mod_eq_of_lt (d.word_lt bits)]

/-- Words agree modulo the number of words when their visible bits are the same. -/
theorem bitsOf_word_inj {a b : UInt32} :
    d.bitsOf (d.word a) = d.bitsOf (d.word b) ↔ d.word a = d.word b := by
  constructor
  · intro h
    rw [← word_bitsOf_word a, ← word_bitsOf_word b, h]
  · exact congrArg _

/-- **Values are alike when the same is seen of them.** -/
theorem alike_iff {v w : Value} : v.Alike d w ↔ v.visible d = w.visible d := by
  induction v generalizing w with
  | binary a =>
    cases w with
    | binary b =>
      rw [visible_binary, visible_binary, binary.injEq, bitsOf_word_inj]
      exact Iff.rfl
    | _ => simp [Alike]
  | directory es ih =>
    cases w with
    | directory fs => simpa [Alike] using entriesAlike_iff fun e he w => ih e he
    | _ => simp [Alike]
  | labeled k v ih =>
    cases w with
    | labeled l w => simp [Alike, ih]
    | _ => simp [Alike]
  | list vs ih =>
    cases w with
    | list ws => simpa [Alike] using itemsAlike_iff fun v hv w => ih v hv
    | _ => simp [Alike]
  | matrix rows ih =>
    cases w with
    | matrix rows' => simpa [Alike] using rowsAlike_iff fun row hrow v hv w => ih row hrow v hv
    | _ => simp [Alike]
  | vector vs ih =>
    cases w with
    | vector ws => simpa [Alike] using itemsAlike_iff fun v hv w => ih v hv
    | _ => simp [Alike]
  | _ => cases w <;> simp [Alike]

/-! ## Texts -/

theorem wordText_bitsOf_word (bits : UInt32) :
    d.wordText (d.bitsOf (d.word bits)) = d.wordText bits := by
  rw [Display.wordText, Display.wordText, word_bitsOf_word]

theorem itemsChars_visible {vs : List Value} (h : ∀ v ∈ vs, chars d (v.visible d) = chars d v) :
    itemsChars d (vs.map (visible d)) = itemsChars d vs := by
  induction vs with
  | nil => rfl
  | cons v vs ih =>
    rw [List.forall_mem_cons] at h
    rw [List.map_cons, itemsChars, itemsChars, h.1, ih h.2]

theorem rowsChars_visible {rows : List (List Value)}
    (h : ∀ row ∈ rows, ∀ v ∈ row, chars d (v.visible d) = chars d v) :
    rowsChars d (rows.map (List.map (visible d))) = rowsChars d rows := by
  induction rows with
  | nil => rfl
  | cons row rows ih =>
    rw [List.forall_mem_cons] at h
    rw [List.map_cons, rowsChars, rowsChars, itemsChars_visible h.1, ih h.2]

theorem entriesChars_visible {es : List (String × Value)}
    (h : ∀ e ∈ es, chars d (e.2.visible d) = chars d e.2) :
    entriesChars d (es.map fun e => (e.1, e.2.visible d)) = entriesChars d es := by
  induction es with
  | nil => rfl
  | cons e es ih =>
    rw [List.forall_mem_cons] at h
    rw [List.map_cons, entriesChars, entriesChars, h.1, ih h.2]

/-- **A text shows nothing but what is seen.** -/
theorem chars_visible (v : Value) : chars d (v.visible d) = chars d v := by
  induction v with
  | binary bits => exact wordText_bitsOf_word bits
  | directory es ih =>
    rw [visible_directory]
    exact congrArg (fun cs => "DIR \x7b".toList ++ cs ++ [' ', '}']) (entriesChars_visible ih)
  | labeled label v ih => exact congrArg (fun cs => label.toList ++ ':' :: ' ' :: cs) ih
  | list items ih =>
    rw [visible_list]
    exact congrArg (fun cs => '{' :: cs ++ [' ', '}']) (itemsChars_visible ih)
  | matrix rows ih =>
    rw [visible_matrix]
    exact congrArg (fun cs => '[' :: cs ++ [' ', ']']) (rowsChars_visible ih)
  | vector items ih =>
    rw [visible_vector]
    exact congrArg (fun cs => '[' :: cs ++ [' ', ']']) (itemsChars_visible ih)
  | _ => rfl

theorem render_visible (v : Value) : (v.visible d).render d = v.render d := by
  rw [render, render, chars_visible]

/-! ## Conversions -/

/-- A word made of an integer has no hidden bits. -/
@[simp] theorem visible_ofIntegerWord (n : Int) :
    (ofIntegerWord d n).visible d = ofIntegerWord d n := visible_ofWord _

theorem toBinary_visible (v : Value) :
    (v.visible d).toBinary d = (v.toBinary d).map (visible d) := by
  cases v with
  | integer n => exact congrArg Except.ok (visible_ofIntegerWord n).symm
  | rational q => exact congrArg Except.ok (visible_ofIntegerWord q.toInt).symm
  | float x =>
    rw [visible_float, toBinary]
    cases wholePart x with
    | ok n => exact congrArg Except.ok (visible_ofIntegerWord n).symm
    | error f => rfl
  | _ => rfl

theorem toComplex_visible (v : Value) :
    (v.visible d).toComplex d = (v.toComplex d).map (visible d) := by
  cases v with
  | binary bits =>
    rw [visible_binary, toComplex, toComplex, word_bitsOf_word]
    rfl
  | _ => rfl

theorem toFloat_visible (v : Value) :
    (v.visible d).toFloat d = (v.toFloat d).map (visible d) := by
  cases v with
  | binary bits =>
    rw [visible_binary, toFloat, toFloat, word_bitsOf_word]
    rfl
  | _ => rfl

theorem toInteger_visible (v : Value) :
    (v.visible d).toInteger d = (v.toInteger d).map (visible d) := by
  cases v with
  | binary bits =>
    rw [visible_binary, toInteger, toInteger, word_bitsOf_word]
    rfl
  | float x =>
    rw [visible_float, toInteger]
    cases wholePart x <;> rfl
  | _ => rfl

theorem toRational_visible (v : Value) :
    (v.visible d).toRational d = (v.toRational d).map (visible d) := by
  cases v with
  | binary bits =>
    rw [visible_binary, toRational, toRational, word_bitsOf_word]
    rfl
  | float x =>
    rw [visible_float, toRational]
    cases exactly x <;> rfl
  | _ => rfl

theorem rowsOf_visible (items : List Value) :
    rowsOf (items.map (visible d)) =
      (rowsOf items).map (List.map (List.map (visible d))) := by
  induction items with
  | nil => rfl
  | cons v vs ih =>
    rw [List.map_cons]
    cases v with
    | list row | vector row =>
      simp only [visible_list, visible_vector, rowsOf, ih]
      cases rowsOf vs <;> rfl
    | _ => rfl

theorem entriesOf_visible (items : List Value) :
    entriesOf (items.map (visible d)) =
      (entriesOf items).map (List.map fun e => (e.1, e.2.visible d)) := by
  induction items with
  | nil => rfl
  | cons v vs ih =>
    rw [List.map_cons]
    cases v with
    | labeled label v =>
      rw [visible_labeled, entriesOf, entriesOf, ih]
      cases entriesOf vs <;> rfl
    | _ => rfl

theorem rectangular_visible (rows : List (List Value)) :
    rectangular (rows.map (List.map (visible d))) = rectangular rows := by
  cases rows with
  | nil => rfl
  | cons row rows => simp [rectangular, Function.comp_def]

theorem ofRows_visible (rows : List (List Value)) :
    ofRows (rows.map (List.map (visible d))) = (ofRows rows).map (visible d) := by
  rw [ofRows, ofRows, rectangular_visible]
  split
  · rw [← visible_matrix]
    rfl
  · rfl

theorem toList_visible (v : Value) : (v.visible d).toList = v.toList.map (visible d) := by
  cases v with
  | vector items => simp [toList, Except.map]
  | matrix rows => simp [toList, Except.map]
  | directory es => simp [toList, Except.map]
  | _ => rfl

theorem toMatrix_visible (v : Value) : (v.visible d).toMatrix = v.toMatrix.map (visible d) := by
  cases v with
  | vector items => simp [toMatrix, Except.map]
  | list items =>
    rw [visible_list, toMatrix, toMatrix, rowsOf_visible]
    cases rowsOf items with
    | ok rows => exact ofRows_visible rows
    | error f => rfl
  | _ => rfl

theorem toDirectory_visible (v : Value) :
    (v.visible d).toDirectory = v.toDirectory.map (visible d) := by
  cases v with
  | list items =>
    rw [visible_list, toDirectory, toDirectory, entriesOf_visible]
    cases entriesOf items with
    | ok es =>
      show Except.ok (directory (Directory.ofList (es.map fun e => (e.1, e.2.visible d)))) =
        .ok ((directory (Directory.ofList es)).visible d)
      rw [visible_directory, Directory.ofList_map]
    | error f => rfl
  | _ => rfl

theorem toVector_visible (v : Value) : (v.visible d).toVector = v.toVector.map (visible d) := by
  cases v with
  | list items => simp [toVector, Except.map]
  | _ => rfl

theorem toText_visible (v : Value) : (v.visible d).toText d = (v.toText d).visible d := by
  have htext : (v.visible d).render d = v.render d := render_visible v
  cases v with
  | program text => rfl
  | _ => exact congrArg Value.string htext

theorem toProgram_visible (v : Value) :
    (v.visible d).toProgram = v.toProgram.map (visible d) := by
  cases v <;> rfl

theorem settle_visible (v : Value) : (v.visible d).settle d = (v.settle d).visible d := by
  cases v with
  | binary bits => rfl
  | _ => rfl

/-- **What is seen of a converted value** is the conversion of what is seen. -/
theorem convert_visible (target : Kind) (v : Value) :
    (v.visible d).convert d target = (v.convert d target).map (visible d) := by
  unfold convert
  rw [kind_visible]
  split
  · rw [settle_visible]
    rfl
  · cases target with
    | binary => exact toBinary_visible v
    | complex => exact toComplex_visible v
    | directory => exact toDirectory_visible v
    | float => exact toFloat_visible v
    | integer => exact toInteger_visible v
    | labeled => rfl
    | list => exact toList_visible v
    | matrix => exact toMatrix_visible v
    | program => exact toProgram_visible v
    | rational => exact toRational_visible v
    | string => exact congrArg Except.ok (toText_visible v)
    | vector => exact toVector_visible v

end Value

end RpnCalculator
