import Mathlib.Data.List.Forall2
import RpnCalculator.Proofs.Value.Conversion

/-!
# Conversions of containers

A vector, a matrix or a directory can become a list, and a list any of the three.  This file says
when a list can, and what is left of a container that has been a list (`container_conversions`).

* A vector and a list hold the same items.
* A matrix becomes the list of its rows.  The way back asks for rows, lists or vectors, of one
  length, and it forgets which of the two a row was (`asList`).
* A directory becomes the list of its labeled values.  The way back asks for labeled values; it
  puts them in order and keeps the last one under each name (`LastLabeled`).

Both ways back are read off two equations for the traversals of the items.  `rowsOf` succeeds with
rows that stand to the items as `RowOf` says, and `entriesOf` with the entries that give the items
when they are labeled again (`rowsOf_eq_ok_iff`, `entriesOf_eq_ok_iff`).
-/

namespace RpnCalculator

/-! ## Names -/

namespace Directory

variable {α : Type}

/-- What is found under a name is in the first entry of the name. -/
theorem find?_eq_some_iff {name : String} {d : Directory α} {v : α} :
    d.find? name = some v ↔
      ∃ front back, d = front ++ (name, v) :: back ∧ ∀ u, (name, u) ∉ front := by
  induction d with
  | nil => simp [find?]
  | cons e rest ih =>
    obtain ⟨n, w⟩ := e
    rw [find?]
    split
    · rename_i hn
      subst hn
      constructor
      · intro h
        exact ⟨[], rest, by rw [Option.some.inj h]; rfl, by simp⟩
      · rintro ⟨front, back, hsplit, hfront⟩
        cases front with
        | nil =>
          rw [List.nil_append, List.cons.injEq, Prod.mk.injEq] at hsplit
          rw [hsplit.1.2]
        | cons f front =>
          rw [List.cons_append, List.cons.injEq] at hsplit
          exact absurd (hsplit.1 ▸ List.mem_cons_self) (hfront w)
    · rename_i hn
      rw [ih]
      constructor
      · rintro ⟨front, back, hsplit, hfront⟩
        refine ⟨(n, w) :: front, back, by rw [hsplit]; rfl, fun u hu => ?_⟩
        rcases List.mem_cons.mp hu with h | h
        · exact hn (Prod.mk.inj h).1.symm
        · exact hfront u h
      · rintro ⟨front, back, hsplit, hfront⟩
        cases front with
        | nil =>
          rw [List.nil_append, List.cons.injEq, Prod.mk.injEq] at hsplit
          exact absurd hsplit.1.1 hn
        | cons f front =>
          rw [List.cons_append, List.cons.injEq] at hsplit
          exact ⟨front, back, hsplit.2, fun u hu => hfront u (List.mem_cons_of_mem _ hu)⟩

/-- **The last entry of a name counts.** -/
theorem find?_ofList_eq_some_iff {name : String} {entries : List (String × α)} {v : α} :
    (ofList entries).find? name = some v ↔
      ∃ front back, entries = front ++ (name, v) :: back ∧ ∀ u, (name, u) ∉ back := by
  rw [find?_ofList, find?_eq_some_iff]
  constructor
  · rintro ⟨front, back, hsplit, hfront⟩
    refine ⟨back.reverse, front.reverse, ?_, by simpa using hfront⟩
    rw [← List.reverse_reverse entries, hsplit]
    simp
  · rintro ⟨front, back, hsplit, hback⟩
    refine ⟨back.reverse, front.reverse, ?_, by simpa using hback⟩
    rw [hsplit]
    simp

/-- In order, no name is there twice. -/
theorem Ascending.nodup {d : Directory α} (h : d.Ascending) : (d.map Prod.fst).Nodup := by
  induction d with
  | nil => exact List.nodup_nil
  | cons e rest ih =>
    obtain ⟨n, v⟩ := e
    refine List.nodup_cons.mpr ⟨fun hmem => ?_, ih h.2⟩
    obtain ⟨f, hf, rfl⟩ := List.mem_map.mp hmem
    have hlt := h.1 f hf
    rw [Text.compare_self] at hlt
    cases hlt

/-- A name has an entry when something is found under it. -/
theorem mem_names_iff {name : String} {d : Directory α} :
    name ∈ d.map Prod.fst ↔ (d.find? name).isSome := by
  induction d with
  | nil => simp [find?]
  | cons e rest ih =>
    obtain ⟨n, v⟩ := e
    rw [find?, List.map_cons, List.mem_cons, ih]
    split
    · rename_i hn
      simp [hn]
    · rename_i hn
      simp [Ne.symm hn]

/-- A directory has the names of the entries it was made of. -/
theorem mem_names_ofList {name : String} {entries : List (String × α)} :
    name ∈ (ofList entries).map Prod.fst ↔ name ∈ entries.map Prod.fst := by
  rw [mem_names_iff, find?_ofList, ← mem_names_iff, List.map_reverse, List.mem_reverse]

end Directory

namespace Value

variable {d : Display}

/-! ## Rows -/

/-- A value holds the items of a row. -/
def RowOf (v : Value) (row : List Value) : Prop := v = .list row ∨ v = .vector row

/-- A list, and of a vector the list of its items. -/
def asList : Value → Value
  | .vector items => .list items
  | v => v

theorem RowOf.asList_eq {v : Value} {row : List Value} (h : v.RowOf row) :
    v.asList = .list row := by
  rcases h with rfl | rfl <;> rfl

/-- A result in front of others, when there are others. -/
theorem map_cons_eq_ok_iff {ε α : Type} {r : Except ε (List α)} {a : α} {as : List α} :
    r.map (a :: ·) = .ok as ↔ ∃ rest, r = .ok rest ∧ as = a :: rest := by
  cases r <;> simp [Except.map, eq_comm]

/-- The rows of a list are found when all its items are rows. -/
theorem rowsOf_eq_ok_iff {items : List Value} {rows : List (List Value)} :
    rowsOf items = .ok rows ↔ List.Forall₂ RowOf items rows := by
  induction items generalizing rows with
  | nil =>
    rw [List.forall₂_nil_left_iff, rowsOf, Except.ok.injEq]
    exact eq_comm
  | cons v vs ih =>
    rw [List.forall₂_cons_left_iff]
    cases v with
    | list row | vector row => simp [rowsOf, map_cons_eq_ok_iff, ih, RowOf]
    | _ => simp [rowsOf, RowOf]

/-- A list of rows has the rows of the list. -/
theorem map_asList_of_rows {items : List Value} {rows : List (List Value)}
    (h : List.Forall₂ RowOf items rows) : items.map asList = rows.map .list := by
  induction h with
  | nil => rfl
  | cons hrow _ ih => rw [List.map_cons, List.map_cons, hrow.asList_eq, ih]

/-- **A list becomes a matrix of its rows**, if they have one length. -/
theorem convert_list_matrix_iff {items : List Value} {w : Value} :
    (list items).convert d .matrix = .ok w ↔
      ∃ rows, List.Forall₂ RowOf items rows ∧ rectangular rows = true ∧ w = .matrix rows := by
  have hbind : (list items).convert d .matrix = rowsOf items >>= ofRows := toMatrix_list items
  simp only [← rowsOf_eq_ok_iff]
  rw [hbind]
  cases rowsOf items with
  | error f =>
    constructor
    · exact nofun
    · rintro ⟨rows, hrows, -⟩
      cases hrows
  | ok rows =>
    show ofRows rows = .ok w ↔ _
    constructor
    · intro h
      unfold ofRows at h
      split at h
      · rename_i hrect
        exact ⟨rows, rfl, hrect, (Except.ok.inj h).symm⟩
      · cases h
    · rintro ⟨_, ⟨⟩, hrect, rfl⟩
      exact if_pos hrect

/-- All items are rows of one length. -/
def AreRows (items : List Value) : Prop :=
  ∃ n, ∀ v ∈ items, ∃ row, v.RowOf row ∧ row.length = n

theorem areRows_iff {items : List Value} :
    AreRows items ↔ ∃ rows, List.Forall₂ RowOf items rows ∧ rectangular rows = true := by
  constructor
  · rintro ⟨n, hitems⟩
    choose! row hrow hlen using hitems
    refine ⟨items.map row, ?_, ?_⟩
    · rw [List.forall₂_map_right_iff, List.forall₂_same]
      exact hrow
    · rw [rectangular_iff]
      simp only [List.forall_mem_map]
      intro v hv w hw
      rw [hlen v hv, hlen w hw]
  · rintro ⟨rows, hrows, hrect⟩
    rw [rectangular_iff] at hrect
    obtain ⟨n, hlen⟩ : ∃ n, ∀ row ∈ rows, row.length = n := by
      cases rows with
      | nil => exact ⟨0, by simp⟩
      | cons r rows => exact ⟨r.length, fun s hs => hrect s hs r List.mem_cons_self⟩
    refine ⟨n, ?_⟩
    clear hrect
    induction hrows with
    | nil => simp
    | cons hrow _ ih =>
      rw [List.forall_mem_cons] at hlen ⊢
      exact ⟨⟨_, hrow, hlen.1⟩, ih hlen.2⟩

/-! ## Entries -/

/-- The entries of a list are found when its items are those entries, labeled. -/
theorem entriesOf_eq_ok_iff {items : List Value} {es : List (String × Value)} :
    entriesOf items = .ok es ↔ items = es.map fun e => .labeled e.1 e.2 := by
  induction items generalizing es with
  | nil => rw [entriesOf, Except.ok.injEq, eq_comm, eq_comm (a := []), List.map_eq_nil_iff]
  | cons v vs ih =>
    rw [eq_comm (a := v :: vs), List.map_eq_cons_iff]
    cases v with
    | labeled name value =>
      rw [entriesOf, map_cons_eq_ok_iff]
      constructor
      · rintro ⟨rest, hrest, rfl⟩
        exact ⟨_, rest, rfl, rfl, (ih.mp hrest).symm⟩
      · rintro ⟨e, rest, rfl, he, hrest⟩
        obtain ⟨rfl, rfl⟩ := Value.labeled.inj he
        exact ⟨rest, ih.mpr hrest.symm, rfl⟩
    | _ => simp [entriesOf]

/-- The value is the last one that the list has under the name. -/
def LastLabeled (items : List Value) (name : String) (value : Value) : Prop :=
  ∃ front back, items = front ++ .labeled name value :: back ∧ ∀ u, .labeled name u ∉ back

/-- **A list becomes a directory of its labeled values**, if it holds nothing else. -/
theorem convert_list_directory_iff {items : List Value} {w : Value} :
    (list items).convert d .directory = .ok w ↔
      ∃ es : List (String × Value), items = es.map (fun e => .labeled e.1 e.2) ∧
        w = .directory (Directory.ofList es) := by
  have hmap : (list items).convert d .directory =
      (entriesOf items).map fun es => .directory (Directory.ofList es) := rfl
  simp only [← entriesOf_eq_ok_iff]
  rw [hmap]
  cases entriesOf items with
  | error f =>
    constructor
    · exact nofun
    · rintro ⟨es, hes, -⟩
      cases hes
  | ok es =>
    constructor
    · intro h
      exact ⟨es, rfl, (Except.ok.inj h).symm⟩
    · rintro ⟨_, ⟨⟩, rfl⟩
      rfl

/-- Labeled values are the labels of some entries. -/
theorem exists_entries_iff {items : List Value} :
    (∃ es : List (String × Value), items = es.map fun e => .labeled e.1 e.2) ↔
      ∀ v ∈ items, v.kind = .labeled := by
  constructor
  · rintro ⟨es, rfl⟩ v hv
    obtain ⟨e, -, rfl⟩ := List.mem_map.mp hv
    rfl
  · intro h
    induction items with
    | nil => exact ⟨[], rfl⟩
    | cons v vs ih =>
      rw [List.forall_mem_cons] at h
      obtain ⟨es, rfl⟩ := ih h.2
      cases v with
      | labeled name value => exact ⟨(name, value) :: es, rfl⟩
      | _ => cases h.1

/-- Labeling entries does not change which of them is the last under a name. -/
theorem lastLabeled_map_iff {es : List (String × Value)} {name : String} {value : Value} :
    LastLabeled (es.map fun e => .labeled e.1 e.2) name value ↔
      (Directory.ofList es).find? name = some value := by
  rw [Directory.find?_ofList_eq_some_iff]
  constructor
  · rintro ⟨front, back, hsplit, hback⟩
    obtain ⟨front, rest, rfl, rfl, hrest⟩ := List.map_eq_append_iff.mp hsplit
    obtain ⟨e, back, rfl, he, rfl⟩ := List.map_eq_cons_iff.mp hrest
    obtain ⟨rfl, rfl⟩ := Value.labeled.inj he
    refine ⟨front, back, rfl, fun u hu => hback u ?_⟩
    exact List.mem_map.mpr ⟨_, hu, rfl⟩
  · rintro ⟨front, back, rfl, hback⟩
    refine ⟨_, _, List.map_append, fun u hu => ?_⟩
    obtain ⟨e, he, hlabel⟩ := List.mem_map.mp hu
    obtain ⟨rfl, rfl⟩ := Value.labeled.inj hlabel
    exact hback _ he

/-! ## There and back -/

theorem along_matrix_list_matrix {rows : List (List Value)} (h : rectangular rows = true) :
    (matrix rows).along d [.list, .matrix] = .ok (.matrix rows) := by
  rw [along_two]
  show (list (rows.map .list)).convert d .matrix = _
  refine convert_list_matrix_iff.mpr ⟨rows, ?_, h, rfl⟩
  rw [List.forall₂_map_left_iff, List.forall₂_same]
  exact fun row _ => .inl rfl

theorem along_directory_list_directory {es : List (String × Value)} (h : Directory.Ascending es) :
    (directory es).along d [.list, .directory] = .ok (.directory es) := by
  rw [along_two]
  show (list (es.map fun e => .labeled e.1 e.2)).convert d .directory = _
  exact convert_list_directory_iff.mpr ⟨es, rfl, by rw [Directory.ofList_eq_self h]⟩

/-! ## Converting again -/

theorem settle_ofWord (n : Nat) : (ofWord d n).settle d = ofWord d n := by
  rw [ofWord, settle, Display.word_bitsOf, ofWord, Display.bitsOf, Nat.mod_mod, ← Display.bitsOf]

/-- A word that was made for the width in force has no hidden bits. -/
theorem settle_of_convert {v w : Value} {k : Kind} (h : v.convert d k = .ok w) :
    w.settle d = w := by
  suffices ∀ v : Value, Ends (fun w => w.settle d = w) (fun _ => True) (v.convert d .binary) by
    cases w with
    | binary bits =>
      obtain rfl := kind_of_convert h
      exact (this v).of_ok h
    | _ => rfl
  intro v
  cases v with
  | binary | integer | rational => exact settle_ofWord _
  | float x => exact Ends.map_any fun n => settle_ofWord _
  | _ => trivial

/-- **Converting again to a kind changes nothing.** -/
theorem convert_of_convert {v w : Value} {k : Kind} (h : v.convert d k = .ok w) :
    w.convert d k = .ok w := by
  have hself := convert_self (d := d) (v := w)
  rwa [kind_of_convert h, settle_of_convert h] at hself

/-- **Conversions between containers keep what they hold.** -/
theorem container_conversions (d : Display) :
    -- there and back
    (∀ items, (vector items).along d [.list, .vector] = .ok (.vector items)) ∧
    (∀ items, (list items).along d [.vector, .list] = .ok (.list items)) ∧
    (∀ rows, rectangular rows = true →
      (matrix rows).along d [.list, .matrix] = .ok (.matrix rows)) ∧
    (∀ es : List (String × Value), Directory.Ascending es →
      (directory es).along d [.list, .directory] = .ok (.directory es)) ∧
    -- from a list to a matrix
    (∀ items, ((∃ w, (list items).convert d .matrix = .ok w) ↔ AreRows items) ∧
      ∀ w, (list items).convert d .matrix = .ok w →
        w.convert d .list = .ok (.list (items.map asList))) ∧
    -- from a list to a directory
    (∀ items, ((∃ w, (list items).convert d .directory = .ok w) ↔ ∀ v ∈ items, v.kind = .labeled) ∧
      ∀ w, (list items).convert d .directory = .ok w → ∃ es : List (String × Value),
        w = .directory es ∧
        (∀ name value, Directory.find? name es = some value ↔ LastLabeled items name value) ∧
        w.convert d .list = .ok (.list (es.map fun e => .labeled e.1 e.2)) ∧
        Directory.Ascending es ∧ (es.map Prod.fst).Nodup ∧
        ∀ name, name ∈ es.map Prod.fst ↔ ∃ value, .labeled name value ∈ items) ∧
    -- twice to one kind
    ∀ v k w, convert d k v = .ok w → w.kind = k ∧ w.convert d k = .ok w := by
  refine ⟨fun items => rfl, fun items => rfl, fun rows => along_matrix_list_matrix,
    fun es => along_directory_list_directory, fun items => ⟨?_, fun w hw => ?_⟩,
    fun items => ⟨?_, fun w hw => ?_⟩, fun v k w h => ⟨kind_of_convert h, convert_of_convert h⟩⟩
  · simp only [convert_list_matrix_iff, areRows_iff]
    constructor
    · rintro ⟨w, rows, hrows, hrect, -⟩
      exact ⟨rows, hrows, hrect⟩
    · rintro ⟨rows, hrows, hrect⟩
      exact ⟨_, rows, hrows, hrect, rfl⟩
  · obtain ⟨rows, hrows, -, rfl⟩ := convert_list_matrix_iff.mp hw
    rw [map_asList_of_rows hrows]
    rfl
  · simp only [convert_list_directory_iff, ← exists_entries_iff]
    constructor
    · rintro ⟨w, es, hes, -⟩
      exact ⟨es, hes⟩
    · rintro ⟨es, hes⟩
      exact ⟨_, es, hes, rfl⟩
  · obtain ⟨es, rfl, rfl⟩ := convert_list_directory_iff.mp hw
    refine ⟨_, rfl, fun name value => lastLabeled_map_iff.symm, rfl, Directory.ascending_ofList es,
      (Directory.ascending_ofList es).nodup, fun name => ?_⟩
    rw [Directory.mem_names_ofList]
    simp

/-- Of two values under one name the later one stays, and rows may be lists and vectors. -/
theorem container_conversions_names :
    (rectangular [[integer 1], [integer 2]] = true ∧
      Directory.Ascending [("a", integer 1), ("b", integer 2)]) ∧
    (matrix [[integer 1], [integer 2]]).along {} [.list, .matrix] =
      .ok (.matrix [[integer 1], [integer 2]]) ∧
    (directory [("a", integer 1), ("b", integer 2)]).along {} [.list, .directory] =
      .ok (.directory [("a", integer 1), ("b", integer 2)]) ∧
    ((list [.list [integer 1], vector [integer 2]]).convert {} .matrix =
        .ok (.matrix [[integer 1], [integer 2]]) ∧
      (matrix [[integer 1], [integer 2]]).convert {} .list =
        .ok (.list [.list [integer 1], .list [integer 2]])) ∧
    ((list [labeled "a" (integer 1), labeled "a" (integer 2)]).convert {} .directory =
        .ok (.directory [("a", integer 2)]) ∧
      LastLabeled [labeled "a" (integer 1), labeled "a" (integer 2)] "a" (integer 2)) ∧
    (directory [("a", integer 2)]).convert {} .directory = .ok (.directory [("a", integer 2)]) := by
  have hrect : rectangular [[integer 1], [integer 2]] = true := by decide
  have hascending : Directory.Ascending [("a", integer 1), ("b", integer 2)] := by
    refine ⟨?_, nofun, trivial⟩
    rintro e (_ | ⟨_, _ | _⟩)
    decide
  have hmatrix : (list [.list [integer 1], vector [integer 2]]).convert {} .matrix =
      .ok (.matrix [[integer 1], [integer 2]]) := rfl
  have hdirectory :
      (list [labeled "a" (integer 1), labeled "a" (integer 2)]).convert {} .directory =
        .ok (.directory [("a", integer 2)]) := rfl
  obtain ⟨-, -, hrows, hentries, hofRows, hofEntries, htwice⟩ := container_conversions {}
  obtain ⟨es, hes, hlast, -⟩ := (hofEntries _).2 _ hdirectory
  obtain rfl := Value.directory.inj hes
  exact ⟨⟨hrect, hascending⟩, hrows _ hrect, hentries _ hascending,
    ⟨hmatrix, (hofRows _).2 _ hmatrix⟩, ⟨hdirectory, (hlast "a" (integer 2)).mp rfl⟩,
    (htwice _ _ _ hdirectory).2⟩

end Value

end RpnCalculator
