import RpnCalculator.Proofs.Object.Field

/-!
# Payloads

The reader of values gives back every value that is well-formed (`restores`), does not read a
value from fewer bytes than it is written in (`takes_value`), and does not depend on the depth
that it is given, once that is enough (`extends_value`).

A value that is not well-formed may be given back as well, and most are.  The reader itself
refuses nothing but a denominator of zero.

## Depth

The depth that a value needs is at most the length of its payload, because each level has an
index of its own.  So the two go down together, and there is no separate bound to prove.
-/

namespace RpnCalculator

namespace StoredObject

/-! ## Payloads of sequences -/

/-- A count, and that many parts. -/
def sequencePayload {α : Type} (part : α → List UInt8) (as : List α) : List UInt8 :=
  count as.length ++ as.flatMap part

/-- An entry of a directory: a name and a value. -/
def entryPayload (e : String × Value) : List UInt8 := text e.1 ++ payload e.2

theorem itemsPayload_eq (items : List Value) : itemsPayload items = items.flatMap payload := by
  induction items with
  | nil => rfl
  | cons v items ih => rw [itemsPayload, List.flatMap_cons, ih]

theorem rowsPayload_eq (rows : List (List Value)) :
    rowsPayload rows = rows.flatMap (sequencePayload payload) := by
  induction rows with
  | nil => rfl
  | cons row rows ih =>
    rw [rowsPayload, List.flatMap_cons, ih, itemsPayload_eq, sequencePayload]

theorem entriesPayload_eq (es : List (String × Value)) :
    entriesPayload es = es.flatMap entryPayload := by
  induction es with
  | nil => rfl
  | cons e es ih => rw [entriesPayload, List.flatMap_cons, ih, entryPayload]

/-! ## What comes after the index -/

/-- What is written of a value after the index of its kind. -/
def contentPayload : Value → List UInt8
  | .binary bits => number 4 bits.toNat
  | .complex z => double z.re ++ double z.im
  | .directory entries => sequencePayload entryPayload entries
  | .float x => double x
  | .integer n => integer n
  | .labeled label v => text label ++ payload v
  | .list items => sequencePayload payload items
  | .matrix rows => sequencePayload (sequencePayload payload) rows
  | .program s => text s
  | .rational q => integer q.num ++ integer q.den
  | .string s => text s
  | .vector items => sequencePayload payload items

/-- A payload is the index of the kind and the rest. -/
theorem payload_eq (v : Value) : payload v = number 4 v.kind.index ++ contentPayload v := by
  cases v with
  | complex | labeled | rational =>
    rw [payload, List.append_assoc]
    rfl
  | list | vector =>
    rw [payload, List.append_assoc, itemsPayload_eq]
    rfl
  | matrix =>
    rw [payload, List.append_assoc, rowsPayload_eq]
    rfl
  | directory =>
    rw [payload, List.append_assoc, entriesPayload_eq]
    rfl
  | _ => rfl

/-! ## Lengths -/

theorem length_payload (v : Value) : (payload v).length = 4 + (contentPayload v).length := by
  rw [payload_eq, List.length_append, length_number]

theorem length_text (s : String) : (text s).length = 8 + (Utf8.encode s).length := by
  rw [text, List.length_append, length_count]

theorem length_entryPayload (e : String × Value) :
    (entryPayload e).length = 8 + (Utf8.encode e.1).length + (payload e.2).length := by
  rw [entryPayload, List.length_append, length_text]

section Lengths

variable {α : Type} {part : α → List UInt8}

theorem length_sequencePayload (as : List α) :
    (sequencePayload part as).length = 8 + (as.flatMap part).length := by
  rw [sequencePayload, List.length_append, length_count]

variable (part) in
/-- A part is shorter than the sequence that it is in. -/
theorem length_part_lt {as : List α} {a : α} (h : a ∈ as) :
    (part a).length < (sequencePayload part as).length := by
  have hle : (part a).length ≤ (as.flatMap part).length := by
    induction as with
    | nil => simp at h
    | cons b as ih =>
      rw [List.flatMap_cons, List.length_append]
      rcases List.mem_cons.mp h with rfl | h
      · omega
      · have hrest := ih h
        omega
  rw [length_sequencePayload]
  omega

/-- There are no more parts than bytes. -/
theorem length_lt_sequencePayload (h : ∀ a, 1 ≤ (part a).length) (as : List α) :
    as.length < (sequencePayload part as).length := by
  have hle : as.length ≤ (as.flatMap part).length := by
    induction as with
    | nil => simp
    | cons a as ih =>
      have ha := h a
      rw [List.flatMap_cons, List.length_append, List.length_cons]
      omega
  rw [length_sequencePayload]
  omega

/-- A count that is in front of no more bytes than can be counted can be written. -/
theorem length_lt_of_payload {items : List Value} {bound : Nat}
    (h : (sequencePayload payload items).length < bound) : items.length < bound := by
  have hone (v : Value) : 1 ≤ (payload v).length := by
    rw [length_payload]
    omega
  exact Nat.lt_trans (length_lt_sequencePayload hone items) h

theorem length_lt_of_rows {rows : List (List Value)} {bound : Nat}
    (h : (sequencePayload (sequencePayload payload) rows).length < bound) :
    rows.length < bound := by
  have hone (row : List Value) : 1 ≤ (sequencePayload payload row).length := by
    rw [length_sequencePayload]
    omega
  exact Nat.lt_trans (length_lt_sequencePayload hone rows) h

theorem length_lt_of_entries {es : List (String × Value)} {bound : Nat}
    (h : (sequencePayload entryPayload es).length < bound) : es.length < bound := by
  have hone (e : String × Value) : 1 ≤ (entryPayload e).length := by
    rw [length_entryPayload]
    omega
  exact Nat.lt_trans (length_lt_sequencePayload hone es) h

end Lengths

namespace Reader

variable {α : Type}

/-! ## Sequences -/

theorem gives_sequence {Q : α → Prop} {part : α → List UInt8} {r : Reader α} {as : List α}
    (h : ∀ a ∈ as, Gives (Q a) r a (part a)) (hlen : as.length < 256 ^ 8) :
    Gives (∀ a ∈ as, Q a) (sequence r) as (sequencePayload part as) :=
  (gives_count hlen).andThen (Gives.times h)

theorem gives_entry {Q : Prop} {r : Reader Value} {e : String × Value}
    (htext : (Utf8.encode e.1).length < 256 ^ 8) (h : Gives Q r e.2 (payload e.2)) :
    Gives Q (entry r) e (entryPayload e) :=
  (gives_text htext).andThen h.map

theorem takes_sequence {R : α → List UInt8 → Prop} {r : Reader α} (h : Takes R r) :
    Takes (fun as part => ∃ parts, part = count as.length ++ parts ∧ Parts R as parts)
      (sequence r) := by
  refine (takes_number 8).bind fun n part hpart => (h.times n).imp fun as parts hparts => ?_
  rw [hparts.1, hpart.2]
  exact ⟨parts, rfl, hparts.2⟩

theorem extends_sequence {r r' : Reader α} (h : Extends r r') :
    Extends (sequence r) (sequence r') :=
  (Extends.refl _).bind fun n => h.times n

theorem extends_entry {r r' : Reader α} (h : Extends r r') : Extends (entry r) (entry r') :=
  (Extends.refl _).bind fun _ => h.bind fun _ => Extends.refl _

/-! ## Depth -/

theorem extends_content {r r' : Reader Value} (h : Extends r r') (kind : Kind) :
    Extends (content r kind) (content r' kind) := by
  cases kind with
  | directory => exact (extends_sequence (extends_entry h)).bind fun _ => Extends.refl _
  | labeled => exact (Extends.refl _).bind fun _ => h.bind fun _ => Extends.refl _
  | list | vector => exact (extends_sequence h).bind fun _ => Extends.refl _
  | matrix => exact (extends_sequence (extends_sequence h)).bind fun _ => Extends.refl _
  | _ => exact Extends.refl _

/-- **A larger depth reads what a smaller one does.** -/
theorem extends_value {depth larger : Nat} (h : depth ≤ larger) :
    Extends (value depth) (value larger) := by
  induction depth generalizing larger with
  | zero =>
    intro bytes v rest hv
    cases hv
  | succ depth ih =>
    obtain ⟨k, rfl⟩ : ∃ k, larger = k + 1 := ⟨larger - 1, by omega⟩
    have hk : Extends (value depth) (value k) := ih (by omega)
    refine (Extends.refl _).bind fun index => ?_
    split
    · exact Extends.refl _
    · exact extends_content hk _

/-! ## Giving back -/

/-- The reader gives a value back, if it is well-formed, from its payload. -/
def Restores (v : Value) : Prop :=
  ∀ depth, (payload v).length ≤ depth → (payload v).length < 256 ^ 8 → v.Ordered →
    Gives v.WellFormed (value depth) v (payload v)

/-- It is enough to give back what comes after the index, at a depth that is one less. -/
theorem restores_of_content {v : Value}
    (h : ∀ depth, (contentPayload v).length ≤ depth → (contentPayload v).length < 256 ^ 8 →
      v.Ordered → Gives v.WellFormed (content (value depth) v.kind) v (contentPayload v)) :
    Restores v := by
  intro depth hdepth hlen hord
  rw [length_payload] at hdepth hlen
  obtain ⟨k, rfl⟩ : ∃ k, depth = k + 1 := ⟨depth - 1, by omega⟩
  have hindex : v.kind.index < 256 ^ 4 := by cases v.kind <;> decide
  have hcontent := h k (by omega) (by omega) hord
  rw [payload_eq]
  refine (gives_number hindex).andThen ?_
  rw [Kind.ofIndex?_index]
  exact hcontent

/-- The items of a sequence are given back. -/
theorem gives_items {depth : Nat} {items : List Value} (ih : ∀ v ∈ items, Restores v)
    (hdepth : (sequencePayload payload items).length ≤ depth)
    (hlen : (sequencePayload payload items).length < 256 ^ 8) (hord : ∀ v ∈ items, v.Ordered) :
    Gives (∀ v ∈ items, v.WellFormed) (sequence (value depth)) items
      (sequencePayload payload items) := by
  refine gives_sequence ?_ (length_lt_of_payload hlen)
  intro v hv
  have hpart := length_part_lt payload hv
  exact ih v hv depth (by omega) (by omega) (hord v hv)

/-- Whatever is well-formed is given back. -/
theorem restores (v : Value) : Restores v := by
  induction v with
  | binary bits =>
    refine restores_of_content fun depth _ _ _ => ?_
    have hbits : Gives True (number 4) bits.toNat (StoredObject.number 4 bits.toNat) :=
      gives_number bits.toNat_lt
    have key := hbits.map (f := fun n => Value.binary (.ofNat n))
    rw [UInt32.ofNat_toNat] at key
    exact key.imp fun _ => trivial
  | complex z =>
    refine restores_of_content fun depth _ _ _ => ?_
    have him := (gives_double z.im).map (f := fun im => Value.complex ⟨z.re, im⟩)
    exact ((gives_double z.re).andThen him).imp fun _ => trivial
  | float x =>
    refine restores_of_content fun depth _ _ _ => ?_
    exact (gives_double x).map.imp fun _ => trivial
  | integer n =>
    refine restores_of_content fun depth _ hlen _ => ?_
    rw [contentPayload, length_integer] at hlen
    exact (gives_integer (by omega)).map.imp fun _ => trivial
  | rational q =>
    refine restores_of_content fun depth _ hlen _ => ?_
    rw [contentPayload, List.length_append, length_integer, length_integer] at hlen
    refine (gives_fraction (by omega) (by omega)).map.imp fun hq => ?_
    rw [Value.WellFormed, Fraction.Reduced] at hq
    omega
  | program s =>
    refine restores_of_content fun depth _ hlen _ => ?_
    rw [contentPayload, length_text] at hlen
    exact (gives_text (by omega)).map.imp fun _ => trivial
  | string s =>
    refine restores_of_content fun depth _ hlen _ => ?_
    rw [contentPayload, length_text] at hlen
    exact (gives_text (by omega)).map.imp fun _ => trivial
  | labeled label v ih =>
    refine restores_of_content fun depth hdepth hlen hord => ?_
    rw [contentPayload, List.length_append, length_text] at hdepth hlen
    rw [Value.Ordered] at hord
    have hv := ih depth (by omega) (by omega) hord
    have hlabel : Gives True text label (StoredObject.text label) := gives_text (by omega)
    refine (hlabel.andThen hv.map).imp fun h => ?_
    rwa [Value.WellFormed] at h
  | list items ih =>
    refine restores_of_content fun depth hdepth hlen hord => ?_
    rw [Value.Ordered, Value.itemsOrdered_iff] at hord
    have hitems := gives_items ih hdepth hlen hord
    refine hitems.map.imp fun h => ?_
    rwa [Value.WellFormed, Value.itemsWellFormed_iff] at h
  | vector items ih =>
    refine restores_of_content fun depth hdepth hlen hord => ?_
    rw [Value.Ordered, Value.itemsOrdered_iff] at hord
    have hitems := gives_items ih hdepth hlen hord
    refine hitems.map.imp fun h => ?_
    rwa [Value.WellFormed, Value.itemsWellFormed_iff] at h
  | matrix rows ih =>
    refine restores_of_content fun depth hdepth hlen hord => ?_
    rw [contentPayload] at hdepth hlen
    rw [Value.Ordered, Value.rowsOrdered_iff] at hord
    have hrow (row : List Value) (hrow : row ∈ rows) :
        Gives (∀ v ∈ row, v.WellFormed) (sequence (value depth)) row
          (sequencePayload payload row) := by
      have hpart := length_part_lt (sequencePayload payload) hrow
      exact gives_items (ih row hrow) (by omega) (by omega) (hord row hrow)
    have hrows := gives_sequence hrow (length_lt_of_rows hlen)
    refine hrows.map.imp fun h => ?_
    rw [Value.WellFormed, Value.rowsWellFormed_iff] at h
    exact h.2
  | directory entries ih =>
    refine restores_of_content fun depth hdepth hlen hord => ?_
    rw [contentPayload] at hdepth hlen
    rw [Value.Ordered, Value.entriesOrdered_iff] at hord
    have hentry (e : String × Value) (he : e ∈ entries) :
        Gives e.2.WellFormed (entry (value depth)) e (entryPayload e) := by
      have hpart := length_part_lt entryPayload he
      rw [length_entryPayload] at hpart
      have hv := ih e he depth (by omega) (by omega) (hord.2 e he)
      exact gives_entry (by omega) hv
    have hentries := gives_sequence hentry (length_lt_of_entries hlen)
    have key := hentries.map (f := fun es => Value.directory (Directory.ofList es))
    rw [Directory.ofList_eq_self hord.1] at key
    refine key.imp fun h => ?_
    rwa [Value.WellFormed, Value.entriesWellFormed_iff] at h

/-! ## Taking no less -/

/-- A value is in order, and its payload is not longer than some bytes. -/
def Fits (v : Value) (part : List UInt8) : Prop := (payload v).length ≤ part.length ∧ v.Ordered

/-- What fits one by one fits together. -/
theorem Parts.fits {R : α → List UInt8 → Prop} (part : α → List UInt8) {Q : α → Prop}
    (hR : ∀ a bytes, R a bytes → (part a).length ≤ bytes.length ∧ Q a) {as : List α}
    {parts : List UInt8} (h : Parts R as parts) :
    (as.flatMap part).length ≤ parts.length ∧ ∀ a ∈ as, Q a := by
  induction h with
  | nil => simp
  | cons ha _ ih =>
    have hle := (hR _ _ ha).1
    rw [List.flatMap_cons, List.length_append, List.length_append, List.forall_mem_cons]
    exact ⟨by omega, (hR _ _ ha).2, ih.2⟩

/-- A sequence was read from as many bytes as it is written in, if each of its parts was. -/
theorem takes_sequence_fits (part : α → List UInt8) {Q : α → Prop} {r : Reader α}
    (h : Takes (fun a bytes => (part a).length ≤ bytes.length ∧ Q a) r) :
    Takes (fun as bytes => (sequencePayload part as).length ≤ bytes.length ∧ ∀ a ∈ as, Q a)
      (sequence r) := by
  refine (takes_sequence h).imp fun as bytes hbytes => ?_
  obtain ⟨parts, rfl, hparts⟩ := hbytes
  have hfits := hparts.fits part fun _ _ ha => ha
  rw [length_sequencePayload, List.length_append, length_count]
  exact ⟨by omega, hfits.2⟩

theorem takes_entry {r : Reader Value} (h : Takes Fits r) :
    Takes (fun e part => (entryPayload e).length ≤ part.length ∧ e.2.Ordered) (entry r) := by
  refine takes_text.bind fun name part hname => h.bind fun v part' hv => Takes.pure ?_
  rw [Fits] at hv
  rw [hname, entryPayload, List.append_nil, List.length_append, List.length_append]
  exact ⟨Nat.add_le_add_left hv.1 _, hv.2⟩

/-- Entries that are put in order, or replaced, do not become longer. -/
theorem length_entries_insert (name : String) (v : Value) (d : Directory Value) :
    ((d.insert name v).flatMap entryPayload).length ≤
      (d.flatMap entryPayload).length + (entryPayload (name, v)).length := by
  induction d with
  | nil => simp [Directory.insert]
  | cons e rest ih =>
    obtain ⟨n, w⟩ := e
    unfold Directory.insert
    split
    · simp only [List.flatMap_cons, List.length_append]
      omega
    · simp only [List.flatMap_cons, List.length_append]
      omega
    · simp only [List.flatMap_cons, List.length_append] at ih ⊢
      omega

theorem length_entries_ofList (es : List (String × Value)) :
    ((Directory.ofList es).flatMap entryPayload).length ≤ (es.flatMap entryPayload).length := by
  suffices ∀ d : Directory Value,
      ((es.foldl (fun d e => Directory.insert e.1 e.2 d) d).flatMap entryPayload).length ≤
        (d.flatMap entryPayload).length + (es.flatMap entryPayload).length by
    have hall := this []
    rwa [List.flatMap_nil, List.length_nil, Nat.zero_add] at hall
  induction es with
  | nil => simp
  | cons e es ih =>
    intro d
    obtain ⟨name, v⟩ := e
    have hinsert := length_entries_insert name v d
    have hrest := ih (d.insert name v)
    rw [List.foldl_cons, List.flatMap_cons, List.length_append]
    dsimp only
    omega

/-- Sorting a directory does not make it longer. -/
theorem length_directory_ofList (es : List (String × Value)) :
    (sequencePayload entryPayload (Directory.ofList es)).length ≤
      (sequencePayload entryPayload es).length := by
  have hentries := length_entries_ofList es
  rw [length_sequencePayload, length_sequencePayload]
  omega

/-- What comes after the index of a kind was read from as many bytes as it is written in. -/
theorem takes_content {r : Reader Value} (h : Takes Fits r) (kind : Kind) :
    Takes (fun v part => (contentPayload v).length ≤ part.length ∧ v.Ordered)
      (content r kind) := by
  cases kind with
  | binary =>
    refine (takes_number 4).bind fun n part hpart => Takes.pure ?_
    simp [contentPayload, Value.Ordered, hpart.2]
  | complex =>
    refine takes_double.bind fun re part hre => takes_double.bind fun im part' him => Takes.pure ?_
    simp [contentPayload, Value.Ordered, hre, him]
  | float =>
    refine takes_double.bind fun x part hx => Takes.pure ?_
    simp [contentPayload, Value.Ordered, hx]
  | integer =>
    refine takes_integer.bind fun n part hn => Takes.pure ?_
    simp [contentPayload, Value.Ordered, hn]
  | rational =>
    refine takes_fraction.bind fun q part hq => Takes.pure ?_
    simpa [contentPayload, Value.Ordered] using hq
  | program =>
    refine takes_text.bind fun s part hs => Takes.pure ?_
    simp [contentPayload, Value.Ordered, hs]
  | string =>
    refine takes_text.bind fun s part hs => Takes.pure ?_
    simp [contentPayload, Value.Ordered, hs]
  | labeled =>
    refine takes_text.bind fun label part hlabel => h.bind fun v part' hv => Takes.pure ?_
    rw [Fits] at hv
    simpa [contentPayload, Value.Ordered, hlabel] using hv
  | list =>
    have hvalues := takes_sequence_fits payload (Q := Value.Ordered) h
    refine hvalues.bind fun items part hitems => Takes.pure ?_
    rwa [List.append_nil, Value.Ordered, Value.itemsOrdered_iff]
  | vector =>
    have hvalues := takes_sequence_fits payload (Q := Value.Ordered) h
    refine hvalues.bind fun items part hitems => Takes.pure ?_
    rwa [List.append_nil, Value.Ordered, Value.itemsOrdered_iff]
  | matrix =>
    have hvalues := takes_sequence_fits payload (Q := Value.Ordered) h
    have hrows := takes_sequence_fits _ hvalues
    refine hrows.bind fun rows part hpart => Takes.pure ?_
    rwa [List.append_nil, Value.Ordered, Value.rowsOrdered_iff]
  | directory =>
    have hentries := takes_sequence_fits _ (takes_entry h)
    refine hentries.bind fun es part hpart => Takes.pure ?_
    have hlen := length_directory_ofList es
    have hord (e : String × Value) (he : e ∈ Directory.ofList es) : e.2.Ordered :=
      hpart.2 e (Directory.mem_of_mem_ofList he)
    rw [List.append_nil, contentPayload, Value.Ordered, Value.entriesOrdered_iff]
    exact ⟨by omega, Directory.ascending_ofList es, hord⟩

/-- **What was read is in order, and is not longer when it is written.** -/
theorem takes_value (depth : Nat) : Takes Fits (value depth) := by
  induction depth with
  | zero => exact Takes.fail _
  | succ depth ih =>
    refine (takes_number 4).bind fun index part hpart => ?_
    split
    · exact Takes.fail _
    · refine (takes_content ih _).imp fun v part' hv => ?_
      rw [Fits, length_payload, List.length_append, hpart.2, length_number]
      exact ⟨by omega, hv.2⟩

end Reader

end StoredObject

end RpnCalculator
