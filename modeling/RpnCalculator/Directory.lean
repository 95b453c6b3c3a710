import RpnCalculator.Text.Order

/-!
# Directories

Names with a value each, in ascending order of the names.  The variables of a
calculator are a directory, and a directory can be a value.

A directory is a list of pairs, and that its names ascend is a separate statement
(`Directory.Ascending`), kept by every operation.  The order cannot be part of the type,
because values contain directories of values.
-/

namespace RpnCalculator

/-- Names with their values. -/
abbrev Directory (α : Type) := List (String × α)

namespace Directory

variable {α : Type}

/-- The value under a name. -/
def find? (name : String) : Directory α → Option α
  | [] => none
  | (n, v) :: rest => if n = name then some v else find? name rest

/-- Put a value under a name, in the place of any value that was there. -/
def insert (name : String) (value : α) : Directory α → Directory α
  | [] => [(name, value)]
  | (n, v) :: rest =>
    match Text.compare name n with
    | .lt => (name, value) :: (n, v) :: rest
    | .eq => (name, value) :: rest
    | .gt => (n, v) :: insert name value rest

/-- Remove a name. -/
def erase (name : String) : Directory α → Directory α
  | [] => []
  | (n, v) :: rest => if n = name then erase name rest else (n, v) :: erase name rest

/-- The directory of some entries.  The last entry of a name counts. -/
def ofList (entries : List (String × α)) : Directory α :=
  entries.foldl (fun d e => insert e.1 e.2 d) []

/-- Each name comes before the next. -/
def Ascending : Directory α → Prop
  | [] => True
  | (n, _) :: rest => (∀ e ∈ rest, Text.compare n e.1 = .lt) ∧ Ascending rest

/-! ## Looking up after a change -/

theorem find?_insert_self (name : String) (value : α) (d : Directory α) :
    (d.insert name value).find? name = some value := by
  induction d with
  | nil => simp [insert, find?]
  | cons e rest ih =>
    obtain ⟨n, v⟩ := e
    unfold insert
    split
    · simp [find?]
    · simp [find?]
    · rename_i h
      have : n ≠ name := by
        rintro rfl
        simp at h
      simp [find?, this, ih]

theorem find?_insert_of_ne {name other : String} (h : other ≠ name) (value : α)
    (d : Directory α) : (d.insert name value).find? other = d.find? other := by
  induction d with
  | nil => simp [insert, find?, h.symm]
  | cons e rest ih =>
    obtain ⟨n, v⟩ := e
    unfold insert
    split
    · simp [find?, h.symm]
    · rename_i he
      have : name = n := Text.compare_eq_iff.mp he
      subst this
      simp [find?, h.symm]
    · simp [find?, ih]

theorem find?_erase_self (name : String) (d : Directory α) : (d.erase name).find? name = none := by
  induction d with
  | nil => rfl
  | cons e rest ih =>
    obtain ⟨n, v⟩ := e
    unfold erase
    split
    · exact ih
    · rename_i h
      simp [find?, h, ih]

theorem find?_erase_of_ne {name other : String} (h : other ≠ name) (d : Directory α) :
    (d.erase name).find? other = d.find? other := by
  induction d with
  | nil => rfl
  | cons e rest ih =>
    obtain ⟨n, v⟩ := e
    unfold erase
    split
    · rename_i hn
      subst hn
      simp [find?, h.symm, ih]
    · simp [find?, ih]

/-! ## Order -/

theorem mem_insert {name : String} {value : α} {d : Directory α} {e : String × α}
    (h : e ∈ d.insert name value) : e = (name, value) ∨ e ∈ d := by
  induction d with
  | nil => simpa [insert] using h
  | cons f rest ih =>
    obtain ⟨n, v⟩ := f
    unfold insert at h
    split at h
    · simpa using h
    · rcases List.mem_cons.mp h with h | h
      · exact .inl h
      · exact .inr (List.mem_cons_of_mem _ h)
    · rcases List.mem_cons.mp h with h | h
      · exact .inr (h ▸ List.mem_cons_self)
      · rcases ih h with h | h
        · exact .inl h
        · exact .inr (List.mem_cons_of_mem _ h)

/-- A directory holds nothing but the entries it was made of. -/
theorem mem_of_mem_ofList {entries : List (String × α)} {e : String × α}
    (h : e ∈ ofList entries) : e ∈ entries := by
  suffices ∀ d : Directory α, e ∈ entries.foldl (fun d e => insert e.1 e.2 d) d →
      e ∈ d ∨ e ∈ entries by
    rcases this [] h with h | h
    · simp at h
    · exact h
  clear h
  induction entries with
  | nil => exact fun d h => .inl h
  | cons f entries ih =>
    intro d h
    rcases ih _ h with h | h
    · rcases mem_insert h with rfl | h
      · exact .inr List.mem_cons_self
      · exact .inl h
    · exact .inr (List.mem_cons_of_mem _ h)

theorem mem_of_mem_erase {name : String} {d : Directory α} {e : String × α}
    (h : e ∈ d.erase name) : e ∈ d := by
  induction d with
  | nil => exact h
  | cons f rest ih =>
    obtain ⟨n, v⟩ := f
    unfold erase at h
    split at h
    · exact List.mem_cons_of_mem _ (ih h)
    · rcases List.mem_cons.mp h with h | h
      · exact h ▸ List.mem_cons_self
      · exact List.mem_cons_of_mem _ (ih h)

/-- What is found under a name is in an entry. -/
theorem exists_mem_of_find? {name : String} {d : Directory α} {v : α}
    (h : d.find? name = some v) : ∃ e ∈ d, e.2 = v := by
  induction d with
  | nil => cases h
  | cons f rest ih =>
    obtain ⟨n, w⟩ := f
    unfold find? at h
    split at h
    · cases h
      exact ⟨_, List.mem_cons_self, rfl⟩
    · obtain ⟨e, he, hv⟩ := ih h
      exact ⟨e, List.mem_cons_of_mem _ he, hv⟩

theorem Ascending.insert {d : Directory α} (h : d.Ascending) (name : String) (value : α) :
    (d.insert name value).Ascending := by
  induction d with
  | nil => simp [Directory.insert, Ascending]
  | cons e rest ih =>
    obtain ⟨n, v⟩ := e
    obtain ⟨hlt, hrest⟩ := h
    unfold Directory.insert
    split
    · rename_i hc
      refine ⟨?_, hlt, hrest⟩
      intro e he
      rcases List.mem_cons.mp he with rfl | he
      · exact hc
      · exact Text.compare_lt_trans hc (hlt e he)
    · rename_i hc
      have : name = n := Text.compare_eq_iff.mp hc
      subst this
      exact ⟨hlt, hrest⟩
    · rename_i hc
      refine ⟨?_, ih hrest⟩
      intro e he
      rcases mem_insert he with rfl | he
      · rw [Text.compare_swap, hc]
        rfl
      · exact hlt e he

/-- A directory built from entries is in order. -/
theorem ascending_ofList (entries : List (String × α)) : (ofList entries).Ascending := by
  suffices ∀ d : Directory α, d.Ascending →
      (entries.foldl (fun d e => insert e.1 e.2 d) d).Ascending from this [] trivial
  induction entries with
  | nil => exact fun _ h => h
  | cons e entries ih => exact fun d h => ih _ (h.insert e.1 e.2)

theorem insert_append {d : Directory α} {name : String} (value : α)
    (h : ∀ e ∈ d, Text.compare e.1 name = .lt) : d.insert name value = d ++ [(name, value)] := by
  induction d with
  | nil => rfl
  | cons e rest ih =>
    rw [List.forall_mem_cons] at h
    have hgt : Text.compare name e.1 = .gt := by
      rw [Text.compare_swap, h.1]
      rfl
    rw [insert, hgt, List.cons_append, ih h.2]

/-- Entries in order are a directory as they are. -/
theorem ofList_eq_self {entries : Directory α} (h : entries.Ascending) :
    ofList entries = entries := by
  suffices ∀ d : Directory α, (∀ e ∈ d, ∀ f ∈ entries, Text.compare e.1 f.1 = .lt) →
      entries.foldl (fun d e => insert e.1 e.2 d) d = d ++ entries from this [] (by simp)
  induction entries with
  | nil => simp
  | cons e rest ih =>
    obtain ⟨hlt, hrest⟩ := h
    intro d hd
    have hbefore : ∀ f ∈ d, Text.compare f.1 e.1 = .lt := fun f hf => hd f hf e List.mem_cons_self
    rw [List.foldl_cons, insert_append e.2 hbefore, ih hrest]
    · simp
    · intro f hf g hg
      rcases List.mem_append.mp hf with hf | hf
      · exact hd f hf g (List.mem_cons_of_mem _ hg)
      · rw [List.mem_singleton] at hf
        rw [hf]
        exact hlt g hg

theorem find?_eq_none {d : Directory α} {name : String}
    (h : ∀ e ∈ d, Text.compare name e.1 = .lt) : d.find? name = none := by
  induction d with
  | nil => rfl
  | cons e rest ih =>
    rw [List.forall_mem_cons] at h
    have hne : e.1 ≠ name := fun heq => by
      rw [heq, Text.compare_self] at h
      cases h.1
    rw [find?, if_neg hne, ih h.2]

/-- A name that comes before the first one of a directory is not in it. -/
theorem Ascending.not_lt_of_find? {n n' : String} {v v' : α} {rest rest' : Directory α}
    (h : Directory.Ascending ((n', v') :: rest'))
    (hfind : find? n ((n, v) :: rest) = find? n ((n', v') :: rest')) :
    Text.compare n n' ≠ .lt := by
  intro hlt
  have hnone : find? n ((n', v') :: rest') = none := find?_eq_none <|
    List.forall_mem_cons.mpr ⟨hlt, fun e he => Text.compare_lt_trans hlt (h.1 e he)⟩
  rw [hnone, find?, if_pos rfl] at hfind
  cases hfind

/-- Directories in which the same is found under every name are the same. -/
theorem Ascending.ext {d d' : Directory α} (h : d.Ascending) (h' : d'.Ascending)
    (hfind : ∀ name, d.find? name = d'.find? name) : d = d' := by
  induction d generalizing d' with
  | nil =>
    cases d' with
    | nil => rfl
    | cons e' rest' =>
      have hfirst := hfind e'.1
      rw [find?, find?, if_pos rfl] at hfirst
      cases hfirst
  | cons e rest ih =>
    cases d' with
    | nil =>
      have hfirst := hfind e.1
      rw [find?, find?, if_pos rfl] at hfirst
      cases hfirst
    | cons e' rest' =>
      obtain ⟨n, v⟩ := e
      obtain ⟨n', v'⟩ := e'
      have hname : n = n' := by
        cases hcmp : Text.compare n n' with
        | lt => exact absurd hcmp (h'.not_lt_of_find? (hfind n))
        | eq => exact Text.compare_eq_iff.mp hcmp
        | gt =>
          refine absurd ?_ (h.not_lt_of_find? (hfind n').symm)
          rw [Text.compare_swap, hcmp]
          rfl
      subst hname
      have hvalue := hfind n
      rw [find?, find?, if_pos rfl, if_pos rfl] at hvalue
      have hrest : rest = rest' := by
        refine ih h.2 h'.2 fun name => ?_
        by_cases hn : n = name
        · subst hn
          rw [find?_eq_none h.1, find?_eq_none h'.1]
        · have hother := hfind name
          rwa [find?, find?, if_neg hn, if_neg hn] at hother
      rw [Option.some.inj hvalue, hrest]

/-- What is found under a name is its last entry, the first from behind. -/
theorem find?_ofList (name : String) (entries : List (String × α)) :
    (ofList entries).find? name = find? name entries.reverse := by
  suffices ∀ entries : List (String × α),
      (ofList entries.reverse).find? name = find? name entries by
    have hall := this entries.reverse
    rwa [List.reverse_reverse] at hall
  clear entries
  intro entries
  induction entries with
  | nil => rfl
  | cons e entries ih =>
    have hlast : ofList (e :: entries).reverse = insert e.1 e.2 (ofList entries.reverse) := by
      simp [ofList]
    rw [hlast, find?]
    by_cases hn : e.1 = name
    · rw [if_pos hn, ← hn, find?_insert_self]
    · rw [if_neg hn, find?_insert_of_ne (Ne.symm hn), ih]

/-! ## Changing the values -/

/-- A value is put in the same place whatever is done to it. -/
theorem insert_map {β : Type} (f : α → β) (name : String) (value : α) (d : Directory α) :
    insert name (f value) (d.map fun e => (e.1, f e.2)) =
      (d.insert name value).map fun e => (e.1, f e.2) := by
  induction d with
  | nil => rfl
  | cons e rest ih =>
    obtain ⟨n, v⟩ := e
    simp only [List.map_cons, insert]
    cases Text.compare name n with
    | lt => rfl
    | eq => rfl
    | gt => rw [ih, List.map_cons]

/-- So a directory of entries that are changed is the directory, changed. -/
theorem ofList_map {β : Type} (f : α → β) (entries : List (String × α)) :
    ofList (entries.map fun e => (e.1, f e.2)) = (ofList entries).map fun e => (e.1, f e.2) := by
  suffices ∀ d : Directory α,
      (entries.map fun e => (e.1, f e.2)).foldl (fun d e => insert e.1 e.2 d)
        (d.map fun e => (e.1, f e.2)) =
      (entries.foldl (fun d e => insert e.1 e.2 d) d).map fun e => (e.1, f e.2) from this []
  induction entries with
  | nil => exact fun d => rfl
  | cons e entries ih =>
    intro d
    rw [List.map_cons, List.foldl_cons, List.foldl_cons, ← ih (insert e.1 e.2 d), ← insert_map]

end Directory

end RpnCalculator
