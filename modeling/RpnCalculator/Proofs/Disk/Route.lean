import RpnCalculator.Proofs.Machine.Writing

/-!
# Where paths lead

A path is followed name by name, and every name but the last must be that of a folder.  So where
a path leads depends on which places are folders, and on nothing else: not on what the files
hold, and not on whether there is anything at the end (`Route`, `Leads`).  What is there is asked
afterwards (`resolve_eq_ok_iff`).

Writing puts a file where there was no folder.  The folders stay what they are, and so every path
leads where it led before, the one that was written included (`sameFolders_put`).  The path that
was written now leads to the new bytes (`holds_put`).  A path that leads elsewhere leads to
what it led to before (`resolve_congr`); it can only fail for another reason, since a file may now
stand where there was nothing.
-/

namespace RpnCalculator
namespace Disk

variable {disk disk' : Disk} {place next target : Location} {names rest : List String}
  {path : String}

/-! ## Folders -/

/-- The same places are folders. -/
def SameFolders (disk disk' : Disk) : Prop :=
  ∀ place, disk.at? place = some .folder ↔ disk'.at? place = some .folder

theorem SameFolders.symm (h : SameFolders disk disk') : SameFolders disk' disk :=
  fun place => (h place).symm

theorem SameFolders.trans {disk'' : Disk} (h : SameFolders disk disk')
    (h' : SameFolders disk' disk'') : SameFolders disk disk'' :=
  fun place => (h place).trans (h' place)

/-- What is at a place is a matter of the files alone. -/
theorem at?_congr (h : disk.entries = disk'.entries) (place : Location) :
    disk.at? place = disk'.at? place := by
  rw [at?, at?, h]

/-- A file in the place of what is no folder leaves all folders where they are. -/
theorem sameFolders_put (hne : place ≠ []) (hfolder : disk.at? place ≠ some .folder)
    (bytes : List UInt8) : SameFolders disk (disk.put place (.file bytes)) := by
  intro other
  by_cases h : other = place
  · subst h
    rw [at?_put_self disk hne]
    simp [hfolder]
  · rw [at?_put_of_ne disk h]

/-! ## Routes -/

/-- The names lead from a place through folders to another, where there need not be anything. -/
inductive Route (disk : Disk) : Location → List String → Location → Prop where
  | here {place : Location} : Route disk place [] place
  | along {place next target : Location} {name : String} {rest : List String}
      (h : disk.step place name = .ok next) (hrest : Route disk next rest target) :
      Route disk place (name :: rest) target

/-- A walk follows the names to something that is there. -/
theorem walk_eq_ok_iff :
    disk.walk place names = .ok target ↔
      disk.Route place names target ∧ ∃ e, disk.at? target = some e := by
  induction names generalizing place with
  | nil =>
    rw [walk]
    constructor
    · intro h
      split at h
      · rename_i e he
        cases h
        exact ⟨.here, e, he⟩
      · cases h
    · rintro ⟨⟨⟩, e, he⟩
      rw [he]
  | cons name rest ih =>
    rw [walk]
    constructor
    · intro h
      split at h
      · cases h
      · rename_i next hnext
        obtain ⟨hroute, hthere⟩ := ih.mp h
        exact ⟨.along hnext hroute, hthere⟩
    · rintro ⟨hroute, hthere⟩
      cases hroute with
      | along hnext hroute =>
        rw [hnext]
        exact ih.mpr ⟨hroute, hthere⟩

/-- Only a folder leads on. -/
theorem at?_of_step {name : String} (h : disk.step place name = .ok next) :
    disk.at? place = some .folder := by
  unfold step at h
  split at h
  · assumption
  · cases h
  · cases h

theorem SameFolders.step {name : String} (h : SameFolders disk disk')
    (hstep : disk.step place name = .ok next) : disk'.step place name = .ok next := by
  have hfolder := at?_of_step hstep
  unfold Disk.step at hstep ⊢
  rw [hfolder] at hstep
  rw [(h place).mp hfolder]
  exact hstep

/-- **The way is the same through the same folders.** -/
theorem Route.of_sameFolders (h : SameFolders disk disk') (hroute : disk.Route place names target) :
    disk'.Route place names target := by
  induction hroute with
  | here => exact .here
  | along hstep _ ih => exact .along (h.step hstep) ih

theorem Route.append (h : disk.Route place names next) (hrest : disk.Route next rest target) :
    disk.Route place (names ++ rest) target := by
  induction h with
  | here => exact hrest
  | along hstep _ ih => exact .along hstep (ih hrest)

/-! ## Paths -/

/-- The path leads to the place, where there need not be anything. -/
def Leads (disk : Disk) (path : String) (place : Location) : Prop :=
  disk.Route (disk.startOf path) (Disk.names path) place

theorem Leads.of_sameFolders (h : SameFolders disk disk')
    (hstart : disk'.startOf path = disk.startOf path) (hleads : disk.Leads path place) :
    disk'.Leads path place := by
  rw [Leads, hstart]
  exact Route.of_sameFolders h hleads

/-- What every path must be like, whatever it is for. -/
def Admissible (path : String) : Prop :=
  path ≠ "" ∧ hasNul path = false ∧ pathTooLong path = false

/-- **What a path leads to.**  A path that ends in a slash leads to nothing but a folder. -/
theorem resolve_eq_ok_iff {e : DiskEntry} :
    disk.resolve path = .ok e ↔
      Admissible path ∧ ∃ place, disk.Leads path place ∧ disk.at? place = some e ∧
        (endsInSlash path = true → e = .folder) := by
  unfold resolve Admissible
  by_cases hempty : path = ""
  · simp [hempty]
  by_cases hnul : hasNul path = true
  · simp [hempty, hnul]
  by_cases hlong : pathTooLong path = true
  · simp [hempty, hnul, hlong]
  rw [if_neg hempty, if_neg hnul, if_neg hlong]
  rw [Bool.not_eq_true] at hnul hlong
  constructor
  · intro h
    refine ⟨⟨hempty, hnul, hlong⟩, ?_⟩
    split at h
    · cases h
    rename_i place hwalk
    obtain ⟨hroute, -⟩ := walk_eq_ok_iff.mp hwalk
    refine ⟨place, hroute, ?_⟩
    split at h
    · cases h
    · rename_i hat
      cases h
      exact ⟨hat, fun _ => rfl⟩
    · rename_i bytes hat
      split at h
      · cases h
      · rename_i hslash
        cases h
        exact ⟨hat, fun hends => absurd hends hslash⟩
  · rintro ⟨-, place, hroute, hat, hslash⟩
    rw [walk_eq_ok_iff.mpr ⟨hroute, e, hat⟩]
    dsimp only
    rw [hat]
    cases e with
    | folder => rfl
    | file bytes =>
      have hnot : endsInSlash path = false := by
        cases hends : endsInSlash path with
        | false => rfl
        | true => cases hslash hends
      simp [hnot]

/-- Two answers that are the same whenever there is one. -/
theorem toOption_eq_of_iff {ε α : Type} {r r' : Except ε α} (h : ∀ a, r = .ok a ↔ r' = .ok a) :
    r.toOption = r'.toOption := by
  cases r with
  | ok a => rw [(h a).mp rfl]
  | error x =>
    cases r' with
    | ok a => cases (h a).mpr rfl
    | error y => rfl

/-- A path that does not lead to the one place where two disks differ leads to the same. -/
theorem resolve_congr (h : SameFolders disk disk') (hstart : disk'.startOf path = disk.startOf path)
    (hother : ∀ other, other ≠ place → disk'.at? other = disk.at? other)
    (hleads : ¬disk.Leads path place) :
    (disk'.resolve path).toOption = (disk.resolve path).toOption := by
  refine toOption_eq_of_iff fun e => ?_
  rw [resolve_eq_ok_iff, resolve_eq_ok_iff]
  refine and_congr_right fun _ => exists_congr fun target => ?_
  have hiff : disk'.Leads path target ↔ disk.Leads path target :=
    ⟨Leads.of_sameFolders h.symm hstart.symm, Leads.of_sameFolders h hstart⟩
  rw [hiff]
  refine and_congr_right fun htarget => ?_
  have hne : target ≠ place := by
    rintro rfl
    exact hleads htarget
  rw [hother target hne]

/-! ## Files -/

/-- The path leads to a file that holds the bytes. -/
structure Holds (disk : Disk) (path : String) (place : Location) (bytes : List UInt8) : Prop where
  admissible : Admissible path
  not_slash : endsInSlash path = false
  leads : disk.Leads path place
  at_place : disk.at? place = some (.file bytes)

theorem Holds.fileBytes {bytes : List UInt8} (h : disk.Holds path place bytes) :
    disk.fileBytes path = .ok bytes := by
  have hresolve : disk.resolve path = .ok (.file bytes) :=
    resolve_eq_ok_iff.mpr ⟨h.admissible, place, h.leads, h.at_place, by simp [h.not_slash]⟩
  rw [Disk.fileBytes, hresolve]

/-- The place that a path gives to a new file is that to which it leads, and no folder. -/
theorem targetOf_eq_ok (h : disk.targetOf path = .ok place) :
    Admissible path ∧ endsInSlash path = false ∧ disk.Leads path place ∧ place ≠ [] ∧
      disk.at? place ≠ some .folder := by
  unfold targetOf at h
  dsimp only at h
  split at h
  · cases h
  rename_i hempty
  split at h
  · cases h
  rename_i hnul
  split at h
  · cases h
  rename_i hlong
  split at h
  · cases h
  rename_i last hlast
  split at h
  · cases h
  rename_i folder hwalk
  split at h
  · cases h
  · cases h
  rename_i hfolder
  split at h
  · cases h
  rename_i hdots
  split at h
  · cases h
  rename_i hname
  split at h
  · cases h
  rename_i hslash
  rw [not_or] at hdots
  have hnames : (Disk.names path).dropLast ++ [last] = Disk.names path :=
    List.dropLast_append_getLast? last hlast
  have hstep : disk.step folder last = .ok (last :: folder) := by
    unfold Disk.step
    rw [hfolder]
    simp only [if_neg hdots.1, if_neg hdots.2, if_neg hname]
  have hleads : disk.Leads path (last :: folder) := by
    rw [Leads, ← hnames]
    exact (walk_eq_ok_iff.mp hwalk).1.append (.along hstep .here)
  have hadmissible : Admissible path := ⟨hempty, by simpa using hnul, by simpa using hlong⟩
  split at h
  · cases h
  · rename_i hat
    cases h
    exact ⟨hadmissible, by simpa using hslash, hleads, List.cons_ne_nil _ _, hat⟩

/-- **After a file is written** its path leads to it, and the folders are what they were. -/
theorem holds_put (h : disk.targetOf path = .ok place) (bytes : List UInt8) :
    SameFolders disk (disk.put place (.file bytes)) ∧
      (disk.put place (.file bytes)).Holds path place bytes := by
  obtain ⟨hadmissible, hslash, hleads, hne, hfolder⟩ := targetOf_eq_ok h
  have hfolders := sameFolders_put hne hfolder bytes
  exact ⟨hfolders, hadmissible, hslash, hleads.of_sameFolders hfolders rfl, at?_put_self disk hne _⟩

/-- What storing a value comes to if it succeeds. -/
theorem withObject_eq_ok {v : Value} (h : disk.withObject path v = .ok disk') :
    ∃ place, disk.targetOf path = .ok place ∧
      disk' = disk.put place (.file (StoredObject.encode v)) := by
  rw [withObject, Effect.mapError_eq_ok_iff, replaced, Effect.bind_eq_ok_iff] at h
  obtain ⟨folder, -, h⟩ := h
  obtain ⟨-, -, h⟩ := Effect.bind_eq_ok_iff.mp h
  obtain ⟨-, -, h⟩ := Effect.bind_eq_ok_iff.mp h
  obtain ⟨-, -, h⟩ := Effect.bind_eq_ok_iff.mp h
  obtain ⟨-, -, h⟩ := Effect.bind_eq_ok_iff.mp h
  obtain ⟨place, hplace, h⟩ := Effect.bind_eq_ok_iff.mp h
  cases h
  exact ⟨place, hplace, rfl⟩

end Disk
end RpnCalculator
