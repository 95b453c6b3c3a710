import RpnCalculator.Proofs.Disk.Route
import RpnCalculator.Proofs.Machine.Delivery
import RpnCalculator.Proofs.Machine.Memory
import RpnCalculator.Proofs.Object.RoundTrip

/-!
# What is written can be read later

`write` stores a value at a path, and `read` fetches it.  Between the two any number of words can
be carried out, by this machine or by others that use the same files.  This file shows that the
value comes back, unless one of these words writes to the place where it is
(`stored_until_written`).

Three things are put together.  Writing is all or nothing (`Disk.writeObject_eq_attempt`), and
what it puts in its place is the object, so its path leads to it (`Disk.holds_put`).  A word
changes files only by writing (`remembers_step`), and then it changes one place and no folder
(`kept_step`).  And an object that is read is the value that was stored
(`StoredObject.decode_encode`).

## Files and machines

Machines share files and nothing else.  `Later place disk disk'` says that the files of `disk'`
are those of `disk` after some words, of whatever machines, none of which writes to the place.
The folder that relative paths start from, and what the medium refuses, can be different each
time.  So a path that is read later has to start where it started when it was written.
-/

namespace RpnCalculator

namespace Disk

variable {disk disk' disk'' : Disk} {place : Location} {path : String}

/-! ## Keeping a place -/

/-- A change of the files that changes no folder, and not what is at the place. -/
structure Kept (place : Location) (disk disk' : Disk) : Prop where
  folders : SameFolders disk disk'
  at_place : disk'.at? place = disk.at? place

theorem kept_of_entries (h : disk'.entries = disk.entries) : Kept place disk disk' where
  folders other := by rw [at?_congr h]
  at_place := at?_congr h place

theorem Kept.trans (h : Kept place disk disk') (h' : Kept place disk' disk'') :
    Kept place disk disk'' where
  folders := h.folders.trans h'.folders
  at_place := h'.at_place.trans h.at_place

/-- What a path leads to is kept with the place. -/
theorem Kept.holds {bytes : List UInt8} (h : Kept place disk disk')
    (hstart : disk'.startOf path = disk.startOf path) (hholds : disk.Holds path place bytes) :
    disk'.Holds path place bytes where
  admissible := hholds.admissible
  not_slash := hholds.not_slash
  leads := hholds.leads.of_sameFolders h.folders hstart
  at_place := h.at_place.trans hholds.at_place

/-- Storing a value keeps every place but its own, and puts the object there. -/
theorem stored_of_withObject {v : Value} (h : disk.withObject path v = .ok disk') :
    ∃ place, disk.Leads path place ∧ disk'.Holds path place (StoredObject.encode v) ∧
      SameFolders disk disk' ∧ disk'.home = disk.home ∧
      ∀ other, other ≠ place → disk'.at? other = disk.at? other := by
  obtain ⟨place, htarget, rfl⟩ := withObject_eq_ok h
  obtain ⟨hfolders, hholds⟩ := holds_put htarget (StoredObject.encode v)
  exact ⟨place, (targetOf_eq_ok htarget).2.2.1, hholds, hfolders, rfl,
    fun other hother => at?_put_of_ne disk hother _⟩

theorem readObject_of_fileBytes {v : Value} (hwf : v.WellFormed) (hord : v.Ordered)
    (hlen : (StoredObject.payload v).length < 2 ^ 64)
    (h : disk.fileBytes path = .ok (StoredObject.encode v)) : disk.readObject path = .ok v := by
  rw [readObject, h]
  exact StoredObject.decode_encode hord hlen hwf

end Disk

namespace Machine

open Disk (Kept)

variable {m : Machine} {place : Location} {disk : Disk} {word path : String} {v : Value}
  {below : Stack}

/-! ## Words in between -/

/-- The word writes, and what is at the place after it is what it wrote. -/
def Writes (m : Machine) (word : String) (place : Location) : Prop :=
  word = "write" ∧ (perform word m).1 = .ok () ∧
    ∃ path rest, m.stack = .string path :: rest ∧ m.disk.Leads path place

/-- The files are those of a disk after words that do not write to the place. -/
inductive Later (place : Location) (disk : Disk) : Disk → Prop where
  | unchanged {disk' : Disk} (h : disk'.entries = disk.entries) : Later place disk disk'
  | word {m : Machine} {word : String} {disk' : Disk} (h : Later place disk m.disk)
      (hword : ¬m.Writes word place) (h' : disk'.entries = (m.step word).disk.entries) :
      Later place disk disk'

/-- A word that does not write to a place keeps it. -/
theorem kept_step (hword : ¬m.Writes word place) : Kept place m.disk (m.step word).disk := by
  rcases m.remembers_step word with ⟨-, name, v, rest, -, hstep⟩ | ⟨-, name, rest, -, hstep⟩ |
    ⟨rfl, path, v, rest, disk, hs, hdisk, hstep⟩ | ⟨-, hdisk⟩
  · rw [hstep]
    exact Disk.kept_of_entries rfl
  · rw [hstep]
    exact Disk.kept_of_entries rfl
  · obtain ⟨target, hleads, -, hfolders, -, hother⟩ := Disk.stored_of_withObject hdisk
    have houtcome : outcomeOf "write" m = .ok { m with stack := v :: rest, disk } :=
      outcomeOf_write_eq_ok_iff.mpr ⟨path, v, rest, disk, hs, hdisk, rfl⟩
    have hperform : (perform "write" m).1 = .ok () := by
      rw [perform_eq_attempt, Effect.attempt_of_ok houtcome]
    rw [hstep]
    refine ⟨hfolders, hother place ?_⟩
    rintro rfl
    exact hword ⟨rfl, hperform, path, _, hs, hleads⟩
  · exact Disk.kept_of_entries (by rw [hdisk])

/-- **So do any number of words.** -/
theorem Later.kept {disk' : Disk} (h : Later place disk disk') : Kept place disk disk' := by
  induction h with
  | unchanged h => exact Disk.kept_of_entries h
  | word _ hword h' ih => exact (ih.trans (kept_step hword)).trans (Disk.kept_of_entries h')

/-- A turn of a machine is a word, or changes no file. -/
theorem Later.advance (h : Later place disk m.disk)
    (hword : ∀ word rest, m.sources.next? = some (word, rest) →
      ¬Writes { m with sources := rest } word place) :
    Later place disk m.advance.machine.disk := by
  generalize hturn : m.advance = turn
  cases advance_eq_iff.mp hturn with
  | nothing | noWord | quit => exact h
  | @word word rest hm hnext hquit =>
    have hnow : Later place disk { m with sources := rest }.disk := h
    exact hnow.word (hword word rest hnext) rfl

/-- A run is as many turns. -/
theorem Later.after (h : Later place disk m.disk) {n : Nat}
    (hword : ∀ k < n, ∀ word rest, (m.after k).sources.next? = some (word, rest) →
      ¬Writes { m.after k with sources := rest } word place) :
    Later place disk (m.after n).disk := by
  induction n generalizing m with
  | zero => exact h
  | succ n ih =>
    have hturn := h.advance (hword 0 (Nat.succ_pos n))
    exact ih hturn fun k hk => hword (k + 1) (Nat.succ_lt_succ hk)

/-! ## Writing and reading -/

/-- `write` stores the value under its path, or fails and changes nothing. -/
theorem perform_write (hs : m.stack = .string path :: v :: below) :
    (∃ f, perform "write" m = (.error (.storage f), m)) ∨
      ∃ disk, m.disk.withObject path v = .ok disk ∧
        perform "write" m = (.ok (), { m with stack := v :: below, disk }) := by
  rw [perform_eq_attempt]
  cases hdisk : m.disk.withObject path v with
  | ok disk =>
    have houtcome : outcomeOf "write" m = .ok { m with stack := v :: below, disk } :=
      outcomeOf_write_eq_ok_iff.mpr ⟨path, v, below, disk, hs, hdisk, rfl⟩
    exact .inr ⟨disk, rfl, Effect.attempt_of_ok houtcome⟩
  | error f =>
    obtain ⟨hname, hlevel⟩ := name_and_level_iff.mpr ⟨below, hs⟩
    have houtcome : outcomeOf "write" m = .error (.storage f) := by
      show outcome .writeObject m = _
      rw [outcome, hname, Effect.ok_bind, hlevel, Effect.ok_bind, hdisk]
      rfl
    left
    exact ⟨f, by rw [Effect.attempt, houtcome]⟩

/-- `read` puts what it finds in the place of the path. -/
theorem perform_read (hs : m.stack = .string path :: below)
    (hread : m.disk.readObject path = .ok v) :
    perform "read" m = (.ok (), { m with stack := v :: below }) := by
  have houtcome : outcomeOf "read" m = .ok { m with stack := v :: below } := by
    have hname : m.name = .ok path := name_eq_ok_iff.mpr ⟨below, hs⟩
    have hstored : stored path m = .ok v := by rw [stored, hread]
    show outcome .readObject m = _
    rw [outcome, hname, Effect.ok_bind, hstored, Effect.ok_bind, hs]
    rfl
  rw [perform_eq_attempt, Effect.attempt_of_ok houtcome]

/-- **A value that is written comes back until its place is written again.**

Storing a value under a path either puts the object where the path leads, and then what any
other path leads to is what it was; or it fails with a fault of input and output, and then
the disk is the one that it was given.  This is so whatever is on the disk and whichever stages
of writing the medium refuses.  An object that is found under a path is read as the value.

So `write` keeps the value and takes the path off, or fails.  After it, `read` puts the value in
the place of the path, on any machine with files that are those left by words none of which
writes to the place, and these can be the words of runs. -/
theorem stored_until_written (path : String) (v : Value) (hwf : v.WellFormed) (hord : v.Ordered)
    (hlen : (StoredObject.payload v).length < 2 ^ 64) :
    (∀ disk : Disk,
      (∃ place disk', Disk.writeObject path v disk = (.ok (), disk') ∧ disk'.Leads path place ∧
        disk'.fileBytes path = .ok (StoredObject.encode v) ∧
        (∀ other, other ≠ place → disk'.at? other = disk.at? other) ∧
        ∀ path', ¬disk'.Leads path' place →
          (disk'.resolve path').toOption = (disk.resolve path').toOption) ∨
      ∃ f, Disk.writeObject path v disk = (.error f, disk) ∧
        (Fault.storage f).category = .ioFailure) ∧
    (∀ disk : Disk, disk.fileBytes path = .ok (StoredObject.encode v) →
      disk.readObject path = .ok v) ∧
    (∀ (m : Machine) (below : Stack), m.stack = .string path :: v :: below →
      (∃ f, perform "write" m = (.error f, m) ∧ f.category = .ioFailure) ∨
      ∃ place disk, disk.Leads path place ∧
        perform "write" m = (.ok (), { m with stack := v :: below, disk }) ∧
        ∀ (n : Machine) (below' : Stack), Later place disk n.disk →
          n.disk.startOf path = m.disk.startOf path → n.stack = .string path :: below' →
          perform "read" n = (.ok (), { n with stack := v :: below' })) ∧
    ∀ (place : Location) (disk : Disk) (m : Machine) (turns : Nat), Later place disk m.disk →
      (∀ k < turns, ∀ word rest, (m.after k).sources.next? = some (word, rest) →
        ¬Writes { m.after k with sources := rest } word place) →
      Later place disk (m.after turns).disk := by
  have hread (disk : Disk) (h : disk.fileBytes path = .ok (StoredObject.encode v)) :
      disk.readObject path = .ok v := Disk.readObject_of_fileBytes hwf hord hlen h
  refine ⟨fun disk => ?_, hread, fun m below hs => ?_, fun place disk m turns h hword =>
    h.after hword⟩
  · rw [Disk.writeObject_eq_attempt]
    cases hdisk : disk.withObject path v with
    | ok disk' =>
      obtain ⟨place, -, hholds, hfolders, hhome, hother⟩ := Disk.stored_of_withObject hdisk
      have hstart (path' : String) : disk'.startOf path' = disk.startOf path' := by
        rw [Disk.startOf, Disk.startOf, hhome]
      refine .inl ⟨place, disk', Effect.attempt_of_ok hdisk, hholds.leads, hholds.fileBytes, hother,
        fun path' hpath' => ?_⟩
      refine Disk.resolve_congr hfolders (hstart path') hother fun hleads => hpath' ?_
      exact hleads.of_sameFolders hfolders (hstart path')
    | error f => exact .inr ⟨f, by rw [Effect.attempt, hdisk], rfl⟩
  · rcases perform_write hs with ⟨f, hf⟩ | ⟨disk, hdisk, hperform⟩
    · exact .inl ⟨_, hf, rfl⟩
    · obtain ⟨place, -, hholds, -, hhome, -⟩ := Disk.stored_of_withObject hdisk
      refine .inr ⟨place, disk, hholds.leads, hperform, fun n below' hlater hstart hn => ?_⟩
      have hstart' : n.disk.startOf path = disk.startOf path := by
        rw [hstart, Disk.startOf, Disk.startOf, hhome]
      exact perform_read hn (hread _ (hlater.kept.holds hstart' hholds).fileBytes)

/-- A number is written, the value is dropped and the path is read by another machine; and a
medium that has no space for it stays as it is. -/
theorem stored_until_written_integer :
    (∃ disk, perform "write" { stack := [.string "a", .integer 5] } =
        (.ok (), { stack := [.integer 5], disk }) ∧
      ∀ n : Machine, n.disk = (step { stack := [.integer 5], disk } "drop").disk →
        n.stack = [.string "a"] → perform "read" n = (.ok (), { n with stack := [.integer 5] })) ∧
    ∃ f, Disk.writeObject "a" (.integer 5) (Disk.empty.refusing .noSpace) =
      (.error f, Disk.empty.refusing .noSpace) := by
  have hord : (Value.integer 5).Ordered := by simp [Value.Ordered]
  have hwf : (Value.integer 5).WellFormed := by simp [Value.WellFormed]
  obtain ⟨hwrite, -, hread, -⟩ := stored_until_written "a" (.integer 5) hwf hord (by decide +kernel)
  constructor
  · rcases hread { stack := [.string "a", .integer 5] } [] rfl with ⟨f, hf, -⟩ |
      ⟨place, disk, -, hperform, hlater⟩
    · cases congrArg Prod.fst hf
    · refine ⟨disk, hperform, fun n hdisk hn => hlater n [] ?_ ?_ hn⟩
      · have hdrop : ¬Writes { stack := [.integer 5], disk } "drop" place := fun h =>
          absurd h.1 (by decide)
        exact .word (.unchanged rfl) hdrop (by rw [hdisk])
      · have hhome : disk.home = Disk.empty.home :=
          congrArg (fun r => r.2.disk.home) hperform.symm
        rw [hdisk]
        exact hhome
  · rcases hwrite (Disk.empty.refusing .noSpace) with ⟨place, disk', hok, -⟩ | ⟨f, hf, -⟩
    · cases congrArg Prod.fst hok
    · exact ⟨f, hf⟩

end Machine
end RpnCalculator
