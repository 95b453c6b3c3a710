import RpnCalculator.Directory
import RpnCalculator.Effect
import RpnCalculator.Fault
import RpnCalculator.Object.Decoding

/-!
# Files

The files that scripts and stored objects are kept in, as a value: what is at each place,
and the folder that relative paths start from.

## Places and paths

A place (`Location`) is the list of names on the way from the root to it, the last name
first, so that its folder is its tail.  A path is text, and several paths lead to one
place.  `Disk.walk` follows a path name by name: every name but the last must be that of a
folder, `.` stays, `..` goes up, and a name that is not there ends the walk.

## Writing

An object is not written over the old one.  It goes to a new file in the folder of its
path, the draft, in four stages (`WriteStage`), and only the last of them puts it in the
place of what was there.  Each stage can fail, because the path is not that of a file that
could be written, or because the medium refuses (`Disk.refuses`).  By then the draft is on
the disk, so a stage that fails after it was made has to take it away again.

The name of a draft is longer than every name on the disk.  That is one way of finding a
name that is free; nothing else depends on it.
-/

namespace RpnCalculator

/-- The names on the way to a place, the last first. -/
abbrev Location := List String

/-- What is at a place. -/
inductive DiskEntry where
  | folder
  | file (bytes : List UInt8)
  deriving DecidableEq

/-- The stages of writing a file. -/
inductive WriteStage where
  | create
  | write
  | sync
  | rename
  deriving DecidableEq, Repr

/-- Files and folders. -/
structure Disk where
  /-- What is where; the root is a folder without being listed. -/
  entries : List (Location × DiskEntry) := []
  /-- The folder that relative paths start from. -/
  home : Location := ["home"]
  /-- The stages of writing that the medium refuses, and why. -/
  refuses : WriteStage → Option SystemFault := fun _ => none

namespace Disk

/-! ## Places -/

/-- The first entry of a place. -/
def findEntry (place : Location) : List (Location × DiskEntry) → Option DiskEntry
  | [] => none
  | (p, e) :: rest => if p = place then some e else findEntry place rest

/-- What is at a place. -/
def at? (disk : Disk) (place : Location) : Option DiskEntry :=
  if place = [] then some .folder else findEntry place disk.entries

/-- Take away what is at a place. -/
def remove (disk : Disk) (place : Location) : Disk :=
  { disk with entries := disk.entries.filter (·.1 ≠ place) }

/-- Put something at a place. -/
def put (disk : Disk) (place : Location) (e : DiskEntry) : Disk :=
  { disk with entries := (place, e) :: (disk.remove place).entries }

/-- Give something another place. -/
def move (disk : Disk) (source target : Location) : Disk :=
  match disk.at? source with
  | some e => (disk.remove source).put target e
  | none => disk

theorem at?_put_self (disk : Disk) {place : Location} (h : place ≠ []) (e : DiskEntry) :
    (disk.put place e).at? place = some e := by
  simp [at?, put, findEntry, h]

private theorem findEntry_filter_ne {place other : Location} (h : other ≠ place)
    (l : List (Location × DiskEntry)) :
    findEntry other (l.filter (·.1 ≠ place)) = findEntry other l := by
  induction l with
  | nil => rfl
  | cons x l ih =>
    obtain ⟨p, e⟩ := x
    by_cases hp : p = place
    · subst hp
      rw [List.filter_cons_of_neg (by simp), ih, findEntry, if_neg (Ne.symm h)]
    · rw [List.filter_cons_of_pos (by simp [hp]), findEntry, findEntry, ih]

/-- Every other place is as it was. -/
theorem at?_put_of_ne (disk : Disk) {place other : Location} (h : other ≠ place)
    (e : DiskEntry) : (disk.put place e).at? other = disk.at? other := by
  unfold at? put remove
  split
  · rfl
  · rw [findEntry, if_neg (Ne.symm h), findEntry_filter_ne h]

/-! ## Paths -/

/-- The names between the slashes of a path; empty ones do not count. -/
def splitPath : List Char → List (List Char)
  | [] => []
  | c :: cs =>
    if c = '/' then splitPath cs
    else
      match cs, splitPath cs with
      | [], _ => [[c]]
      | '/' :: _, names => [c] :: names
      | _, name :: names => (c :: name) :: names
      | _, [] => [[c]]

/-- The names of a path. -/
def names (path : String) : List String := (splitPath path.toList).map String.ofList

/-- Whether a path starts at the root. -/
def isAbsolute (path : String) : Bool := path.toList.head? == some '/'

/-- Whether a path ends in a slash, so that only a folder can be meant. -/
def endsInSlash (path : String) : Bool := path.toList.getLast? == some '/'

/-- The place where a path starts. -/
def startOf (disk : Disk) (path : String) : Location :=
  if isAbsolute path then [] else disk.home

/-- Whether a name is longer than a file system takes. -/
def tooLong (name : String) : Bool := decide (255 < (Utf8.encode name).length)

/-- Whether a path is longer than a file system takes, whatever it leads to. -/
def pathTooLong (path : String) : Bool := decide (4096 ≤ (Utf8.encode path).length)

/-- Whether a path holds the one character that no path can hold. -/
def hasNul (path : String) : Bool := path.toList.any fun c => c.toNat == 0

/-- The place of a name in a folder; the name need not be there. -/
def step (disk : Disk) (folder : Location) (name : String) : Except SystemFault Location :=
  match disk.at? folder with
  | some .folder =>
    if name = "." then .ok folder
    else if name = ".." then .ok folder.tail
    else if tooLong name then .error .nameTooLong
    else .ok (name :: folder)
  | some (.file _) => .error .notADirectory
  | none => .error .noSuchFile

/-- Follow names from a place to something that is there. -/
def walk (disk : Disk) : Location → List String → Except SystemFault Location
  | place, [] =>
    match disk.at? place with
    | some _ => .ok place
    | none => .error .noSuchFile
  | place, name :: rest =>
    match disk.step place name with
    | .error f => .error f
    | .ok next => disk.walk next rest

/-- What a path leads to. -/
def resolve (disk : Disk) (path : String) : Except SystemFault DiskEntry :=
  if path = "" then .error .noSuchFile
  else if hasNul path then .error .nulInName
  else if pathTooLong path then .error .nameTooLong
  else
    match disk.walk (disk.startOf path) (names path) with
    | .error f => .error f
    | .ok place =>
      match disk.at? place with
      | none => .error .noSuchFile
      | some .folder => .ok .folder
      | some (.file bytes) =>
        if endsInSlash path then .error .notADirectory else .ok (.file bytes)

/-! ## Reading -/

/-- The bytes of a script.  A folder can be opened and has nothing to read. -/
def openScript (disk : Disk) (path : String) : Except SystemFault (List UInt8) :=
  match disk.resolve path with
  | .error f => .error f
  | .ok .folder => .ok []
  | .ok (.file bytes) => .ok bytes

/-- The bytes of a file. -/
def fileBytes (disk : Disk) (path : String) : Except SystemFault (List UInt8) :=
  match disk.resolve path with
  | .error f => .error f
  | .ok .folder => .error .isADirectory
  | .ok (.file bytes) => .ok bytes

/-! ## Writing -/

/-- Fail if the medium refuses a stage. -/
def stage (disk : Disk) (s : WriteStage) : Except SystemFault Unit :=
  match disk.refuses s with
  | some f => .error f
  | none => .ok ()

/-- The folder in which the draft for a path is made: that of the path, where a `.` does
not count as a name.  A path without a name has its draft made at home. -/
def folderOf (disk : Disk) (path : String) : Except SystemFault Location :=
  let names := (names path).filter (· ≠ ".")
  let folder := names.dropLast
  let start := if names = [] then disk.home else disk.startOf path
  if folder.any hasNul then .error .nulInName
  else
    match disk.walk start folder with
    | .error f => .error f
    | .ok place =>
      match disk.at? place with
      | some .folder => .ok place
      | some (.file _) => .error .notADirectory
      | none => .error .noSuchFile

/-- The place that a path gives to a new file.  The path must end in the name of something
that is no folder; `.` and `..` are busy, and so is the root. -/
def targetOf (disk : Disk) (path : String) : Except SystemFault Location :=
  let all := names path
  if path = "" then .error .noSuchFile
  else if hasNul path then .error .nulInName
  else if pathTooLong path then .error .nameTooLong
  else
    match all.getLast? with
    | none => .error .busy
    | some last =>
      match disk.walk (disk.startOf path) all.dropLast with
      | .error f => .error f
      | .ok folder =>
        match disk.at? folder with
        | none => .error .noSuchFile
        | some (.file _) => .error .notADirectory
        | some .folder =>
          if last = "." ∨ last = ".." then .error .busy
          else if tooLong last then .error .nameTooLong
          else if endsInSlash path then .error .notADirectory
          else
            match disk.at? (last :: folder) with
            | some .folder => .error .isADirectory
            | _ => .ok (last :: folder)

/-- A name that nothing on the disk has. -/
def draftName (disk : Disk) : String :=
  let longest := (disk.entries.map fun e => (e.1.headD "").length).foldr (· + ·) 0
  String.ofList (List.replicate (longest + 1) '~')

/-- Make the draft for a path, with nothing in it. -/
def createDraft (path : String) : Effect Disk SystemFault Location := do
  let folder ← .look (folderOf · path)
  .look (stage · .create)
  let draft ← .look fun disk => .ok (disk.draftName :: folder)
  .change (·.put draft (.file []))
  pure draft

/-- Fill a draft, and put it in the place that a path leads to.  The draft is not in the
way of its own path. -/
def finishDraft (path : String) (bytes : List UInt8) (draft : Location) :
    Effect Disk SystemFault Unit := do
  .look (stage · .write)
  .change (·.put draft (.file bytes))
  .look (stage · .sync)
  .look (stage · .rename)
  let place ← .look fun disk => (disk.remove draft).targetOf path
  .change (·.move draft place)

/-- Put bytes in the place that a path leads to. -/
def replaceFile (path : String) (bytes : List UInt8) : Effect Disk SystemFault Unit := do
  let draft ← createDraft path
  (finishDraft path bytes draft).cleaning (·.remove draft)

/-! ## Objects -/

/-- Store a value. -/
def writeObject (path : String) (v : Value) : Effect Disk StorageFault Unit :=
  (replaceFile path (StoredObject.encode v)).within id (fun disk _ => disk) (.cannotWrite path)

/-- Fetch a value. -/
def readObject (disk : Disk) (path : String) : Except StorageFault Value :=
  match disk.fileBytes path with
  | .ok bytes => StoredObject.decode bytes
  | .error f => .error (.cannotRead path f)

/-! ## Setting up -/

/-- Put something at the place that names lead to from home, with the folders on the way. -/
def install (disk : Disk) (path : String) (e : DiskEntry) : Disk :=
  go disk disk.home (names path)
where
  /-- Follow the names from a place. -/
  go (disk : Disk) (place : Location) : List String → Disk
    | [] => disk
    | [name] => disk.put (name :: place) e
    | name :: rest => go (disk.put (name :: place) .folder) (name :: place) rest

/-- A disk with an empty home. -/
def empty : Disk := ({} : Disk).put ["home"] .folder

/-- The names in the home folder, in order. -/
def list (disk : Disk) : List String :=
  let found := disk.entries.filterMap fun
    | (name :: place, _) => if place = disk.home then some name else none
    | ([], _) => none
  (Directory.ofList (found.map fun name => (name, ()))).map Prod.fst

/-! ## Keeping a disk and another in step -/

/-- A disk with nothing on it but a home, so deep that the path does not climb out of it. -/
def roomFor (path : String) : Disk :=
  let depth := (names path).length + 1
  { home := List.replicate depth "home"
    entries := (List.range depth).map fun n => (List.replicate (n + 1) "home", .folder) }

/-- Put in place what was found on the way along names from a place. -/
def mount (disk : Disk) (place : Location) : List (String × DiskEntry) → Disk
  | [] => disk
  | (name, e) :: rest =>
    match disk.step place name with
    | .ok next =>
      let disk := if name = "." ∨ name = ".." then disk else disk.put next e
      disk.mount next rest
    | .error _ => disk

/-- The bytes that a path leads to after a change and did not lead to before. -/
def written? (before after : Disk) (path : String) : Option (List UInt8) :=
  match after.fileBytes path, before.fileBytes path with
  | .ok new, .ok old => if new = old then none else some new
  | .ok new, .error _ => some new
  | .error _, _ => none

/-- The disk, refusing every write. -/
def refusing (disk : Disk) (f : SystemFault) : Disk := { disk with refuses := fun _ => some f }

end Disk

end RpnCalculator
