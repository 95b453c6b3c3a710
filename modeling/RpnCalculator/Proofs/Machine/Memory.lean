import RpnCalculator.Proofs.Machine.Inlining

/-!
# Variables and files

What a machine keeps apart from its stack are its variables and the files on its disk.  Of all
words only three change them, and each of the three changes one entry: `sto` and `purge` a
variable, `write` a file.

`remembers_step` says all that a word can do to the two.  What is shown of variables or of
files over a run is shown by these four cases, and none of it has to go through the words again.
-/

namespace RpnCalculator

/-- The actions that change a variable or a file. -/
def Action.remembers : Action → Bool
  | .store | .purge | .writeObject => true
  | _ => false

/-- The words that do. -/
def rememberingWords : List String := ["sto", "purge", "write"]

namespace Machine

variable {m m' : Machine}

/-! ## Words that change neither -/

/-- A word has left variables and files as they were. -/
def SameMemory (m m' : Machine) : Prop := m'.bindings = m.bindings ∧ m'.disk = m.disk

theorem sameMemory_withStack (m : Machine) (s : Stack) : SameMemory m (m.withStack s) := ⟨rfl, rfl⟩

theorem sameMemory_outcome {a : Action} (ha : a.remembers = false) (m : Machine) :
    Ends (SameMemory m) (fun _ => True) (outcome a m) := by
  have hrearranged (r : Except Fault Stack) :
      Ends (SameMemory m) (fun _ => True) (r.map m.withStack) :=
    Ends.map_any fun s => m.sameMemory_withStack s
  cases a with
  | store | purge | writeObject => cases ha
  | setBase | setAngle | setComplex | clear | banner | quitReminder => exact ⟨rfl, rfl⟩
  | setFloat float =>
    refine (Ends.any m.count).bind fun decimals _ => ?_
    rw [Ends.ite_iff]
    exact ⟨fun _ => trivial, fun _ => ⟨rfl, rfl⟩⟩
  | setWordSize =>
    refine (Ends.any m.count).bind fun wordSize _ => ?_
    rw [Ends.ite_iff]
    exact ⟨fun _ => ⟨rfl, rfl⟩, fun _ => trivial⟩
  | drop | swap | rotate => exact hrearranged _
  | rollUp | rollDown => exact (Ends.any (m.levels 1)).bind fun _ _ => hrearranged _
  | dropCount | duplicateCount => exact (Ends.any (m.levels 0)).bind fun _ _ => ⟨rfl, rfl⟩
  | duplicate => exact (Ends.any (m.stack.level 0)).bind fun _ _ => ⟨rfl, rfl⟩
  | includeSource => exact (Ends.any m.included).bind fun _ _ => ⟨rfl, rfl⟩
  | readObject =>
    exact (Ends.any m.name).bind fun path _ => (Ends.any (stored path m)).bind fun _ _ => ⟨rfl, rfl⟩
  | shiftLeft | shiftRight => exact (Ends.any (shifted _ m)).bind fun _ _ => ⟨rfl, rfl⟩

theorem sameMemory_performOther (m : Machine) (word : String) :
    SameMemory m (m.performOther word) := by
  rw [performOther_eq]
  cases m.pushed? word <;> exact ⟨rfl, rfl⟩

/-- The action of any other word changes neither. -/
theorem remembers_of_ofWord? {word : String} {a : Action} (hword : word ∉ rememberingWords)
    (h : Builtin.ofWord? word = some (.action a)) : a.remembers = false := by
  have hall : ∀ e ∈ Builtin.actionWords, e.2.remembers = true → e.1 ∈ rememberingWords := by
    decide
  cases ha : a.remembers with
  | false => rfl
  | true => exact absurd (hall _ (Builtin.mem_actionWords_of_ofWord? h) ha) hword

theorem sameMemory_outcomeOf {word : String} (hword : word ∉ rememberingWords) (m : Machine) :
    Ends (SameMemory m) (fun _ => True) (outcomeOf word m) := by
  unfold outcomeOf
  rw [Ends.ite_iff]
  refine ⟨fun _ => sameMemory_outcome rfl m, fun _ => ?_⟩
  split
  · rename_i b hb
    cases b with
    | binary op => exact (Ends.any (binaryResult op m)).bind fun _ _ => ⟨rfl, rfl⟩
    | unary w => exact (Ends.any (unaryResult w m)).bind fun _ _ => ⟨rfl, rfl⟩
    | action a => exact sameMemory_outcome (remembers_of_ofWord? hword hb) m
  · exact m.sameMemory_performOther word

/-! ## The three words that change one of them -/

theorem name_eq_ok_iff {name : String} :
    m.name = .ok name ↔ ∃ rest, m.stack = .string name :: rest := by
  unfold Machine.name Stack.level
  cases m.stack with
  | nil => simp
  | cons top rest =>
    cases top <;> simp

/-- A name on top of a value. -/
theorem name_and_level_iff {name : String} {v : Value} :
    (m.name = .ok name ∧ m.stack.level 1 = .ok v) ↔
      ∃ rest, m.stack = .string name :: v :: rest := by
  rw [name_eq_ok_iff, Stack.level_eq_ok_iff]
  constructor
  · rintro ⟨⟨rest, hs⟩, hv⟩
    rw [hs, List.getElem?_cons_succ, ← List.head?_eq_getElem?, List.head?_eq_some_iff] at hv
    obtain ⟨below, rfl⟩ := hv
    exact ⟨below, hs⟩
  · rintro ⟨rest, hs⟩
    exact ⟨⟨_, hs⟩, by rw [hs]; rfl⟩

/-- `sto` takes a name and a value off and binds the name. -/
theorem outcomeOf_sto_eq_ok_iff : outcomeOf "sto" m = .ok m' ↔
    ∃ name v rest, m.stack = .string name :: v :: rest ∧
      m' = { m with stack := rest, bindings := Directory.insert name v m.bindings } := by
  show outcome .store m = .ok m' ↔ _
  simp only [outcome, Effect.bind_eq_ok_iff]
  constructor
  · rintro ⟨name, hname, v, hv, hm'⟩
    obtain ⟨rest, hs⟩ := name_and_level_iff.mp ⟨hname, hv⟩
    rw [hs, Except.ok.injEq] at hm'
    exact ⟨name, v, rest, hs, hm'.symm⟩
  · rintro ⟨name, v, rest, hs, rfl⟩
    obtain ⟨hname, hv⟩ := name_and_level_iff.mpr ⟨rest, hs⟩
    exact ⟨name, hname, v, hv, by rw [hs]; rfl⟩

/-- `purge` takes a name off and unbinds it. -/
theorem outcomeOf_purge_eq_ok_iff : outcomeOf "purge" m = .ok m' ↔
    ∃ name rest, m.stack = .string name :: rest ∧
      m' = { m with stack := rest, bindings := Directory.erase name m.bindings } := by
  show outcome .purge m = .ok m' ↔ _
  simp only [outcome, Effect.bind_eq_ok_iff, name_eq_ok_iff]
  constructor
  · rintro ⟨name, ⟨rest, hs⟩, hm'⟩
    rw [hs, Except.ok.injEq] at hm'
    exact ⟨name, rest, hs, hm'.symm⟩
  · rintro ⟨name, rest, hs, rfl⟩
    exact ⟨name, ⟨rest, hs⟩, by rw [hs]; rfl⟩

/-- `write` takes a path off and stores the value below it, which stays. -/
theorem outcomeOf_write_eq_ok_iff : outcomeOf "write" m = .ok m' ↔
    ∃ path v rest disk, m.stack = .string path :: v :: rest ∧
      m.disk.withObject path v = .ok disk ∧ m' = { m with stack := v :: rest, disk } := by
  show outcome .writeObject m = .ok m' ↔ _
  simp only [outcome, Effect.bind_eq_ok_iff, Effect.mapError_eq_ok_iff]
  constructor
  · rintro ⟨path, hpath, v, hv, disk, hdisk, hm'⟩
    obtain ⟨rest, hs⟩ := name_and_level_iff.mp ⟨hpath, hv⟩
    rw [hs, Except.ok.injEq] at hm'
    exact ⟨path, v, rest, disk, hs, hdisk, hm'.symm⟩
  · rintro ⟨path, v, rest, disk, hs, hdisk, rfl⟩
    obtain ⟨hpath, hv⟩ := name_and_level_iff.mpr ⟨rest, hs⟩
    exact ⟨path, hpath, v, hv, disk, hdisk, by rw [hs]; rfl⟩

/-- A word whose outcome is a machine leads there. -/
theorem step_of_outcomeOf {word : String} (h : outcomeOf word m = .ok m') : m.step word = m' := by
  rw [step_eq, h]

/-- **What a word does to variables and files.** -/
theorem remembers_step (m : Machine) (word : String) :
    (word = "sto" ∧ ∃ name v rest, m.stack = .string name :: v :: rest ∧ m.step word =
      { m with stack := rest, bindings := Directory.insert name v m.bindings }) ∨
    (word = "purge" ∧ ∃ name rest, m.stack = .string name :: rest ∧ m.step word =
      { m with stack := rest, bindings := Directory.erase name m.bindings }) ∨
    (word = "write" ∧ ∃ path v rest disk, m.stack = .string path :: v :: rest ∧
      m.disk.withObject path v = .ok disk ∧
      m.step word = { m with stack := v :: rest, disk }) ∨
    SameMemory m (m.step word) := by
  cases hout : outcomeOf word m with
  | error f =>
    right; right; right
    rw [step_eq, hout]
    exact ⟨rfl, rfl⟩
  | ok m' =>
    rw [step_of_outcomeOf hout]
    by_cases hword : word ∈ rememberingWords
    · simp only [rememberingWords, List.mem_cons, List.not_mem_nil, or_false] at hword
      rcases hword with rfl | rfl | rfl
      · exact .inl ⟨rfl, outcomeOf_sto_eq_ok_iff.mp hout⟩
      · exact .inr (.inl ⟨rfl, outcomeOf_purge_eq_ok_iff.mp hout⟩)
      · exact .inr (.inr (.inl ⟨rfl, outcomeOf_write_eq_ok_iff.mp hout⟩))
    · exact .inr (.inr (.inr ((sameMemory_outcomeOf hword m).of_ok hout)))

end Machine
end RpnCalculator
