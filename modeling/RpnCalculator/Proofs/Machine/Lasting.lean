import RpnCalculator.Proofs.Machine.Outcome
import RpnCalculator.Proofs.Object.RoundTrip
import RpnCalculator.Proofs.Value.Operation

/-!
# What lasts in a machine

The values that a machine holds come from four places: literals, the results of operations,
other values that the machine holds, and files.  A property that holds of what comes from
each of them is `Lasting`, and then it holds of everything on the stack and in the variables,
whatever words are performed (`Holds`, `ends_outcomeOf`).

Being well-formed is lasting, and the only place where that has to be checked while the
calculator runs is the file.  So is having the names of directories in order.  The property
that always holds is lasting as well; what it says is about the faults of words
(`lasting_true`).

What rearranges a stack or takes an argument off it is treated first, by a lemma for each
function that the outcome of an action is made of.  With these an action is a chain of
`Ends.bind`, in the order in which it looks at things.
-/

namespace RpnCalculator

open Fault (NotLiteral)

/-! ## Literals and files -/

namespace Literal

variable {P : Value → Prop} (hP : Hereditary P) {d : Display}

include hP

/-- A literal that is not a string has every hereditary property. -/
theorem ends_readChars? {cs : List Char} {r : Except Fault Value}
    (h : readChars? d cs = some r) : Ends P (fun _ => True) r := by
  unfold readChars? at h
  split at h
  · cases h
    exact hP.integer _
  split at h
  · obtain ⟨y, -, rfl⟩ := Option.map_eq_some_iff.mp h
    exact hP.float y
  split at h
  · cases h
    rw [Value.ofRatio, Ends.ite_iff]
    exact ⟨fun _ => trivial, fun _ => prop_ofRat hP _⟩
  split at h
  · split at h
    · cases h
      exact hP.complex _
    · cases h
  split at h
  · obtain ⟨n, -, rfl⟩ := Option.map_eq_some_iff.mp h
    exact hP.binary _
  · cases h

/-- So has every literal. -/
theorem prop_parse {word : String} {v : Value} (h : parse d word = .ok v) : P v := by
  have hends : Ends P (fun _ => True) (parse d word) := by
    unfold parse
    split
    · exact hP.string _
    · cases hr : readChars? d word.toList with
      | none => trivial
      | some r =>
        show Ends P (fun _ => True) r
        exact ends_readChars? hP hr
  exact hends.of_ok h

end Literal

/-- A property that lasts: operations hand it on, and what is fetched from a file has it. -/
structure Lasting (P : Value → Prop) : Prop extends Hereditary P where
  fetched : ∀ {bytes v}, StoredObject.decode bytes = .ok v → P v

/-- The property that always holds is about faults alone. -/
theorem lasting_true : Lasting fun _ => True where
  toHereditary := hereditary_true
  fetched _ := trivial

/-- What was fetched has been looked at. -/
theorem lasting_wellFormed : Lasting Value.WellFormed where
  toHereditary := hereditary_wellFormed
  fetched h := by
    obtain ⟨-, -, -, -, hwf⟩ := StoredObject.decode_eq_ok_iff.mp h
    exact hwf

/-- The names of the directories in a file are put in order when it is fetched. -/
theorem lasting_ordered : Lasting Value.Ordered where
  toHereditary := hereditary_ordered
  fetched h := StoredObject.ordered_of_decode h

/-! ## Stacks

A stack is rearranged, and nothing new comes to lie on it. -/

namespace Stack

variable {P : Value → Prop} {s : Stack}

/-- A value that is found at a level lies on the stack. -/
theorem ends_level (h : ∀ v ∈ s, P v) (n : Nat) : Ends P NotLiteral (s.level n) := by
  unfold level
  cases hv : s[n]? with
  | some v =>
    have hmem : v ∈ s := List.mem_of_getElem? hv
    exact h v hmem
  | none => simp

theorem ends_discard (h : ∀ v ∈ s, P v) :
    Ends (fun t => ∀ v ∈ t, P v) NotLiteral s.discard := by
  cases s with
  | nil => simp [discard]
  | cons v s =>
    rw [List.forall_mem_cons] at h
    exact h.2

theorem ends_swap (h : ∀ v ∈ s, P v) : Ends (fun t => ∀ v ∈ t, P v) NotLiteral s.swap := by
  rcases s with _ | ⟨v, _ | ⟨w, s⟩⟩
  · simp [swap]
  · simp [swap]
  · show ∀ u ∈ w :: v :: s, P u
    simp only [List.forall_mem_cons] at h ⊢
    exact ⟨h.2.1, h.1, h.2.2⟩

/-- The levels above the one that is moved up, and those below it, stay in their order. -/
theorem ends_rollUp (h : ∀ v ∈ s, P v) (n : Nat) :
    Ends (fun t => ∀ v ∈ t, P v) NotLiteral (s.rollUp n) := by
  have habove : ∀ w ∈ s.take (max n 1 - 1), P w := fun w hw => h w (List.mem_of_mem_take hw)
  have hbelow : ∀ w ∈ s.drop (max n 1 - 1), P w := fun w hw => h w (List.mem_of_mem_drop hw)
  unfold rollUp
  cases hdrop : s.drop (max n 1 - 1) with
  | nil => simp [hdrop]
  | cons v rest =>
    rw [hdrop, List.forall_mem_cons] at hbelow
    simp only [hdrop, Ends.ok_iff, List.forall_mem_cons, List.forall_mem_append]
    exact ⟨hbelow.1, habove, hbelow.2⟩

theorem ends_rollDown (h : ∀ v ∈ s, P v) (n : Nat) :
    Ends (fun t => ∀ v ∈ t, P v) NotLiteral (s.rollDown n) := by
  unfold rollDown
  cases s with
  | nil => simp
  | cons v rest =>
    rw [List.forall_mem_cons] at h
    have habove : ∀ w ∈ rest.take (max n 1 - 1), P w :=
      fun w hw => h.2 w (List.mem_of_mem_take hw)
    have hbelow : ∀ w ∈ rest.drop (max n 1 - 1), P w :=
      fun w hw => h.2 w (List.mem_of_mem_drop hw)
    rw [Ends.ite_iff]
    refine ⟨fun _ => ?_, fun _ => by simp⟩
    rw [Ends.ok_iff, List.forall_mem_append, List.forall_mem_cons]
    exact ⟨habove, h.1, hbelow⟩

/-- Only the value that is put down is new. -/
theorem prop_put (h : ∀ v ∈ s, P v) {w : Value} (hw : P w) : ∀ v ∈ s.put w, P v := by
  cases s with
  | nil => simpa [put] using hw
  | cons v s =>
    rw [List.forall_mem_cons] at h
    rw [put, List.forall_mem_cons]
    exact ⟨hw, h.2⟩

end Stack

/-! ## What a machine holds -/

namespace Machine

/-- All values that a machine holds have a property. -/
structure Holds (P : Value → Prop) (m : Machine) : Prop where
  stack : ∀ v ∈ m.stack, P v
  bindings : ∀ e ∈ m.bindings, P e.2

variable {P : Value → Prop} {m : Machine}

theorem holds_true (m : Machine) : m.Holds fun _ => True := by
  constructor <;> simp

namespace Holds

theorem withStack (h : m.Holds P) {s : Stack} (hs : ∀ v ∈ s, P v) : (m.withStack s).Holds P :=
  ⟨hs, h.bindings⟩

theorem push (h : m.Holds P) {v : Value} (hv : P v) : (m.push v).Holds P :=
  h.withStack (List.forall_mem_cons.mpr ⟨hv, h.stack⟩)

/-- It does not matter how a stack was rearranged. -/
theorem rearranged (h : m.Holds P) {r : Except Fault Stack}
    (hr : Ends (fun s => ∀ v ∈ s, P v) NotLiteral r) :
    Ends (Holds P) NotLiteral (r.map m.withStack) := by
  rw [Ends.map_iff]
  exact hr.imp fun s hs => h.withStack hs

theorem tail (h : m.Holds P) : ∀ v ∈ m.stack.tail, P v :=
  fun v hv => h.stack v (List.mem_of_mem_tail hv)

/-- What a name stands for is held. -/
theorem find (h : m.Holds P) {name : String} {v : Value}
    (hv : Directory.find? name m.bindings = some v) : P v := by
  obtain ⟨e, he, rfl⟩ := Directory.exists_mem_of_find? hv
  exact h.bindings e he

end Holds

/-! ## Arguments

None of the faults of an argument is that of a literal. -/

theorem ends_top (m : Machine) : Ends (fun _ => True) NotLiteral (m.stack.level 0) :=
  Stack.ends_level (fun _ _ => trivial) 0

theorem ends_count (m : Machine) : Ends (fun _ => True) NotLiteral m.count := by
  have htop := m.ends_top
  unfold count
  cases hlevel : m.stack.level 0 with
  | error f => exact htop.of_error hlevel
  | ok top =>
    dsimp only
    split
    · simp
    · simp

theorem ends_levels (m : Machine) (least : Nat) :
    Ends (fun _ => True) NotLiteral (m.levels least) := by
  have hcount := m.ends_count
  unfold levels
  cases hn : m.count with
  | error f => exact hcount.of_error hn
  | ok n => simp

theorem ends_name (m : Machine) : Ends (fun _ => True) NotLiteral m.name := by
  have htop := m.ends_top
  unfold name
  cases hlevel : m.stack.level 0 with
  | error f => exact htop.of_error hlevel
  | ok top => cases top <;> simp

theorem ends_included (m : Machine) : Ends (fun _ => True) NotLiteral m.included := by
  have htop := m.ends_top
  unfold included
  cases hlevel : m.stack.level 0 with
  | error f => exact htop.of_error hlevel
  | ok top =>
    cases top with
    | string path => cases hopen : m.disk.openScript path <;> simp [hopen]
    | _ => simp

/-- A value that lasts is fetched from a file, or there is a fault of the file. -/
theorem ends_stored (hP : Lasting P) (m : Machine) (path : String) :
    Ends P NotLiteral (stored path m) := by
  unfold stored
  cases hread : m.disk.readObject path with
  | error f => simp
  | ok v =>
    unfold Disk.readObject at hread
    split at hread
    · exact hP.fetched hread
    · cases hread

theorem ends_shifted (hP : Hereditary P) (h : m.Holds P) (op : UnaryOperator) :
    Ends P NotLiteral (shifted op m) := by
  have htop : Ends P NotLiteral (m.stack.level 0) := Stack.ends_level h.stack 0
  unfold shifted
  cases hlevel : m.stack.level 0 with
  | error f => exact htop.of_error hlevel
  | ok top =>
    have hv : P top := htop.of_ok hlevel
    rw [Ends.ite_iff]
    exact ⟨fun _ => UnaryOperator.ends_apply hP top op hv, fun _ => by simp⟩

theorem ends_binaryResult (hP : Hereditary P) (h : m.Holds P) (op : BinaryOperator) :
    Ends P NotLiteral (binaryResult op m) := by
  have hs := h.stack
  unfold binaryResult
  rcases hstack : m.stack with _ | ⟨r, _ | ⟨l, rest⟩⟩
  · simp
  · simp
  · rw [hstack, List.forall_mem_cons, List.forall_mem_cons] at hs
    exact BinaryOperator.ends_apply hP l op r hs.2.1 hs.1

theorem ends_unaryResult (hP : Hereditary P) (h : m.Holds P) (w : UnaryWord) :
    Ends P NotLiteral (unaryResult w m) := by
  have hs := h.stack
  unfold unaryResult
  cases hstack : m.stack with
  | nil => simp
  | cons v rest =>
    rw [hstack, List.forall_mem_cons] at hs
    cases w with
    | apply op => exact UnaryOperator.ends_apply hP v op hs.1
    | convert target => exact ends_convert hP hs.1 target

/-! ## Words -/

/-- **An action keeps a property that lasts**, and does not fail as a literal would. -/
theorem ends_outcome (hP : Lasting P) (h : m.Holds P) (a : Action) :
    Ends (Holds P) NotLiteral (outcome a m) := by
  cases a with
  | setBase | setAngle | setComplex | banner | quitReminder => exact ⟨h.stack, h.bindings⟩
  | clear => exact h.withStack (by simp)
  | setFloat float =>
    refine m.ends_count.bind fun decimals _ => ?_
    rw [Ends.ite_iff]
    exact ⟨fun _ => by simp, fun _ => ⟨h.tail, h.bindings⟩⟩
  | setWordSize =>
    refine m.ends_count.bind fun wordSize _ => ?_
    rw [Ends.ite_iff]
    exact ⟨fun _ => ⟨h.tail, h.bindings⟩, fun _ => by simp⟩
  | drop => exact h.rearranged (Stack.ends_discard h.stack)
  | swap => exact h.rearranged (Stack.ends_swap h.stack)
  | rotate => exact h.rearranged (Stack.ends_rollUp h.stack 3)
  | dropCount =>
    refine (m.ends_levels 0).bind fun n _ => h.withStack ?_
    intro v hv
    exact h.stack v (List.mem_of_mem_drop hv)
  | duplicate => exact (Stack.ends_level h.stack 0).bind fun v hv => h.push hv
  | duplicateCount =>
    refine (m.ends_levels 0).bind fun n _ => ?_
    have hcopies : ∀ v ∈ m.stack.tail.take n, P v := fun v hv => h.tail v (List.mem_of_mem_take hv)
    exact h.withStack (List.forall_mem_append.mpr ⟨hcopies, h.tail⟩)
  | rollUp =>
    refine (m.ends_levels 1).bind fun n _ => ?_
    exact h.rearranged (Stack.ends_rollUp h.tail n)
  | rollDown =>
    refine (m.ends_levels 1).bind fun n _ => ?_
    exact h.rearranged (Stack.ends_rollDown h.tail n)
  | includeSource => exact m.ends_included.bind fun source _ => ⟨h.tail, h.bindings⟩
  | store =>
    refine m.ends_name.bind fun name _ => ?_
    refine (Stack.ends_level h.stack 1).bind fun v hv => ⟨?_, ?_⟩
    · intro w hw
      exact h.stack w (List.mem_of_mem_drop hw)
    · intro e he
      rcases Directory.mem_insert he with rfl | he
      · exact hv
      · exact h.bindings e he
  | purge =>
    refine m.ends_name.bind fun name _ => ⟨h.tail, ?_⟩
    intro e he
    exact h.bindings e (Directory.mem_of_mem_erase he)
  | writeObject =>
    refine m.ends_name.bind fun path _ => ?_
    refine (Stack.ends_level h.stack 1).bind fun v _ => ?_
    cases m.disk.withObject path v with
    | ok disk => exact ⟨h.tail, h.bindings⟩
    | error f => exact Fault.notLiteral_iff.mpr fun word => nofun
  | readObject =>
    refine m.ends_name.bind fun path _ => ?_
    exact (ends_stored hP m path).bind fun v hv => h.withStack (Stack.prop_put h.stack hv)
  | shiftLeft =>
    refine (ends_shifted hP.toHereditary h .shiftLeft).bind fun v hv => ?_
    exact h.withStack (Stack.prop_put h.stack hv)
  | shiftRight =>
    refine (ends_shifted hP.toHereditary h .shiftRight).bind fun v hv => ?_
    exact h.withStack (Stack.prop_put h.stack hv)

/-- So does a builtin. -/
theorem ends_builtinOutcome (hP : Lasting P) (h : m.Holds P) (b : Builtin) :
    Ends (Holds P) NotLiteral (builtinOutcome b m) := by
  cases b with
  | binary op =>
    refine (ends_binaryResult hP.toHereditary h op).bind fun v hv => ?_
    exact h.withStack (Stack.prop_put h.tail hv)
  | unary w =>
    refine (ends_unaryResult hP.toHereditary h w).bind fun v hv => ?_
    exact h.withStack (Stack.prop_put h.stack hv)
  | action a => exact ends_outcome hP h a

/-- A word that is no builtin pushes a literal, a variable, or nothing. -/
theorem Holds.performOther (hP : Hereditary P) (h : m.Holds P) (word : String) :
    (m.performOther word).Holds P := by
  unfold Machine.performOther
  split
  · rename_i v hv
    exact h.push (Literal.prop_parse hP hv)
  · split
    · rename_i v hv
      exact h.push (h.find hv)
    · exact h

/-- **A word keeps a property that lasts**, and does not fail as a literal would. -/
theorem ends_outcomeOf (hP : Lasting P) (h : m.Holds P) (word : String) :
    Ends (Holds P) NotLiteral (outcomeOf word m) := by
  unfold outcomeOf
  rw [Ends.ite_iff]
  refine ⟨fun _ => ends_outcome hP h .duplicate, fun _ => ?_⟩
  split
  · exact ends_builtinOutcome hP h _
  · exact h.performOther hP.toHereditary word

end Machine

end RpnCalculator
