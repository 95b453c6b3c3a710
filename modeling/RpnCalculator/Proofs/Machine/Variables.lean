import RpnCalculator.Proofs.Machine.Delivery
import RpnCalculator.Proofs.Machine.Memory
import RpnCalculator.Proofs.Text.Words

/-!
# Variables

A name that `sto` has bound to a value can be used as a word, and the word pushes the value.
This file shows for how long that is so: until the name is bound again or unbound, whatever is
read and carried out in the meantime (`variables_remembered`).

The variables of a machine change in two ways only (`remembers_step`), and each of these changes
one name.  So a name is bound as before after a word that does not store or purge under it
(`find?_step`), and by induction after any number of turns, lines and scripts
(`Onward.bindings`).

What the word then does is not settled by the variable alone.  A word is looked for among the
builtins before anything else, and `quit` is not carried out at all.  Whether a name is read as a
literal depends on the settings: `#ff` is one in base sixteen and none in base ten.  So a name
that is bound can be hidden by a literal for as long as a setting lasts, and be seen again.  The
builtins hide a variable of their name for good, and nothing of what they do depends on the
variables (`step_rebound`).
-/

namespace RpnCalculator

namespace Machine

variable {m m' : Machine} {name word : String} {v : Value} {below : Stack}

/-! ## What a word does to a name -/

/-- The word binds the name. -/
def Stores (m : Machine) (name word : String) : Prop :=
  word = "sto" ∧ ∃ v rest, m.stack = .string name :: v :: rest

/-- The word unbinds the name. -/
def Purges (m : Machine) (name word : String) : Prop :=
  word = "purge" ∧ ∃ rest, m.stack = .string name :: rest

/-- `sto` always succeeds on a name above a value. -/
theorem step_sto (hs : m.stack = .string name :: v :: below) :
    m.step "sto" =
      { m with stack := below, bindings := Directory.insert name v m.bindings } :=
  step_of_outcomeOf (outcomeOf_sto_eq_ok_iff.mpr ⟨name, v, below, hs, rfl⟩)

/-- And so does `purge` on a name, be it bound or not. -/
theorem step_purge (hs : m.stack = .string name :: below) :
    m.step "purge" = { m with stack := below, bindings := Directory.erase name m.bindings } :=
  step_of_outcomeOf (outcomeOf_purge_eq_ok_iff.mpr ⟨name, below, hs, rfl⟩)

/-- **Only two words change variables.** -/
theorem bindings_step (hsto : word ≠ "sto") (hpurge : word ≠ "purge") :
    (m.step word).bindings = m.bindings := by
  rcases m.remembers_step word with ⟨h, -⟩ | ⟨h, -⟩ | ⟨-, path, v, rest, disk, -, -, hstep⟩ |
    ⟨hbindings, -⟩
  · exact absurd h hsto
  · exact absurd h hpurge
  · rw [hstep]
  · exact hbindings

/-- After a word that does not bind it, a name is bound as before, or the word unbinds it. -/
theorem find?_step_or (hsto : ¬m.Stores name word) :
    Directory.find? name (m.step word).bindings = Directory.find? name m.bindings ∨
      m.Purges name word ∧ Directory.find? name (m.step word).bindings = none := by
  rcases m.remembers_step word with ⟨rfl, other, v, rest, hs, hstep⟩ |
    ⟨rfl, other, rest, hs, hstep⟩ | ⟨-, path, v, rest, disk, -, -, hstep⟩ | ⟨hbindings, -⟩
  · have hne : name ≠ other := by
      rintro rfl
      exact hsto ⟨rfl, v, rest, hs⟩
    rw [hstep]
    exact .inl (Directory.find?_insert_of_ne hne v m.bindings)
  · rw [hstep]
    by_cases hname : name = other
    · subst hname
      exact .inr ⟨⟨rfl, rest, hs⟩, Directory.find?_erase_self name m.bindings⟩
    · exact .inl (Directory.find?_erase_of_ne hname m.bindings)
  · rw [hstep]
    exact .inl rfl
  · rw [hbindings]
    exact .inl rfl

/-- **A word changes the variable of its name alone.** -/
theorem find?_step (hsto : ¬m.Stores name word) (hpurge : ¬m.Purges name word) :
    Directory.find? name (m.step word).bindings = Directory.find? name m.bindings :=
  (find?_step_or hsto).resolve_right fun h => hpurge h.1

/-- A name that is not bound stays so until it is bound. -/
theorem find?_step_eq_none (hsto : ¬m.Stores name word)
    (hnone : Directory.find? name m.bindings = none) :
    Directory.find? name (m.step word).bindings = none := by
  rcases find?_step_or hsto with h | ⟨-, h⟩
  · rw [h, hnone]
  · exact h

/-! ## Runs -/

/-- What a machine can become by words that are allowed: lines and scripts are queued, words are
taken, messages are shown, and files can be changed by others. -/
inductive Onward (allowed : Machine → String → Prop) (m : Machine) : Machine → Prop where
  | here : Onward allowed m m
  | submit {m' : Machine} (line : String) (h : Onward allowed m m') :
      Onward allowed m (m'.submit line)
  | includeFile {m' m'' : Machine} {path : String} (h : Onward allowed m m')
      (hok : m'.includeFile path = .ok m'') : Onward allowed m m''
  | advance {m' : Machine} (h : Onward allowed m m')
      (hword : ∀ word rest, m'.sources.next? = some (word, rest) →
        allowed { m' with sources := rest } word) : Onward allowed m m'.advance.machine
  | takeMessages {m' : Machine} (h : Onward allowed m m') : Onward allowed m m'.takeMessages.2
  | disk {m' : Machine} (disk : Disk) (h : Onward allowed m m') :
      Onward allowed m { m' with disk }

/-- **What the allowed words keep of the variables** is kept throughout. -/
theorem Onward.bindings {allowed : Machine → String → Prop} {I : Directory Value → Prop}
    (hI : ∀ m word, allowed m word → I m.bindings → I (m.step word).bindings)
    (h : Onward allowed m m') (hm : I m.bindings) : I m'.bindings := by
  induction h with
  | here => exact hm
  | submit line _ ih => exact ih
  | @includeFile m' m'' path _ hok ih =>
    unfold Machine.includeFile at hok
    split at hok
    · cases hok
      exact ih
    · cases hok
  | @advance m' _ hword ih =>
    generalize hturn : m'.advance = turn
    cases advance_eq_iff.mp hturn with
    | nothing | noWord | quit => exact ih
    | @word word rest _ hnext _ =>
      exact hI { m' with sources := rest } word (hword word rest hnext) ih
  | takeMessages _ ih => exact ih
  | disk disk _ ih => exact ih

/-! ## Recalling -/

variable (m) in
/-- A name that is no builtin pushes the literal that it is, or else what it is bound to. -/
theorem step_name (hne : name ≠ "") (hword : name ∉ Builtin.words) :
    (∀ w, Literal.parse m.display name = .ok w → m.step name = m.push w) ∧
      ∀ f, Literal.parse m.display name = .error f →
        m.step name = (Directory.find? name m.bindings).elim m m.push := by
  rw [step_other m hne hword, performOther_eq, pushed?]
  constructor
  · intro w hw
    rw [hw]
    rfl
  · intro f hf
    rw [hf]

/-! ## Builtins and variables -/

/-- The machine with other variables. -/
def rebound (m : Machine) (bindings : Directory Value) : Machine := { m with bindings }

/-- Two computations that begin alike and go on alike as far as a function can tell. -/
theorem map_bind_congr {α β γ : Type} {r : Except Fault α} {f g : α → Except Fault β} {t : β → γ}
    (h : ∀ a, (f a).map t = (g a).map t) : (r >>= f).map t = (r >>= g).map t := by
  cases r with
  | ok a => exact h a
  | error e => rfl

/-- What an action does apart from variables does not depend on them. -/
theorem outcome_rebound (a : Action) (m : Machine) (bindings : Directory Value) :
    (outcome a (m.rebound bindings)).map (·.rebound []) = (outcome a m).map (·.rebound []) := by
  have hstack (r : Except Fault Stack) :
      (r.map (m.rebound bindings).withStack).map (·.rebound []) =
        (r.map m.withStack).map (·.rebound []) := by
    cases r <;> rfl
  cases a with
  | setBase | setAngle | setComplex | clear | banner | quitReminder => rfl
  | setFloat float =>
    refine map_bind_congr fun decimals => ?_
    split <;> rfl
  | setWordSize =>
    refine map_bind_congr fun wordSize => ?_
    split <;> rfl
  | drop | swap | rotate => exact hstack _
  | rollUp | rollDown => exact map_bind_congr fun n => hstack _
  | dropCount | duplicate | duplicateCount | purge | includeSource | shiftLeft | shiftRight =>
    exact map_bind_congr fun _ => rfl
  | store | readObject => exact map_bind_congr fun _ => map_bind_congr fun _ => rfl
  | writeObject =>
    exact map_bind_congr fun _ => map_bind_congr fun _ => map_bind_congr fun _ => rfl

/-- **What a builtin word does apart from variables does not depend on them.** -/
theorem step_rebound (hword : word ∈ Builtin.words) (m : Machine) (bindings : Directory Value) :
    ((m.rebound bindings).step word).rebound [] = (m.step word).rebound [] := by
  have houtcome : (outcomeOf word (m.rebound bindings)).map (·.rebound []) =
      (outcomeOf word m).map (·.rebound []) := by
    unfold outcomeOf
    split
    · exact outcome_rebound .duplicate m bindings
    cases hb : Builtin.ofWord? word with
    | none => exact absurd hword (Builtin.ofWord?_eq_none_iff.mp hb)
    | some b =>
      cases b with
      | binary op => exact map_bind_congr fun _ => rfl
      | unary w => exact map_bind_congr fun _ => rfl
      | action a => exact outcome_rebound a m bindings
  exact step_eq_of_outcomeOf houtcome fun _ => rfl

/-! ## Variables throughout -/

/-- **Variables are a map that words look into and only two words change.**

Let a name be one word without quotes that is neither `quit` nor a builtin.  A line that is the
name delivers it as a word, and a turn that takes the word carries it out.  Once `sto` has bound
the name to a value, and as long as no word binds it again or unbinds it, the word pushes the
value if the name is no literal under the settings in force at that moment; if it is one, the
word pushes the literal.  Once `purge` has unbound the name, and as long as no word binds it, the
word does nothing unless the name is a literal.

No word but `sto` and `purge` changes the variables, and the two change what their name is bound
to and nothing else.  The name of a builtin can be bound as well, but to carry out a builtin
comes to the same whatever the variables are. -/
theorem variables_remembered {name : String} (hname : Token.Bare name.toList)
    (hword : name ∉ quitWord :: Builtin.words) :
    ((Source.ofText name).pending = [name] ∧
      ∀ (m : Machine) (sources : Sources), m.stopped = false →
        sources.next? = some (name, m.sources) →
        Machine.advance { m with sources } = .running (m.step name)) ∧
    (∀ (m : Machine) (v : Value) (below : Stack), m.stack = .string name :: v :: below →
      ∀ m', Onward (fun m word => ¬m.Stores name word ∧ ¬m.Purges name word) (m.step "sto") m' →
        (∀ f, Literal.parse m'.display name = .error f → m'.step name = m'.push v) ∧
        ∀ w, Literal.parse m'.display name = .ok w → m'.step name = m'.push w) ∧
    (∀ (m : Machine) (below : Stack), m.stack = .string name :: below →
      ∀ m', Onward (fun m word => ¬m.Stores name word) (m.step "purge") m' →
        ∀ f, Literal.parse m'.display name = .error f → m'.step name = m') ∧
    (∀ (m : Machine) (word : String), word ≠ "sto" → word ≠ "purge" →
      (m.step word).bindings = m.bindings) ∧
    (∀ (m : Machine) (other word : String), ¬m.Stores other word → ¬m.Purges other word →
      Directory.find? other (m.step word).bindings = Directory.find? other m.bindings) ∧
    ∀ builtin ∈ Builtin.words,
      (∀ (m : Machine) (v : Value) (below : Stack), m.stack = .string builtin :: v :: below →
        Directory.find? builtin (m.step "sto").bindings = some v) ∧
      ∀ (m : Machine) (bindings : Directory Value),
        { step { m with bindings } builtin with bindings := [] } =
          { m.step builtin with bindings := [] } := by
  rw [List.mem_cons, not_or] at hword
  have hne : name ≠ "" := by
    rintro rfl
    exact hname.ne_nil rfl
  refine ⟨⟨?_, ?_⟩, ?_, ?_, ?_, ?_, ?_⟩
  · exact Source.pending_ofText_of_words hname.newline_notMem hname.words_eq
  · intro m sources hm hnext
    exact advance_eq_iff.mpr (.word hm hnext hword.1)
  · intro m v below hs m' honward
    have hbound : Directory.find? name m'.bindings = some v := by
      refine honward.bindings (I := (Directory.find? name · = some v)) (fun n word hn hv => ?_) ?_
      · rw [find?_step hn.1 hn.2, hv]
      · rw [step_sto hs]
        exact Directory.find?_insert_self name v m.bindings
    obtain ⟨hliteral, hother⟩ := m'.step_name hne hword.2
    refine ⟨fun f hf => ?_, hliteral⟩
    rw [hother f hf, hbound]
    rfl
  · intro m below hs m' honward f hf
    have hnone : Directory.find? name m'.bindings = none := by
      refine honward.bindings (I := (Directory.find? name · = none))
        (fun n word hn => find?_step_eq_none hn) ?_
      rw [step_purge hs]
      exact Directory.find?_erase_self name m.bindings
    rw [(m'.step_name hne hword.2).2 f hf, hnone]
    rfl
  · exact fun m word => bindings_step
  · exact fun m other word => find?_step
  · intro builtin hbuiltin
    refine ⟨fun m v below hs => ?_, fun m bindings => step_rebound hbuiltin m bindings⟩
    rw [step_sto hs]
    exact Directory.find?_insert_self builtin v m.bindings

/-- A name that is a literal in base sixteen is hidden by it, and seen after a change of base; and
unbound, it does nothing. -/
theorem variables_remembered_hidden :
    let m : Machine := step { stack := [.string "#ff", .integer 7] } "sto"
    let n : Machine := (m.submit "dec").advance.machine
    m.step "#ff" = m.push (.binary 255) ∧ n.step "#ff" = n.push (.integer 7) ∧
      (step { n with stack := [.string "#ff"] } "purge").step "#ff" =
        step { n with stack := [.string "#ff"] } "purge" := by
  intro m n
  have hbare : Token.Bare "#ff".toList := ⟨by simp, by simp [Text.isBlank], by simp⟩
  obtain ⟨-, hsto, hpurge, -⟩ := variables_remembered hbare (by decide)
  have hrecall := hsto { stack := [.string "#ff", .integer 7] } (.integer 7) [] rfl
  have honward : Onward (fun m word => ¬m.Stores "#ff" word ∧ ¬m.Purges "#ff" word) m n := by
    refine (Onward.here.submit "dec").advance fun word rest hnext => ?_
    cases hnext
    exact ⟨fun h => absurd h.1 (by decide), fun h => absurd h.1 (by decide)⟩
  have hliteral : Literal.parse {} "#ff" = .ok (.binary 255) := rfl
  have hnone : Literal.parse { base := .decimal } "#ff" = .error (.unrecognized "#ff") := rfl
  refine ⟨(hrecall m .here).2 _ hliteral, (hrecall n honward).1 _ hnone, ?_⟩
  exact hpurge { n with stack := [.string "#ff"] } [] rfl _ .here _ hnone

end Machine
end RpnCalculator
