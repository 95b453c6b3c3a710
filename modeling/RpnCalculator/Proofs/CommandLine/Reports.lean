import RpnCalculator.CommandLine
import RpnCalculator.Proofs.Literal.Printing
import RpnCalculator.Proofs.Machine.Lines

/-!
# Two ways to give words to the calculator

Words come in through a pipe or are given as an argument.  What comes in is evaluated line by line,
and after each line its messages are shown and taken away; an argument is evaluated as a whole and
reported on once.

That lines come to what the whole text comes to was shown for a calculator that keeps its messages.
Taking them away makes no difference to the words, because no word looks at the messages
(`Evaluates.logged`).  So there is one account of both, the calculators after each line with the
messages of that line (`Replayed`): the pipe shows the messages and the stack of each of them, and
the argument shows the messages of all of them and the stack of the last (`pipe_agrees`).

The lines that come in are those of the text if the line editor hands them out as they are; it does
if they hold no backspace.
-/

namespace RpnCalculator

namespace Machine

variable {m m' : Machine} {status : Status}

/-! ## Messages before -/

/-- The machine with other messages before its own. -/
def logged (before : List Message) (m : Machine) : Machine :=
  { m with messages := before ++ m.messages }

theorem logged_logged (before first : List Message) (m : Machine) :
    (m.logged before).logged first = m.logged (first ++ before) := by
  simp only [logged, List.append_assoc]

/-- Messages that are taken away and put back. -/
theorem takeMessages_logged (m : Machine) :
    m.takeMessages.2.idle.logged m.messages = m.idle := by
  simp only [takeMessages, idle, logged, List.append_nil]

theorem outcomeOf_logged (word : String) (before : List Message) (m : Machine) :
    outcomeOf word (m.logged before) = (outcomeOf word m).map (logged before) := by
  have haround (m : Machine) : m.logged before = m.around before [] := by
    simp only [logged, around, List.append_nil]
  rw [haround, outcomeOf_around]
  exact congrArg (fun f => (outcomeOf word m).map f) (funext fun m => (haround m).symm)

/-- **A word does the same whatever messages there are**, and puts its own behind them. -/
theorem performed_logged (word : String) (before : List Message) (m : Machine) :
    (m.logged before).performed word =
      ((m.performed word).1.logged before, (m.performed word).2) := by
  have hsplice : (m.logged before).splice? word = m.splice? word := rfl
  unfold performed
  rw [hsplice]
  cases m.splice? word with
  | some words => rfl
  | none =>
    dsimp only
    rw [step_eq, step_eq, outcomeOf_logged]
    cases outcomeOf word m with
    | ok m' => rfl
    | error f => simp [Except.map, report, logged]

namespace Evaluates

variable {words : List String}

theorem logged (h : Evaluates m words status m') (before : List Message) :
    Evaluates (m.logged before) words status (m'.logged before) := by
  induction h with
  | nil m => exact .nil _
  | quit m words => exact .quit _ words
  | word hquit _ ih =>
    refine .word hquit ?_
    rw [performed_logged]
    exact ih

/-- What words come to with messages before, they come to without. -/
theorem of_logged {before : List Message} (h : Evaluates (m.logged before) words status m') :
    ∃ m₁, m' = m₁.logged before ∧ Evaluates m words status m₁ := by
  generalize hstart : m.logged before = start at h
  induction h generalizing m with
  | nil => exact ⟨m, hstart.symm, .nil m⟩
  | quit _ words => exact ⟨{ m with stopped := true }, by rw [← hstart]; rfl, .quit m words⟩
  | word hquit _ ih =>
    subst hstart
    rw [performed_logged] at ih
    obtain ⟨m₁, hend, hwords⟩ := ih rfl
    exact ⟨m₁, hend, .word hquit hwords⟩

end Evaluates

/-! ## Line by line -/

/-- `Replayed m lines earlier last`: the lines are evaluated one after the other, up to the one in
which `quit` is read, and the messages are taken away after each.  The machines after the lines,
`earlier` and at the end `last`, have the messages of their line. -/
inductive Replayed : Machine → List String → List Machine → Machine → Prop where
  | stop {m last : Machine} {line : String} {lines : List String} {bound : Nat}
    (h : m.evaluate bound line = some (.stopped, last)) : Replayed m (line :: lines) [] last
  | last {m last : Machine} {line : String} {bound : Nat}
    (h : m.evaluate bound line = some (.exhausted, last)) : Replayed m [line] [] last
  | line {m m₁ last : Machine} {line : String} {lines : List String} {earlier : List Machine}
    {bound : Nat} (h : m.evaluate bound line = some (.exhausted, m₁))
    (hrest : Replayed m₁.takeMessages.2 lines earlier last) :
    Replayed m (line :: lines) (m₁ :: earlier) last

/-- **Lines that are replayed come to what their words come to**, with all their messages. -/
theorem Replayed.evaluates {lines : List String} {earlier : List Machine} {last : Machine}
    (h : Replayed m lines earlier last) (hm : m.stopped = false)
    (hpending : m.sources.pending = []) :
    ∃ status, Evaluates m.idle (Source.pendingAll lines) status
      (last.idle.logged (earlier.flatMap messages)) := by
  induction h with
  | stop h =>
    have hwords := (evaluates_of_evaluate hm hpending h).1
    exact ⟨_, hwords.append_of_stopped _⟩
  | last h =>
    have hwords := (evaluates_of_evaluate hm hpending h).1
    rw [Source.pendingAll_singleton]
    exact ⟨_, hwords⟩
  | @line m m₁ last line lines earlier bound h _ ih =>
    obtain ⟨hwords, hsources, hm₁⟩ := evaluates_of_evaluate hm hpending h
    have hpending₁ : m₁.takeMessages.2.sources.pending = [] := congrArg Sources.pending hsources
    obtain ⟨status, hrest⟩ := ih hm₁ hpending₁
    have hlogged := hrest.logged m₁.messages
    rw [takeMessages_logged, logged_logged] at hlogged
    exact ⟨status, hwords.append hlogged⟩

/-- Lines whose words come to an end can be replayed. -/
theorem exists_replayed {lines : List String} (hne : lines ≠ []) (hm : m.stopped = false)
    (hpending : m.sources.pending = []) (h : Evaluates m.idle (Source.pendingAll lines) status m') :
    ∃ earlier last, Replayed m lines earlier last := by
  induction lines generalizing m m' with
  | nil => exact absurd rfl hne
  | cons line lines ih =>
    rw [Source.pendingAll_cons] at h
    rcases Evaluates.append_iff.mp h with ⟨m₁, hwords, hrest⟩ | ⟨-, hwords⟩
    · obtain ⟨bound, m₂, heval, rfl⟩ := hwords.exists_evaluate hm hpending
      cases lines with
      | nil => exact ⟨[], m₂, .last heval⟩
      | cons next lines =>
        obtain ⟨-, hsources, hm₂⟩ := evaluates_of_evaluate hm hpending heval
        have hpending₂ : m₂.takeMessages.2.sources.pending = [] :=
          congrArg Sources.pending hsources
        -- the words after the line are read without its messages
        rw [← takeMessages_logged] at hrest
        obtain ⟨m₃, -, hwords'⟩ := hrest.of_logged
        obtain ⟨earlier, last, hreplayed⟩ :=
          ih (List.cons_ne_nil next lines) (m := m₂.takeMessages.2) hm₂ hpending₂ hwords'
        exact ⟨m₂ :: earlier, last, .line heval hreplayed⟩
    · obtain ⟨bound, m₂, heval, -⟩ := hwords.exists_evaluate hm hpending
      exact ⟨[], m₂, .stop heval⟩

end Machine

/-! ## Reports -/

namespace Session

/-- The lines of the messages of a machine. -/
def diagnostics (m : Machine) : List String := m.messages.map Message.line

/-- The lines of the stack of a machine: the top line if it is empty or if no levels are asked
for, and otherwise so many levels, as far as there are, the first one last. -/
def stackPart (levels : Nat) (m : Machine) : List String :=
  if levels = 0 ∨ m.stack = [] then [m.topText?.getD emptyStack]
  else (List.range (min levels m.stack.length)).reverse.filterMap fun n =>
    m.stack[n]?.map (levelLine m.display n)

theorem mapIdx_take {α β : Type} (f : Nat → α → β) (k : Nat) (l : List α) :
    (l.take k).mapIdx f = (List.range (min k l.length)).filterMap fun n => l[n]?.map (f n) := by
  induction l generalizing f k with
  | nil => simp
  | cons a l ih =>
    cases k with
    | zero => simp
    | succ k =>
      rw [List.take_succ_cons, List.mapIdx_cons, ih, List.length_cons, Nat.succ_min_succ,
        List.range_succ_eq_map, List.filterMap_cons, List.filterMap_map]
      rfl

theorem stackLines_eq (s : Session) : s.stackLines = stackPart s.levels s.machine := by
  unfold stackLines stackPart
  split
  · rfl
  · rw [stackView, mapIdx_take, List.filterMap_reverse]

/-- What is shown of a machine: its messages and its stack. -/
def shown (levels : Nat) (m : Machine) : List String := diagnostics m ++ stackPart levels m

/-- A report takes the messages away. -/
theorem report_eq (s : Session) :
    s.report = (shown s.levels s.machine, { s with machine := s.machine.takeMessages.2 }) := by
  rw [shown, ← stackLines_eq]
  rfl

end Session

namespace CommandLine

open Machine Session

variable {s s' : Session}

/-! ## What comes in -/

/-- A line that comes in is evaluated and shown; the lines after it follow unless it quits. -/
theorem replay_cons (bound : Nat) (s : Session) (line : String) (lines : List (Option String)) :
    replay bound s (some line :: lines) =
      match s.machine.evaluate bound line with
      | none => none
      | some (.stopped, m) =>
        some (0, shown s.levels m, { s with machine := m.takeMessages.2 })
      | some (.exhausted, m) =>
        (replay bound { s with machine := m.takeMessages.2 } lines).map fun r =>
          (r.1, shown s.levels m ++ r.2.1, r.2.2) := by
  rw [replay, executeLine]
  cases s.machine.evaluate bound line with
  | none => rfl
  | some first =>
    obtain ⟨status, m⟩ := first
    cases status with
    | stopped =>
      rw [Option.map_some]
      exact congrArg (fun r => some (0, r)) (report_eq { s with machine := m })
    | exhausted =>
      simp only [Option.map_some, report_eq]

theorem replay_mono {bound larger : Nat} (h : bound ≤ larger) {lines : List (Option String)}
    {r : Nat × List String × Session} (hr : replay bound s lines = some r) :
    replay larger s lines = some r := by
  induction lines generalizing s r with
  | nil => exact hr
  | cons line lines ih =>
    cases line with
    | none => exact hr
    | some line =>
      rw [replay_cons] at hr ⊢
      cases heval : s.machine.evaluate bound line with
      | none =>
        rw [heval] at hr
        cases hr
      | some first =>
        obtain ⟨status, m⟩ := first
        have heval' : s.machine.evaluate larger line = some (status, m) := run_mono h heval
        rw [heval] at hr
        rw [heval']
        cases status with
        | stopped => exact hr
        | exhausted =>
          obtain ⟨last, hlast, heq⟩ := Option.map_eq_some_iff.mp hr
          exact Option.map_eq_some_iff.mpr ⟨last, ih hlast, heq⟩

/-- **Lines that come in are replayed**, and shown one after the other. -/
theorem replayed_of_replay {bound code : Nat} {lines out : List String} (hne : lines ≠ [])
    (h : replay bound s (lines.map some) = some (code, out, s')) :
    ∃ earlier last, Replayed s.machine lines earlier last ∧ code = 0 ∧
      out = (earlier ++ [last]).flatMap (shown s.levels) ∧ s'.machine.disk = last.disk := by
  induction lines generalizing s code out with
  | nil => exact absurd rfl hne
  | cons line lines ih =>
    have hsingle (m : Machine) : [m].flatMap (shown s.levels) = shown s.levels m :=
      List.flatMap_singleton ..
    rw [List.map_cons, replay_cons] at h
    cases heval : s.machine.evaluate bound line with
    | none =>
      rw [heval] at h
      cases h
    | some first =>
      obtain ⟨status, m⟩ := first
      rw [heval] at h
      cases status with
      | stopped =>
        cases h
        exact ⟨[], m, .stop heval, rfl, (hsingle m).symm, rfl⟩
      | exhausted =>
        obtain ⟨⟨code₁, out₁, s₁⟩, hrest, heq⟩ := Option.map_eq_some_iff.mp h
        cases heq
        cases lines with
        | nil =>
          cases hrest
          refine ⟨[], m, .last heval, rfl, ?_, rfl⟩
          rw [List.append_nil]
          exact (hsingle m).symm
        | cons next lines =>
          obtain ⟨earlier, last, hreplayed, hcode, hout, hdisk⟩ :=
            ih (List.cons_ne_nil next lines) hrest
          refine ⟨m :: earlier, last, .line heval hreplayed, hcode, ?_, hdisk⟩
          rw [List.cons_append, List.flatMap_cons, hout]

/-- Lines that can be replayed can come in. -/
theorem exists_replay {m last : Machine} {lines : List String} {earlier : List Machine}
    (h : Replayed m lines earlier last) (levels : Nat) :
    ∃ bound r, replay bound ⟨m, levels⟩ (lines.map some) = some r := by
  induction h with
  | @stop m last line lines bound h =>
    refine ⟨bound, (0, shown levels last, ⟨last.takeMessages.2, levels⟩), ?_⟩
    rw [List.map_cons, replay_cons, h]
  | @last m last line bound h =>
    refine ⟨bound, (0, shown levels last ++ [], ⟨last.takeMessages.2, levels⟩), ?_⟩
    rw [List.map_singleton, replay_cons, h]
    rfl
  | @line m m₁ last line lines earlier bound h _ ih =>
    obtain ⟨bound', r, hr⟩ := ih
    have h' : m.evaluate (max bound bound') line = some (.exhausted, m₁) :=
      run_mono (Nat.le_max_left bound bound') h
    have hr' := replay_mono (Nat.le_max_right bound bound') hr
    refine ⟨max bound bound', (r.1, shown levels m₁ ++ r.2.1, r.2.2), ?_⟩
    rw [List.map_cons, replay_cons, h']
    exact Option.map_eq_some_iff.mpr ⟨r, hr', rfl⟩

/-! ## Arguments -/

/-- The text of a number begins with a digit. -/
theorem head?_writeDecimal_ne (n : Nat) {c : Char} (hc : Text.isDigit c = false) :
    (Text.writeDecimal n).head? ≠ some c := by
  intro hhead
  have hdigit := (Text.numeral_writeDecimal n).2 c (List.mem_of_mem_head? hhead)
  rw [hc] at hdigit
  cases hdigit

/-- A number is read back from its text. -/
theorem readLevels?_writeDecimal {n : Nat} (h : n < levelLimit) :
    readLevels? (Text.writeDecimal n) = some n := by
  have hnumeral := Text.numeral_writeDecimal n
  have hplus : (Text.writeDecimal n).head? ≠ some '+' := head?_writeDecimal_ne n (by decide)
  have hread : Text.readDecimal (Text.writeDecimal n) = n := by
    rw [Text.readDecimal_eq hnumeral.2, Text.number_writeDecimal]
  rw [readLevels?]
  simp only [if_neg hplus, Text.isNumeral_iff.mpr hnumeral, hread, h, and_self, if_true]

/-- The text of a number is no option. -/
theorem looksLikeOption_writeDecimal (n : Nat) :
    looksLikeOption (Text.writeDecimal n) = false := by
  have hdash : (Text.writeDecimal n).head? ≠ some '-' := head?_writeDecimal_ne n (by decide)
  rw [looksLikeOption, beq_eq_false_iff_ne.mpr hdash, Bool.false_and]

/-- The arguments for a number of levels. -/
theorem readArguments_levels {n : Nat} (h : n < levelLimit) (args : List (List Char)) :
    readArguments {} none (['-', 'l'] :: Text.writeDecimal n :: args) =
      readArguments { levels := some n } none args := by
  have hset : Options.set? {} .levels (Text.writeDecimal n) = some { levels := some n } := by
    rw [Options.set?, readLevels?_writeDecimal h]
    rfl
  have hletter : readArgument {} ['-', 'l'] = .needs {} .levels := rfl
  rw [readArguments, if_neg (by decide), hletter]
  simp only [readArguments, looksLikeOption_writeDecimal, hset, Bool.false_eq_true, if_false]

theorem request_levels {n : Nat} (h : n < levelLimit) :
    request ["-l", Text.ofNat n] = .start { levels := some n } := by
  have hargs : ["-l", Text.ofNat n].map String.toList = [['-', 'l'], Text.writeDecimal n] := by
    simp [Text.ofNat]
  rw [request, hargs, readArguments_levels h]
  rfl

theorem request_levels_eval {n : Nat} (h : n < levelLimit) (words : String) :
    request ["-l", Text.ofNat n, "-e=" ++ words] =
      .start { levels := some n, eval := some words } := by
  have hargs : ["-l", Text.ofNat n, "-e=" ++ words].map String.toList =
      [['-', 'l'], Text.writeDecimal n, '-' :: 'e' :: '=' :: words.toList] := by
    simp [Text.ofNat]
  have hletter : readArgument { levels := some n } ('-' :: 'e' :: '=' :: words.toList) =
      .next { levels := some n, eval := some words } := by
    show Options.setJoined { levels := some n } .eval words.toList = _
    rw [Options.setJoined, Options.set?, String.ofList_toList]
    rfl
  rw [request, hargs, readArguments_levels h, readArguments, if_neg (by simp), hletter]
  rfl

/-- The line editor hands out the lines of a text without a backspace. -/
theorem typedLines_of_notMem {text : String} (h : '\x08' ∉ text.toList) :
    typedLines text = (Text.lines text.toList).map fun line => some (String.ofList line) := by
  refine List.map_congr_left fun line hline => ?_
  have hnot : '\x08' ∉ line := by
    intro hmem
    obtain ⟨whole, hwhole, rfl⟩ := List.mem_map.mp hline
    have hmem' : '\x08' ∈ whole := by
      rw [← Text.dropEnd_append_lineEnd whole]
      exact List.mem_append_left _ hmem
    refine h ?_
    rw [← Text.flatten_cutAfter (· == '\n') text.toList]
    exact List.mem_flatten.mpr ⟨whole, hwhole, hmem'⟩
  rw [Text.typed?_of_notMem hnot]
  rfl

/-! ## Both ways -/

/-- What comes in is replayed. -/
theorem run_piped {n : Nat} (h : n < levelLimit) (bound : Nat) (input : String) (disk : Disk) :
    run bound ["-l", Text.ofNat n] input disk =
      (replay bound ⟨{ disk }, n⟩ (typedLines input)).map fun r =>
        { exitCode := r.1, stdout := printed r.2.1, disk := r.2.2.machine.disk } := by
  rw [run, request_levels h]
  rfl

/-- What is given is evaluated and shown once. -/
theorem run_batch {n : Nat} (h : n < levelLimit) (bound : Nat) (words input : String)
    (disk : Disk) :
    run bound ["-l", Text.ofNat n, "-e=" ++ words] input disk =
      (evaluate bound { disk } words).map fun r =>
        { stdout := printed (shown n r.2), disk := r.2.disk } := by
  rw [run, request_levels_eval h]
  show ((executeLine bound ⟨{ disk }, n⟩ words).map _) = _
  rw [executeLine, Option.map_map]
  refine congrArg (Option.map · _) (funext fun r => ?_)
  simp only [Function.comp_apply, report_eq]

/-- A text that is not empty has a line. -/
theorem lines_ne_nil {text : String} (h : text ≠ "") :
    (Text.lines text.toList).map String.ofList ≠ [] := by
  intro hnil
  have hcut : Text.cutAfter (· == '\n') text.toList = [] :=
    List.map_eq_nil_iff.mp (List.map_eq_nil_iff.mp hnil)
  have hflatten := Text.flatten_cutAfter (· == '\n') text.toList
  rw [hcut] at hflatten
  exact h (String.toList_eq_nil_iff.mp hflatten.symm)

/-- **A text that is evaluated as a whole** leaves what its last line leaves, with the messages of
all its lines. -/
theorem evaluate_of_replayed {disk : Disk} {text : String} {earlier : List Machine}
    {last m : Machine} {status : Status} {bound : Nat}
    (h : Replayed { disk } ((Text.lines text.toList).map String.ofList) earlier last)
    (heval : evaluate bound { disk } text = some (status, m)) :
    m.idle = last.idle.logged (earlier.flatMap messages) := by
  obtain ⟨status', hlines⟩ := h.evaluates rfl rfl
  obtain ⟨htext, -⟩ := evaluates_of_evaluate (m := { disk }) rfl rfl heval
  rw [Source.pending_ofText_lines] at htext
  exact (htext.unique hlines).2

/-- What is shown of it are the messages of all lines and the stack after the last. -/
theorem shown_of_idle {m last : Machine} {earlier : List Machine}
    (h : m.idle = last.idle.logged (earlier.flatMap messages)) (levels : Nat) :
    shown levels m = (earlier ++ [last]).flatMap diagnostics ++ stackPart levels last := by
  have hmessages : m.messages = earlier.flatMap messages ++ last.messages :=
    congrArg Machine.messages h
  have hdiagnostics : diagnostics m = (earlier ++ [last]).flatMap diagnostics := by
    rw [diagnostics, hmessages, List.map_append, List.map_flatMap, List.flatMap_append,
      List.flatMap_singleton]
    rfl
  have hstack : stackPart levels m = stackPart levels last := by
    show stackPart levels m.idle = _
    rw [h]
    rfl
  rw [shown, hdiagnostics, hstack]

/-- **The piped and the batch front end agree.**  Let the line editor hand out the lines of a text
that is not empty.  When the text comes in, each of its lines up to the one in which `quit` is read
is reported on, by its messages and the stack after it.  When the text is given as an argument, the
same messages are shown, each once and in this order, and then the stack after the last of these
lines.  One comes to an end when the other does; both succeed, and leave the same files. -/
theorem pipe_agrees (text : String) (n : Nat) (disk : Disk) (input : String) (hne : text ≠ "")
    (hn : n < levelLimit)
    (heditor : typedLines text =
      (Text.lines text.toList).map fun line => some (String.ofList line)) :
    ((∃ bound, (run bound ["-l", Text.ofNat n] text disk).isSome) ↔
      ∃ bound, (run bound ["-l", Text.ofNat n, "-e=" ++ text] input disk).isSome) ∧
    ∀ (bound bound' : Nat) (piped batch : Outcome),
      run bound ["-l", Text.ofNat n] text disk = some piped →
      run bound' ["-l", Text.ofNat n, "-e=" ++ text] input disk = some batch →
      ∃ earlier last,
        Replayed { disk } ((Text.lines text.toList).map String.ofList) earlier last ∧
        piped =
          { exitCode := 0
            stdout := printed ((earlier ++ [last]).flatMap fun m =>
              diagnostics m ++ stackPart n m)
            stderr := ""
            disk := last.disk } ∧
        batch =
          { exitCode := 0
            stdout := printed ((earlier ++ [last]).flatMap diagnostics ++ stackPart n last)
            stderr := ""
            disk := last.disk } := by
  have htyped : typedLines text = ((Text.lines text.toList).map String.ofList).map some := by
    rw [heditor, List.map_map]
    rfl
  have hpiped {bound : Nat} {piped : Outcome}
      (h : run bound ["-l", Text.ofNat n] text disk = some piped) :
      ∃ earlier last,
        Replayed { disk } ((Text.lines text.toList).map String.ofList) earlier last ∧
        piped =
          { exitCode := 0
            stdout := printed ((earlier ++ [last]).flatMap (shown n))
            disk := last.disk } := by
    rw [run_piped hn, htyped] at h
    obtain ⟨⟨code, out, s⟩, hreplay, rfl⟩ := Option.map_eq_some_iff.mp h
    obtain ⟨earlier, last, hreplayed, rfl, rfl, hdisk⟩ :=
      replayed_of_replay (lines_ne_nil hne) hreplay
    exact ⟨earlier, last, hreplayed, by rw [hdisk]⟩
  refine ⟨⟨?_, ?_⟩, ?_⟩
  · rintro ⟨bound, h⟩
    obtain ⟨piped, h⟩ := Option.isSome_iff_exists.mp h
    obtain ⟨earlier, last, hreplayed, -⟩ := hpiped h
    obtain ⟨status, hlines⟩ := hreplayed.evaluates rfl rfl
    have htext : Evaluates (idle { disk }) (Source.ofText text).pending status
        (last.idle.logged (earlier.flatMap messages)) := by
      rw [Source.pending_ofText_lines]
      exact hlines
    obtain ⟨bound, m, heval, -⟩ := htext.exists_evaluate (m := { disk }) rfl rfl
    refine ⟨bound, ?_⟩
    rw [run_batch hn, heval]
    rfl
  · rintro ⟨bound, h⟩
    rw [run_batch hn, Option.isSome_map] at h
    obtain ⟨⟨status, m⟩, heval⟩ := Option.isSome_iff_exists.mp h
    obtain ⟨htext, -⟩ := evaluates_of_evaluate (m := { disk }) rfl rfl heval
    rw [Source.pending_ofText_lines] at htext
    obtain ⟨earlier, last, hreplayed⟩ :=
      exists_replayed (m := { disk }) (lines_ne_nil hne) rfl rfl htext
    obtain ⟨bound, r, hreplay⟩ := exists_replay hreplayed n
    refine ⟨bound, ?_⟩
    rw [run_piped hn, htyped, hreplay]
    rfl
  · intro bound bound' piped batch hrun hrun'
    obtain ⟨earlier, last, hreplayed, hout⟩ := hpiped hrun
    rw [run_batch hn] at hrun'
    obtain ⟨⟨status, m⟩, heval, rfl⟩ := Option.map_eq_some_iff.mp hrun'
    have hidle := evaluate_of_replayed hreplayed heval
    refine ⟨earlier, last, hreplayed, hout, ?_⟩
    have hdisk : m.disk = last.disk := by
      show m.idle.disk = _
      rw [hidle]
      rfl
    rw [shown_of_idle hidle, hdisk]

/-- A word that fails, a quote that is not closed, and `quit` before the last line. -/
theorem pipe_agrees_quit :
    ∃ earlier last, Replayed {} ["drop 1", "\"a b", "drop drop quit 2", "3"] earlier last ∧
      printed ((earlier ++ [last]).flatMap fun m => diagnostics m ++ stackPart 2 m) =
        "Error: Stack underflow\n 0: INT : 1\n 1: INT : 1\n 0: STR : a b\n" ++
          "parameter stack empty\n" ∧
      printed ((earlier ++ [last]).flatMap diagnostics ++ stackPart 2 last) =
        "Error: Stack underflow\nparameter stack empty\n" := by
  let text : String := "drop 1\n\"a b\r\ndrop drop quit 2\n3"
  have hlines : (Text.lines text.toList).map String.ofList =
      ["drop 1", "\"a b", "drop drop quit 2", "3"] := by decide
  have heditor : typedLines text =
      (Text.lines text.toList).map fun line => some (String.ofList line) :=
    typedLines_of_notMem (by decide)
  have hpiped : (run 9 ["-l", Text.ofNat 2] text .empty).map Outcome.stdout =
      some ("Error: Stack underflow\n 0: INT : 1\n 1: INT : 1\n 0: STR : a b\n" ++
        "parameter stack empty\n") := by
    rw [run_piped (by decide), heditor]
    decide +kernel
  have hbatch : (run 9 ["-l", Text.ofNat 2, "-e=" ++ text] "" .empty).map Outcome.stdout =
      some "Error: Stack underflow\nparameter stack empty\n" := by
    rw [run_batch (by decide)]
    decide +kernel
  obtain ⟨piped, hrun, hstdout⟩ := Option.map_eq_some_iff.mp hpiped
  obtain ⟨batch, hrun', hstdout'⟩ := Option.map_eq_some_iff.mp hbatch
  obtain ⟨earlier, last, hreplayed, hout, hout'⟩ :=
    (pipe_agrees text 2 .empty "" (by decide) (by decide) heditor).2 9 9 piped batch hrun hrun'
  rw [hlines] at hreplayed
  rw [hout] at hstdout
  rw [hout'] at hstdout'
  exact ⟨earlier, last, hreplayed, hstdout, hstdout'⟩

end CommandLine

end RpnCalculator
